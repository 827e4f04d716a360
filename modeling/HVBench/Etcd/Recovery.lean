import HVBench.Etcd.Watch

/-! Recovery of a recursive watch from an index that etcd has cleared. -/
namespace HVBench
namespace Etcd
namespace Recovery
open Transition
variable {σ : Type*} (callback : σ → RapidReply → HandlerResult σ)

/-- The watch request is answered with error 401. -/
def Outdated (a : Answers) : Prop := a.watch = .error (.replyException 401)

/-- The first line of the header with the label gives `index`. -/
def HeaderIndex (header : List StdString) (index : ℕ) : Prop :=
  ∃ before after, header =
      before ++ (etcdIndexLabel ++ (toString index).toList ++ "\r".toList) :: after ∧
    ∀ line ∈ before, contains etcdIndexLabel line = false

/-- The next watch request, if there is one, is recursive and starts after `index`. -/
def ResumesAfter (index : ℕ) (w : Watch) : Prop :=
  w.maxFailures ≠ 0 → w.watchUrl = waitUrl index true

/-- The watch requests made from here on are recursive. -/
def StaysRecursive (x : Watch × σ) (later : List Answers) : Prop :=
  ∀ as bs y, later = as ++ bs → exec (iterate callback true) x as = some y →
    y.1.maxFailures ≠ 0 → y.1.watchUrl.recursive = true

/-- The change came after the last one handled and is covered by the recovery. -/
def Missed (prevIndex index : ℕ) (r : RapidReply) : Prop :=
  ∃ i, r.getModifiedIndex = some i ∧ prevIndex < i ∧ i ≤ index

/-- The watch waits for changes after all those of the log. -/
def CaughtUp (log : List RapidReply) (w : Watch) : Prop :=
  w.maxFailures ≠ 0 ∧ ∀ r ∈ log, ∀ i, r.getModifiedIndex = some i → i ≤ w.prevIndex

/-- After each recovery of the run the watch goes on as before, and by the time it has
caught up the changes it missed are applied. -/
def LosesNoChange (log : List RapidReply) (Applied : σ → RapidReply → Prop) (x : Watch × σ)
    (run : List Answers) : Prop :=
  ∀ before a after y z u index, run = before ++ a :: after →
    exec (iterate callback true) x before = some y → Outdated a → HeaderIndex a.header index →
    iterate callback true y a = some z → exec (iterate callback true) z after = some u →
    ResumesAfter index z.1 ∧ StaysRecursive callback z after ∧
      (CaughtUp log u.1 → ∀ r ∈ log, Missed y.1.prevIndex index r → Applied u.2 r)

/-- An index that is out of date is older than the one the header names. -/
def AnswersCorrectly (x : Watch × σ) (a : Answers) : Prop :=
  Outdated a → ∃ index, HeaderIndex a.header index ∧ x.1.prevIndex < index

/-- The index is out of date only when the loop has one failure left, so `Run` gives up. -/
def GivesUp (x : Watch × σ) (a : Answers) : Prop := Outdated a → x.1.maxFailures = 1

variable {callback}

theorem waitsAfter_exec {s : σ} {run : List Answers} {y : Watch × σ}
    (h : exec (iterate callback true) (.start 0 0 true, s) run = some y) : WaitsAfter y.1 := by
  apply exec_invariant (I := fun x : Watch × σ => WaitsAfter x.1) ?_ ?_ h
  · intro x a z hx hz
    exact waitsAfter_iterate hx hz
  · exact waitsAfter_start 0 0 true

/-- A watch that goes on after error 401 is not recursive, or asks for what it asked for
before. -/
theorem not_resumesAfter {y z : Watch × σ} {a : Answers} {index : ℕ} (hy : WaitsAfter y.1)
    (ha : Outdated a) (hz : iterate callback true y a = some z) (hfail : y.1.maxFailures ≠ 1)
    (hindex : y.1.prevIndex < index) : ¬ ResumesAfter index z.1 := by
  have hrun : y.1.maxFailures ≠ 0 := (iterate_cases hz).1
  intro hresumes
  rcases iterate_outdated hz ha with hsame | ⟨i, hi⟩
  · have hurl : y.1.watchUrl = waitUrl index true := by
      have hnext := hresumes (by rw [hsame]; dsimp only; omega)
      rw [hsame] at hnext
      exact hnext
    unfold WaitsAfter at hy
    rw [hurl] at hy
    rcases hy with hnone | hsome
    · cases hnone
    · have heq : index + 1 = y.1.prevIndex + 1 := Option.some.inj hsome
      omega
  · have hnext := hresumes (by rw [hi]; dsimp only; omega)
    rw [hi] at hnext
    have hrec : false = true := congrArg WatchUrl.recursive hnext
    cases hrec

/-- A loop with one failure left makes no request after error 401. -/
theorem ended_of_outdated {y z : Watch × σ} {a : Answers} (ha : Outdated a)
    (hz : iterate callback true y a = some z) (hfail : y.1.maxFailures = 1) :
    z.1.maxFailures = 0 := by
  rcases iterate_outdated hz ha with hsame | ⟨i, hi⟩
  · rw [hsame]
    dsimp only
    omega
  · rw [hi]
    dsimp only
    omega

theorem exec_of_ended {z u : Watch × σ} {later : List Answers} (hz : z.1.maxFailures = 0)
    (hu : exec (iterate callback true) z later = some u) : u = z := by
  cases later with
  | nil => exact (Option.some.inj hu).symm
  | cons a later =>
    obtain ⟨v, hv, -⟩ := exec_cons.mp hu
    exact absurd hz (iterate_cases hv).1

/-- Changes are not lost exactly in the runs where error 401 ends the watch: a watch that
goes on after it is never as the recovery should leave it. -/
theorem losesNoChange_iff (log : List RapidReply) (Applied : σ → RapidReply → Prop) {s : σ}
    {run : List Answers} {v : Watch × σ}
    (hrun : exec (iterate callback true) (.start 0 0 true, s) run = some v)
    (hetcd : Meets (iterate callback true) AnswersCorrectly (.start 0 0 true, s) run) :
    LosesNoChange callback log Applied (.start 0 0 true, s) run ↔
      Meets (iterate callback true) GivesUp (.start 0 0 true, s) run := by
  constructor
  · intro hkeeps
    rw [meets_iff_split]
    intro before a after y hsplit hy ha
    by_contra hfail
    obtain ⟨index, hheader, hindex⟩ := meets_iff_split.mp hetcd before a after y hsplit hy ha
    rw [hsplit, exec_append] at hrun
    obtain ⟨y', hy', hrest⟩ := hrun
    have heq : y' = y := Option.some.inj (hy'.symm.trans hy)
    subst heq
    obtain ⟨z, hz, hv⟩ := exec_cons.mp hrest
    have hresumes := (hkeeps before a after y' z v index hsplit hy ha hheader hz hv).1
    exact not_resumesAfter (waitsAfter_exec hy) ha hz hfail hindex hresumes
  · intro hmeets before a after y z u index hsplit hy ha _ hz hu
    have hlast : y.1.maxFailures = 1 := meets_iff_split.mp hmeets before a after y hsplit hy ha
    have hended : z.1.maxFailures = 0 := ended_of_outdated ha hz hlast
    refine ⟨fun hgoes => absurd hended hgoes, ?_, ?_⟩
    · intro as bs t _ ht hgoes
      rw [exec_of_ended hended ht] at hgoes
      exact absurd hended hgoes
    · intro hcaught
      rw [exec_of_ended hended hu] at hcaught
      exact absurd hended hcaught.1

end Recovery
end Etcd
end HVBench
