import Mathlib.Data.List.Basic
import Mathlib.Order.Lattice
import Mathlib.Tactic.Common

/-! Merges of sequences, and the choice of the first element with the least key. -/
namespace Merge
variable {ι α β : Type*}

/-- Each element of `ms` is the next one of one of the sequences `parts`, and all of them
are used up. -/
def IsMerge [DecidableEq ι] (parts : ι → List α) (ms : List α) : Prop :=
  ∃ tagged : List (ι × α), tagged.map Prod.snd = ms ∧
    ∀ i, parts i = (tagged.filter fun e => e.1 = i).map Prod.snd

theorem isMerge_nil [DecidableEq ι] : IsMerge (fun _ : ι => ([] : List α)) [] :=
  ⟨[], rfl, fun _ => rfl⟩

theorem IsMerge.cons [DecidableEq ι] {parts : ι → List α} {ms : List α} (h : IsMerge parts ms)
    (i : ι) (a : α) : IsMerge (Function.update parts i (a :: parts i)) (a :: ms) := by
  obtain ⟨tagged, rfl, hparts⟩ := h
  refine ⟨(i, a) :: tagged, rfl, ?_⟩
  intro j
  by_cases hj : j = i
  · subst hj
    rw [Function.update_self, hparts]
    simp
  · rw [Function.update_of_ne hj, hparts]
    simp [Ne.symm hj]

section
variable [LinearOrder β] {key : α → β} {l : List α} {a b : α}

/-- The element `a` has the least key, and none before it has the same. -/
def FirstLeast (key : α → β) (l : List α) (a : α) : Prop :=
  ∃ before after, l = before ++ a :: after ∧ (∀ b ∈ before, key a < key b) ∧
    ∀ b ∈ after, key a ≤ key b

theorem firstLeast_singleton (key : α → β) (a : α) : FirstLeast key [a] a :=
  ⟨[], [], rfl, by simp, by simp⟩

theorem FirstLeast.mem (h : FirstLeast key l a) : a ∈ l := by
  obtain ⟨before, after, rfl, -⟩ := h
  simp

theorem FirstLeast.le (h : FirstLeast key l a) (hb : b ∈ l) : key a ≤ key b := by
  obtain ⟨before, after, rfl, hbefore, hafter⟩ := h
  rcases List.mem_append.mp hb with hb | hb
  · exact le_of_lt (hbefore b hb)
  · rcases List.mem_cons.mp hb with rfl | hb
    · exact le_refl _
    · exact hafter b hb

theorem FirstLeast.unique (h : FirstLeast key l a) (h' : FirstLeast key l b) : a = b := by
  obtain ⟨before, after, rfl, hbefore, hafter⟩ := id h
  obtain ⟨before', after', heq, hbefore', hafter'⟩ := id h'
  rcases List.append_eq_append_iff.mp heq with ⟨as, rfl, hrest⟩ | ⟨as, rfl, hrest⟩
  · cases as with
    | nil => exact (List.cons.inj hrest).1
    | cons c as =>
      obtain ⟨rfl, -⟩ := List.cons.inj hrest
      have hlt := hbefore' a (by simp)
      have hle := h.le h'.mem
      exact absurd hlt (not_lt.mpr hle)
  · cases as with
    | nil => exact (List.cons.inj hrest).1.symm
    | cons c as =>
      obtain ⟨rfl, -⟩ := List.cons.inj hrest
      have hlt := hbefore b (by simp)
      have hle := h'.le h.mem
      exact absurd hlt (not_lt.mpr hle)

/-- The first least leaf of the first least part is the first least of all. -/
theorem FirstLeast.flatMap {γ : Type*} {f : γ → List α} {bound : γ → β} {parts : List γ} {p : γ}
    (h : FirstLeast bound parts p) (ha : FirstLeast key (f p) a) (heq : bound p = key a)
    (hbound : ∀ q ∈ parts, ∀ b ∈ f q, bound q ≤ key b) : FirstLeast key (parts.flatMap f) a := by
  obtain ⟨before, after, rfl, hbefore, hafter⟩ := h
  obtain ⟨before', after', hp, hbefore', hafter'⟩ := ha
  refine ⟨before.flatMap f ++ before', after' ++ after.flatMap f, ?_, ?_, ?_⟩
  · rw [List.flatMap_append, List.flatMap_cons, hp]
    simp
  · intro b hb
    rcases List.mem_append.mp hb with hb | hb
    · obtain ⟨q, hq, hbq⟩ := List.mem_flatMap.mp hb
      rw [← heq]
      exact lt_of_lt_of_le (hbefore q hq) (hbound q (by simp [hq]) b hbq)
    · exact hbefore' b hb
  · intro b hb
    rcases List.mem_append.mp hb with hb | hb
    · exact hafter' b hb
    · obtain ⟨q, hq, hbq⟩ := List.mem_flatMap.mp hb
      rw [← heq]
      exact le_trans (hafter q hq) (hbound q (by simp [hq]) b hbq)

end
end Merge
