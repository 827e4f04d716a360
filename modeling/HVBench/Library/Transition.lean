import Mathlib.Data.List.Basic
import Mathlib.Tactic.Common

/-! Labelled transition systems given by an executable partial step. A label carries
every choice the environment makes, so a run is a list of labels. -/
namespace Transition
variable {σ ℓ : Type*} (step : σ → ℓ → Option σ)

/-- Take the labels in order. `none` when one of them is disabled where it is taken. -/
def exec : σ → List ℓ → Option σ
  | s, [] => some s
  | s, l :: ls => (step s l).bind fun t => exec t ls

/-- Every label of the run satisfies `C` in the state it is taken from. -/
def Meets (C : σ → ℓ → Prop) : σ → List ℓ → Prop
  | _, [] => True
  | s, l :: ls => C s l ∧ ∀ t, step s l = some t → Meets C t ls

variable {step}

@[simp] theorem exec_nil (s : σ) : exec step s [] = some s := rfl

theorem exec_cons {s u : σ} {l : ℓ} {ls : List ℓ} :
    exec step s (l :: ls) = some u ↔ ∃ t, step s l = some t ∧ exec step t ls = some u := by
  simp [exec, Option.bind_eq_some_iff]

theorem exec_append {s u : σ} {ls ms : List ℓ} :
    exec step s (ls ++ ms) = some u ↔
      ∃ t, exec step s ls = some t ∧ exec step t ms = some u := by
  induction ls generalizing s with
  | nil => simp
  | cons l ls ih =>
    simp only [List.cons_append, exec_cons, ih]
    constructor
    · rintro ⟨t, ht, v, hv, hu⟩
      exact ⟨v, ⟨t, ht, hv⟩, hu⟩
    · rintro ⟨v, ⟨t, ht, hv⟩, hu⟩
      exact ⟨t, ht, v, hv, hu⟩

theorem exec_snoc {s u : σ} {ls : List ℓ} {l : ℓ} :
    exec step s (ls ++ [l]) = some u ↔ ∃ t, exec step s ls = some t ∧ step t l = some u := by
  simp [exec_append, exec_cons]

/-- Runs of a system are runs of every system with more steps. -/
theorem exec_mono {step' : σ → ℓ → Option σ}
    (hstep : ∀ s l t, step s l = some t → step' s l = some t)
    {s u : σ} {ls : List ℓ} (h : exec step s ls = some u) : exec step' s ls = some u := by
  induction ls generalizing s with
  | nil => exact h
  | cons l ls ih =>
    obtain ⟨t, ht, hu⟩ := exec_cons.mp h
    exact exec_cons.mpr ⟨t, hstep s l t ht, ih hu⟩

/-- A property one step preserves is preserved by a run. -/
theorem exec_invariant {I : σ → Prop}
    (hstep : ∀ s l t, I s → step s l = some t → I t)
    {s u : σ} {ls : List ℓ} (hs : I s) (h : exec step s ls = some u) : I u := by
  induction ls generalizing s with
  | nil =>
    obtain rfl := Option.some.inj h
    exact hs
  | cons l ls ih =>
    obtain ⟨t, ht, hu⟩ := exec_cons.mp h
    exact ih (hstep s l t hs ht) hu

/-- Where each step overwrites what is observed by what it writes, if anything, a run
leaves the last thing written. -/
theorem exec_lastWrite {ο : Type*} {I : σ → Prop} (obs : σ → ο) (written : ℓ → Option ο)
    (hinv : ∀ s l t, I s → step s l = some t → I t)
    (hobs : ∀ s l t, I s → step s l = some t → obs t = (written l).getD (obs s))
    {s u : σ} {ls : List ℓ} (hs : I s) (h : exec step s ls = some u) :
    obs u = (ls.filterMap written).getLast?.getD (obs s) := by
  induction ls generalizing s with
  | nil =>
    obtain rfl := Option.some.inj h
    rfl
  | cons l ls ih =>
    obtain ⟨t, ht, hu⟩ := exec_cons.mp h
    rw [ih (hinv s l t hs ht) hu, hobs s l t hs ht, List.filterMap_cons]
    cases written l with
    | none => rfl
    | some v => simp [List.getLast?_cons]

/-- One label repeated brings a system to the end of what it is busy with, when each step is
enabled and makes a rank smaller. -/
theorem exec_until {I : σ → Prop} {l : ℓ} (busy : σ → Prop) (rank : σ → ℕ)
    (hstep : ∀ s, I s → busy s → ∃ t, step s l = some t ∧ I t ∧ rank t < rank s) {s : σ}
    (hs : I s) : ∃ n t, exec step s (List.replicate n l) = some t ∧ I t ∧ ¬ busy t := by
  by_cases hbusy : busy s
  · obtain ⟨t, ht, hI, hrank⟩ := hstep s hs hbusy
    obtain ⟨n, u, hu, hIu, hdone⟩ := exec_until busy rank hstep hI
    exact ⟨n + 1, u, exec_cons.mpr ⟨t, ht, hu⟩, hIu, hdone⟩
  · exact ⟨0, s, rfl, hs, hbusy⟩
termination_by rank s

theorem meets_of_forall {C : ℓ → Prop} {s : σ} {ls : List ℓ} (h : ∀ l ∈ ls, C l) :
    Meets step (fun _ l => C l) s ls := by
  induction ls generalizing s with
  | nil => trivial
  | cons l ls ih => exact ⟨h l (by simp), fun t _ => ih fun l hl => h l (by simp [hl])⟩

theorem meets_of_always {C : σ → ℓ → Prop} (h : ∀ s l, C s l) {s : σ} {ls : List ℓ} :
    Meets step C s ls := by
  induction ls generalizing s with
  | nil => trivial
  | cons l ls ih => exact ⟨h s l, fun t _ => ih⟩

/-- Where the steps that meet `C` are enabled and preserve a property, a run of them can
be taken to its end. -/
theorem exists_exec_of_meets {I : σ → Prop} {C : σ → ℓ → Prop}
    (hstep : ∀ s l, I s → C s l → ∃ t, step s l = some t ∧ I t)
    {s : σ} {ls : List ℓ} (hs : I s) (hC : Meets step C s ls) :
    ∃ u, exec step s ls = some u ∧ I u := by
  induction ls generalizing s with
  | nil => exact ⟨s, rfl, hs⟩
  | cons l ls ih =>
    obtain ⟨t, ht, hI⟩ := hstep s l hs hC.1
    obtain ⟨u, hu, hIu⟩ := ih hI (hC.2 t ht)
    exact ⟨u, exec_cons.mpr ⟨t, ht, hu⟩, hIu⟩

/-- A property preserved by the steps that meet `C` is preserved by a run all of
whose steps do. -/
theorem exec_invariant_of_meets {I : σ → Prop} {C : σ → ℓ → Prop}
    (hstep : ∀ s l t, I s → C s l → step s l = some t → I t)
    {s u : σ} {ls : List ℓ} (hs : I s) (hC : Meets step C s ls)
    (h : exec step s ls = some u) : I u := by
  induction ls generalizing s with
  | nil =>
    obtain rfl := Option.some.inj h
    exact hs
  | cons l ls ih =>
    obtain ⟨t, ht, hu⟩ := exec_cons.mp h
    exact ih (hstep s l t hs hC.1 ht) (hC.2 t ht) hu

/-- The converse rule: when, in runs whose steps meet `U`, a step outside `C` leaves a
defect that no later step repairs, a run that ends without it took only steps of `C`. -/
theorem meets_of_exec {I D : σ → Prop} {U C : σ → ℓ → Prop}
    (hinv : ∀ s l t, I s → U s l → C s l → step s l = some t → I t)
    (hdefect : ∀ s l t, I s → U s l → ¬ C s l → step s l = some t → D t)
    (hstable : ∀ s l t, D s → step s l = some t → D t)
    {s u : σ} {ls : List ℓ} (hs : I s) (hU : Meets step U s ls)
    (h : exec step s ls = some u) (hu : ¬ D u) : Meets step C s ls := by
  induction ls generalizing s with
  | nil => trivial
  | cons l ls ih =>
    obtain ⟨t, ht, hrun⟩ := exec_cons.mp h
    by_cases hC : C s l
    · refine ⟨hC, fun t' ht' => ?_⟩
      obtain rfl := Option.some.inj (ht.symm.trans ht')
      exact ih (hinv s l t hs hU.1 hC ht) (hU.2 t ht) hrun
    · exact absurd (exec_invariant hstable (hdefect s l t hs hU.1 hC ht) hrun) hu

theorem Meets.cons {C : σ → ℓ → Prop} {s t : σ} {l : ℓ} {ls : List ℓ}
    (ht : step s l = some t) (hl : C s l) (hls : Meets step C t ls) :
    Meets step C s (l :: ls) := by
  refine ⟨hl, fun t' ht' => ?_⟩
  have heq : t = t' := Option.some.inj (ht.symm.trans ht')
  rw [← heq]
  exact hls

/-- A run whose steps meet `C` and which ends well, one step at a time. -/
theorem exists_exec_cons {C : σ → ℓ → Prop} {P : σ → Prop} {s t : σ} {l : ℓ} {ls : List ℓ}
    (ht : step s l = some t) (hl : C s l)
    (h : ∃ u, exec step t ls = some u ∧ Meets step C t ls ∧ P u) :
    ∃ u, exec step s (l :: ls) = some u ∧ Meets step C s (l :: ls) ∧ P u := by
  obtain ⟨u, hu, hmeets, hP⟩ := h
  exact ⟨u, exec_cons.mpr ⟨t, ht, hu⟩, Meets.cons ht hl hmeets, hP⟩

/-- Whether a run meets what is decidable of each step is decided by taking it. -/
instance decidableMeets {C : σ → ℓ → Prop} [∀ s l, Decidable (C s l)] :
    (s : σ) → (ls : List ℓ) → Decidable (Meets step C s ls)
  | _, [] => .isTrue trivial
  | s, l :: ls =>
    match h : step s l with
    | none => decidable_of_iff (C s l) (by simp [Meets, h])
    | some t =>
      have := decidableMeets (C := C) t ls
      decidable_of_iff (C s l ∧ Meets step C t ls) (by simp [Meets, h])

theorem Meets.mono {C U : σ → ℓ → Prop} (hCU : ∀ s l, C s l → U s l) {s : σ} {ls : List ℓ}
    (hC : Meets step C s ls) : Meets step U s ls := by
  induction ls generalizing s with
  | nil => trivial
  | cons l ls ih => exact ⟨hCU s l hC.1, fun t ht => ih (hC.2 t ht)⟩

theorem meets_append {C : σ → ℓ → Prop} {s : σ} {ls ms : List ℓ} :
    Meets step C s (ls ++ ms) ↔
      Meets step C s ls ∧ ∀ t, exec step s ls = some t → Meets step C t ms := by
  induction ls generalizing s with
  | nil => simp [Meets]
  | cons l ls ih =>
    simp only [List.cons_append, Meets, ih, exec_cons]
    constructor
    · intro ⟨hl, hrest⟩
      refine ⟨⟨hl, fun t ht => (hrest t ht).1⟩, ?_⟩
      intro u ⟨t, ht, hu⟩
      exact (hrest t ht).2 u hu
    · intro ⟨⟨hl, hfirst⟩, hlast⟩
      exact ⟨hl, fun t ht => ⟨hfirst t ht, fun u hu => hlast u ⟨t, ht, hu⟩⟩⟩

/-- A run meets `C` when each of its labels does in the state it is taken from. -/
theorem meets_iff_split {C : σ → ℓ → Prop} {s : σ} {ls : List ℓ} :
    Meets step C s ls ↔
      ∀ before l after t, ls = before ++ l :: after → exec step s before = some t → C t l := by
  constructor
  · intro h before l after t hls ht
    rw [hls, meets_append] at h
    exact (h.2 t ht).1
  · intro h
    induction ls generalizing s with
    | nil => trivial
    | cons a ls ih =>
      refine ⟨h [] a ls s rfl rfl, fun t ht => ih ?_⟩
      intro before l after u hls hu
      exact h (a :: before) l after u (by rw [hls]; rfl) (exec_cons.mpr ⟨t, ht, hu⟩)

variable (step) in
/-- `I` holds in every state of the run. -/
def Always (I : σ → Prop) (s : σ) (ls : List ℓ) : Prop :=
  ∀ before after u, ls = before ++ after → exec step s before = some u → I u

theorem always_cons {I : σ → Prop} {s : σ} {l : ℓ} {ls : List ℓ} :
    Always step I s (l :: ls) ↔ I s ∧ ∀ t, step s l = some t → Always step I t ls := by
  constructor
  · intro h
    refine ⟨h [] (l :: ls) s rfl rfl, fun t ht before after u hls hu => ?_⟩
    exact h (l :: before) after u (by rw [hls]; rfl) (exec_cons.mpr ⟨t, ht, hu⟩)
  · intro ⟨hs, hrest⟩ before after u hls hu
    cases before with
    | nil =>
      obtain rfl := Option.some.inj hu
      exact hs
    | cons a before =>
      obtain ⟨rfl, rfl⟩ := List.cons.inj hls
      obtain ⟨t, ht, hu⟩ := exec_cons.mp hu
      exact hrest t ht before after u rfl hu

/-- Where `C` tells exactly whether a step that meets `U` preserves `I`, it also does so
for runs of such steps. `G` is what all of them preserve. -/
theorem always_iff_meets_of_exec {G I : σ → Prop} {U C : σ → ℓ → Prop}
    (hinv : ∀ s l t, G s → U s l → step s l = some t → G t)
    (hstep : ∀ s l t, G s → I s → U s l → step s l = some t → (I t ↔ C s l))
    {s u : σ} {ls : List ℓ} (hG : G s) (hI : I s) (hU : Meets step U s ls)
    (h : exec step s ls = some u) : Always step I s ls ↔ Meets step C s ls := by
  induction ls generalizing s with
  | nil =>
    refine ⟨fun _ => trivial, fun _ before after v hls hv => ?_⟩
    obtain ⟨rfl, -⟩ := List.append_eq_nil_iff.mp hls.symm
    obtain rfl := Option.some.inj hv
    exact hI
  | cons l ls ih =>
    obtain ⟨t, ht, hu⟩ := exec_cons.mp h
    have hGt : G t := hinv s l t hG hU.1 ht
    have hUt : Meets step U t ls := hU.2 t ht
    rw [always_cons]
    constructor
    · intro ⟨_, hrest⟩
      have hIt : I t := hrest t ht [] ls t rfl rfl
      have hC : C s l := (hstep s l t hG hI hU.1 ht).mp hIt
      exact Meets.cons ht hC ((ih hGt hIt hUt hu).mp (hrest t ht))
    · intro ⟨hC, hrest⟩
      refine ⟨hI, fun t' ht' => ?_⟩
      obtain rfl := Option.some.inj (ht.symm.trans ht')
      exact (ih hGt ((hstep s l t hG hI hU.1 ht).mpr hC) hUt hu).mpr (hrest t ht)

/-- The same for steps that are always enabled. -/
theorem always_iff_meets {G I : σ → Prop} {C : σ → ℓ → Prop}
    (htotal : ∀ s l, (step s l).isSome) (hinv : ∀ s l t, G s → step s l = some t → G t)
    (hstep : ∀ s l t, G s → I s → step s l = some t → (I t ↔ C s l))
    {s : σ} {ls : List ℓ} (hG : G s) (hI : I s) :
    Always step I s ls ↔ Meets step C s ls := by
  have henabled : ∀ s l, True → True → ∃ t, step s l = some t ∧ True := by
    intro s l _ _
    obtain ⟨t, ht⟩ := Option.isSome_iff_exists.mp (htotal s l)
    exact ⟨t, ht, trivial⟩
  have hall : Meets step (fun _ _ => True) s ls := meets_of_always fun _ _ => trivial
  obtain ⟨u, hu, -⟩ := exists_exec_of_meets henabled trivial hall
  exact always_iff_meets_of_exec (fun s l t hG _ ht => hinv s l t hG ht)
    (fun s l t hG hI _ ht => hstep s l t hG hI ht) hG hI hall hu

section Since
variable {starts ends : List ℓ → ℓ → Prop}

/-- Something started in the past of a run and has not ended since. Whether a label starts
or ends it is told by the labels before. -/
def Since (starts ends : List ℓ → ℓ → Prop) (ls : List ℓ) : Prop :=
  ∃ before l after, ls = before ++ l :: after ∧ starts before l ∧
    ∀ mid l' rest, after = mid ++ l' :: rest → ¬ends (before ++ l :: mid) l'

theorem not_since_nil : ¬Since starts ends [] := by
  rintro ⟨before, l, after, hls, -⟩
  simp at hls

/-- The label is the last one or comes before. -/
theorem snoc_eq_split {ls before after : List ℓ} {x l : ℓ} (h : ls ++ [x] = before ++ l :: after) :
    (ls = before ∧ x = l ∧ after = []) ∨
      ∃ after', after = after' ++ [x] ∧ ls = before ++ l :: after' := by
  rcases List.eq_nil_or_concat after with rfl | ⟨after', y, rfl⟩
  · obtain ⟨hls, hx⟩ := List.append_inj' h rfl
    exact .inl ⟨hls, List.head_eq_of_cons_eq hx, rfl⟩
  · rw [List.concat_eq_append] at h ⊢
    rw [← List.cons_append, ← List.append_assoc] at h
    obtain ⟨hls, hx⟩ := List.append_inj' h rfl
    obtain rfl : x = y := List.head_eq_of_cons_eq hx
    exact .inr ⟨after', rfl, hls⟩

theorem since_snoc {ls : List ℓ} {l : ℓ} :
    Since starts ends (ls ++ [l]) ↔ starts ls l ∨ Since starts ends ls ∧ ¬ends ls l := by
  constructor
  · rintro ⟨before, x, after, hls, hstarts, hends⟩
    rcases snoc_eq_split hls with ⟨rfl, rfl, rfl⟩ | ⟨after', rfl, rfl⟩
    · exact .inl hstarts
    · refine .inr ⟨⟨before, x, after', rfl, hstarts, fun mid l' rest hmid => ?_⟩, ?_⟩
      · exact hends mid l' (rest ++ [l]) (by rw [hmid]; simp)
      · exact hends after' l [] rfl
  · rintro (hstarts | ⟨⟨before, x, after, rfl, hstarts, hends⟩, hl⟩)
    · exact ⟨ls, l, [], rfl, hstarts, by simp⟩
    · refine ⟨before, x, after ++ [l], by simp, hstarts, fun mid l' rest hmid => ?_⟩
      rcases snoc_eq_split hmid with ⟨rfl, rfl, -⟩ | ⟨rest', -, hmid'⟩
      · exact hl
      · exact hends mid l' rest' hmid'

end Since

end Transition
