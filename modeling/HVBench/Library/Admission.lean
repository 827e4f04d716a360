import HVBench.Library.Counting

/-! Admission by number. Comers draw numbers, and each is admitted or turned away in any
order. Who holds number `m` may be admitted when the budget covers the numbers up to `m`
without those below it that were turned away. No more are admitted than the budget. -/
namespace Admission
open Counting
variable {τ : Type*} (admitted refused : τ → Bool)

/-- Each number that was admitted was within the budget. -/
def Within (budget : ℕ) (l : List τ) : Prop :=
  ∀ m t, l[m]? = some t → admitted t = true → m + 1 ≤ budget + (l.take m).countP refused

variable {admitted refused} {budget : ℕ} {l : List τ}

theorem within_nil : Within admitted refused budget [] := by
  intro m t h
  simp at h

theorem Within.mono {budget' : ℕ} (h : Within admitted refused budget l)
    (hle : budget ≤ budget') : Within admitted refused budget' l := by
  intro m t hm ht
  have hbudget := h m t hm ht
  omega

/-- A number that is drawn is not admitted yet. -/
theorem Within.snoc {t : τ} (h : Within admitted refused budget l) (ht : admitted t = false) :
    Within admitted refused budget (l ++ [t]) := by
  intro m t' hm ht'
  rcases Nat.lt_or_ge m l.length with hlt | hge
  · rw [List.getElem?_append_left hlt] at hm
    rw [List.take_append_of_le_length (Nat.le_of_lt hlt)]
    exact h m t' hm ht'
  · rw [List.getElem?_append_right hge] at hm
    obtain rfl := List.mem_singleton.mp (List.mem_of_getElem? hm)
    rw [ht] at ht'
    cases ht'

/-- An entry changes. Who was turned away stays so, and is admitted within the budget. -/
theorem Within.set {m : ℕ} {t t' : τ} (h : Within admitted refused budget l)
    (hm : l[m]? = some t) (hkeep : refused t = true → refused t' = true)
    (hnew : admitted t' = true → admitted t = true ∨
      m + 1 ≤ budget + (l.take m).countP refused) :
    Within admitted refused budget (l.set m t') := by
  intro k x hk hx
  have hle := countP_take_le_set (k := k) hm hkeep
  by_cases hkm : m = k
  · subst hkm
    obtain ⟨hlt, -⟩ := List.getElem?_eq_some_iff.mp hm
    rw [List.getElem?_set_self hlt] at hk
    obtain rfl := Option.some.inj hk
    rcases hnew hx with hold | hnow
    · have hbudget := h m t hm hold
      omega
    · omega
  · rw [List.getElem?_set_ne hkm] at hk
    have hbudget := h k x hk hx
    omega

/-- No more are admitted than the budget: the last one admitted accounts for all. -/
theorem Within.countP_le (h : Within admitted refused budget l)
    (hdisjoint : ∀ t, admitted t = true → refused t = false) : l.countP admitted ≤ budget := by
  induction l using List.reverseRecOn with
  | nil => simp
  | append_singleton l t ih =>
    have hinit : Within admitted refused budget l := by
      intro m x hm hx
      have hlt := (List.getElem?_eq_some_iff.mp hm).1
      have hbudget := h m x (by rw [List.getElem?_append_left hlt, hm]) hx
      rw [List.take_append_of_le_length (Nat.le_of_lt hlt)] at hbudget
      exact hbudget
    rw [List.countP_append, List.countP_singleton]
    by_cases ht : admitted t = true
    · have hlast := h l.length t (by simp) ht
      rw [List.take_left] at hlast
      have hboth : l.countP admitted + l.countP refused ≤ l.length := by
        rw [List.length_eq_countP_add_countP admitted, Nat.add_le_add_iff_left]
        apply List.countP_mono_left
        intro x _ hx
        cases hadm : admitted x with
        | false => rfl
        | true => rw [hdisjoint x hadm] at hx; cases hx
      rw [if_pos ht]
      omega
    · rw [if_neg ht, Nat.add_zero]
      exact ih hinit

end Admission
