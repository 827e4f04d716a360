import Mathlib.Data.List.Basic
import Mathlib.Tactic.Common

/-! Entries of a list in the hands of threads. A thread holds at most one entry, and knows
which and what is in it. -/
namespace Holding
variable {κ τ : Type*}

/-- What the threads know is what the list says. -/
def Held (holder : τ → Option κ) (l : List τ) (mine : κ → Option (ℕ × τ)) : Prop :=
  ∀ c i x, mine c = some (i, x) ↔ l[i]? = some x ∧ holder x = some c

theorem getElem?_snoc_of_ne {l : List τ} {x : τ} {n : ℕ} (hn : n ≠ l.length) :
    (l ++ [x])[n]? = l[n]? := by
  by_cases hlt : n < l.length
  · exact List.getElem?_append_left hlt
  · have hlong : (l ++ [x]).length ≤ n := by
      rw [List.length_append, List.length_singleton]
      omega
    rw [List.getElem?_eq_none hlong, List.getElem?_eq_none (by omega)]

theorem getElem?_snoc {l : List τ} {x y : τ} {n : ℕ} (h : (l ++ [x])[n]? = some y) :
    l[n]? = some y ∨ n = l.length ∧ y = x := by
  by_cases hn : n = l.length
  · subst hn
    rw [List.getElem?_concat_length] at h
    exact .inr ⟨rfl, (Option.some.inj h).symm⟩
  · rw [getElem?_snoc_of_ne hn] at h
    exact .inl h

theorem getElem?_snoc_of {l : List τ} {x y : τ} {n : ℕ} (h : l[n]? = some y) :
    (l ++ [x])[n]? = some y := by
  rw [List.getElem?_append_left (List.getElem?_eq_some_iff.mp h).1]
  exact h

section
variable {holder : τ → Option κ} {l : List τ} {mine mine' : κ → Option (ℕ × τ)} {c : κ} {i : ℕ}
  {x y : τ} (h : Held holder l mine)
include h

theorem Held.get (hx : mine c = some (i, x)) : l[i]? = some x := ((h c i x).mp hx).1

/-- Where no thread holds an entry, no entry is held. -/
theorem Held.settled (hnone : ∀ c, mine c = none) (hx : x ∈ l) : holder x = none := by
  obtain ⟨i, hi⟩ := List.getElem?_of_mem hx
  cases hholder : holder x with
  | none => rfl
  | some c =>
    have hmine := (h c i x).mpr ⟨hi, hholder⟩
    rw [hnone c] at hmine
    cases hmine

/-- A thread changes its entry, and keeps it or lets it go. -/
theorem Held.set (hx : mine c = some (i, x)) (hother : ∀ c', c' ≠ c → mine' c' = mine c')
    (hnew : mine' c = (holder y).map fun _ => (i, y)) (hy : ∀ c', holder y = some c' → c' = c) :
    Held holder (l.set i y) mine' := by
  intro c' j z
  obtain ⟨hget, hholder⟩ := (h c i x).mp hx
  have hlt := (List.getElem?_eq_some_iff.mp hget).1
  by_cases hc' : c' = c
  · subst hc'
    rw [hnew]
    by_cases hij : i = j
    · subst hij
      rw [List.getElem?_set_self hlt]
      constructor
      · intro hz
        obtain ⟨c'', hc'', hyz⟩ := Option.map_eq_some_iff.mp hz
        cases hyz
        obtain rfl := hy c'' hc''
        exact ⟨rfl, hc''⟩
      · rintro ⟨hyz, hz⟩
        obtain rfl := Option.some.inj hyz
        rw [hz]
        rfl
    · rw [List.getElem?_set_ne hij]
      constructor
      · intro hz
        obtain ⟨c'', -, hyz⟩ := Option.map_eq_some_iff.mp hz
        cases hyz
        exact absurd rfl hij
      · intro hz
        have heq := hx.symm.trans ((h c' j z).mpr hz)
        cases heq
        exact absurd rfl hij
  · rw [hother c' hc', h c' j z]
    by_cases hij : i = j
    · subst hij
      rw [List.getElem?_set_self hlt, hget]
      constructor
      · rintro ⟨hxz, hz⟩
        obtain rfl := Option.some.inj hxz
        exact absurd (Option.some.inj (hz.symm.trans hholder)) hc'
      · rintro ⟨hyz, hz⟩
        obtain rfl := Option.some.inj hyz
        exact absurd (hy c' hz) hc'
    · rw [List.getElem?_set_ne hij]

/-- A thread that holds nothing takes a new entry. -/
theorem Held.snoc (hnone : mine c = none) (hother : ∀ c', c' ≠ c → mine' c' = mine c')
    (hnew : mine' c = some (l.length, x)) (hx : holder x = some c) :
    Held holder (l ++ [x]) mine' := by
  intro c' i y
  by_cases hc' : c' = c
  · subst hc'
    rw [hnew]
    constructor
    · intro hy
      cases hy
      exact ⟨by simp, hx⟩
    · rintro ⟨hy, hholder⟩
      rcases getElem?_snoc hy with hy | ⟨rfl, rfl⟩
      · have hsome := (h c' i y).mpr ⟨hy, hholder⟩
        rw [hnone] at hsome
        cases hsome
      · rfl
  · rw [hother c' hc', h c' i y]
    constructor
    · rintro ⟨hy, hholder⟩
      exact ⟨getElem?_snoc_of hy, hholder⟩
    · rintro ⟨hy, hholder⟩
      rcases getElem?_snoc hy with hy | ⟨rfl, rfl⟩
      · exact ⟨hy, hholder⟩
      · exact absurd (Option.some.inj (hholder.symm.trans hx)) hc'

end
end Holding
