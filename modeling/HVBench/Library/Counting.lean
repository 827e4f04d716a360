import Mathlib.Data.List.Induction
import Mathlib.Tactic.Common

/-! Counting the entries of a list that satisfy a test, in the whole list and in its
stretches of `b` entries. -/
namespace Counting
variable {τ : Type*} {p : τ → Bool} {l : List τ} {m : ℕ} {t u : τ}

/-- How a change of one entry changes the count. -/
theorem countP_set (hm : l[m]? = some t) :
    (l.set m u).countP p + (if p t then 1 else 0) = l.countP p + if p u then 1 else 0 := by
  obtain ⟨hlt, rfl⟩ := List.getElem?_eq_some_iff.mp hm
  rw [List.countP_set hlt]
  by_cases hp : p l[m] = true
  · have hpos : 0 < l.countP p := List.countP_pos_iff.mpr ⟨_, List.getElem_mem hlt, hp⟩
    rw [if_pos hp]
    omega
  · rw [if_neg hp]
    omega

/-- A change of one entry does not make fewer of them satisfy what it keeps. -/
theorem countP_le_set (hm : l[m]? = some t) (hkeep : p t = true → p u = true) :
    l.countP p ≤ (l.set m u).countP p := by
  have hset := countP_set (p := p) (u := u) hm
  by_cases hp : p t = true
  · rw [if_pos hp, if_pos (hkeep hp)] at hset
    omega
  · rw [if_neg hp] at hset
    omega

theorem countP_take_le_set {k : ℕ} (hm : l[m]? = some t) (hkeep : p t = true → p u = true) :
    (l.take k).countP p ≤ ((l.set m u).take k).countP p := by
  rw [List.take_set]
  rcases Nat.lt_or_ge m k with hlt | hge
  · exact countP_le_set (by rw [List.getElem?_take_of_lt hlt, hm]) hkeep
  · have hlength : (l.take k).length ≤ m := Nat.le_trans (List.length_take_le k l) hge
    exact Nat.le_of_eq (by rw [List.set_eq_of_length_le hlength])

/-- How many entries of the `n`-th stretch satisfy the test. -/
def stretch (p : τ → Bool) (b : ℕ) (l : List τ) (n : ℕ) : ℕ :=
  ((l.drop (n * b)).take b).countP p

variable {b n : ℕ}

theorem stretch_le : stretch p b l n ≤ b :=
  Nat.le_trans List.countP_le_length (List.length_take_le b _)

/-- A stretch that is not there to its end. -/
theorem stretch_lt (hb : 0 < b) (h : l.length < (n + 1) * b) : stretch p b l n < b := by
  have hcount := List.countP_le_length (p := p) (l := (l.drop (n * b)).take b)
  rw [List.length_take, List.length_drop] at hcount
  rw [Nat.succ_mul] at h
  unfold stretch
  omega

theorem stretch_eq_zero (h : l.length ≤ n * b) : stretch p b l n = 0 := by
  rw [stretch, List.drop_eq_nil_of_le h, List.take_nil]
  rfl

theorem stretch_snoc (ht : p t = false) : stretch p b (l ++ [t]) n = stretch p b l n := by
  unfold stretch
  rcases Nat.le_total (n * b) l.length with hle | hge
  · rw [List.drop_append_of_le_length hle, List.take_append, List.countP_append,
      Nat.add_eq_left]
    rcases hk : b - (l.drop (n * b)).length with _ | k
    · rfl
    · simp [ht]
  · rw [List.drop_append, List.drop_eq_nil_of_le hge]
    rcases n * b - l.length with _ | k
    · cases b <;> simp [ht]
    · simp

theorem getElem?_stretch {i : ℕ} (hi : i / b = n) (hb : 0 < b) :
    ((l.drop (n * b)).take b)[i % b]? = l[i]? := by
  subst hi
  rw [List.getElem?_take_of_lt (Nat.mod_lt i hb), List.getElem?_drop, Nat.mul_comm,
    Nat.div_add_mod]

theorem stretch_set {i : ℕ} (hb : 0 < b) (hi : l[i]? = some t) :
    stretch p b (l.set i u) n + (if i / b = n ∧ p t then 1 else 0) =
      stretch p b l n + if i / b = n ∧ p u then 1 else 0 := by
  by_cases hn : i / b = n
  · have hdrop : (l.set i u).drop (n * b) = (l.drop (n * b)).set (i % b) u := by
      rw [List.set_drop, ← hn, Nat.mul_comm, Nat.div_add_mod]
    simp only [hn, true_and]
    rw [stretch, hdrop, List.take_set]
    exact countP_set (by rw [getElem?_stretch hn hb, hi])
  · simp only [hn, false_and, if_false, Nat.add_zero]
    have hdivmod := Nat.div_add_mod i b
    have hmod := Nat.mod_lt i hb
    unfold stretch
    rcases Nat.lt_or_gt_of_ne hn with hlt | hgt
    · have hle := Nat.mul_le_mul_left b (Nat.succ_le_of_lt hlt)
      rw [Nat.mul_succ, Nat.mul_comm b n] at hle
      rw [List.drop_set_of_lt (by omega)]
    · have hle := Nat.mul_le_mul_left b (Nat.succ_le_of_lt hgt)
      rw [Nat.mul_succ, Nat.mul_comm b n] at hle
      have hset : (l.set i u).drop (n * b) = (l.drop (n * b)).set (i - n * b) u := by
        rw [List.set_drop, Nat.add_sub_cancel' (by omega)]
      rw [hset, List.take_set, List.set_eq_of_length_le]
      exact Nat.le_trans (List.length_take_le b _) (by omega)

/-- A stretch that satisfies the test throughout is there to its end. -/
theorem of_stretch_eq {i : ℕ} (hb : 0 < b) (h : stretch p b l n = b) (hi : i / b = n) :
    ∃ t, l[i]? = some t ∧ p t = true := by
  have hlength : ((l.drop (n * b)).take b).length = b := by
    have hle := List.length_take_le b (l.drop (n * b))
    have hcount := List.countP_le_length (p := p) (l := (l.drop (n * b)).take b)
    unfold stretch at h
    omega
  have hlt : i % b < ((l.drop (n * b)).take b).length := by
    rw [hlength]
    exact Nat.mod_lt i hb
  refine ⟨_, (getElem?_stretch hi hb).symm.trans (List.getElem?_eq_getElem hlt), ?_⟩
  exact List.countP_eq_length.mp (h.trans hlength.symm) _ (List.getElem_mem hlt)

theorem stretch_of_forall (h : ∀ t ∈ l, p t = true) :
    stretch p b l n = min b (l.length - n * b) := by
  have hall : ((l.drop (n * b)).take b).countP p = ((l.drop (n * b)).take b).length :=
    List.countP_eq_length.mpr fun t ht => h t (List.mem_of_mem_drop (List.mem_of_mem_take ht))
  rw [stretch, hall, List.length_take, List.length_drop]

end Counting
