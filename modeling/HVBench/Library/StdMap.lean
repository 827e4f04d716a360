import Mathlib.Algebra.Group.Basic
import Mathlib.Data.List.AList
import Mathlib.Tactic.Common

/-! `std::map` as a finite map, with `operator[]`, which creates a missing entry. -/

/-- A finite map. Each key has at most one entry. -/
abbrev StdMap (κ ν : Type*) := AList fun _ : κ => ν

namespace StdMap
variable {κ ν : Type*} [DecidableEq κ]

/-- The value of `m[k]`, where a missing entry is created as `d`. -/
def getD (m : StdMap κ ν) (k : κ) (d : ν) : ν := (m.lookup k).getD d

/-- Change `m[k]` in place by `f`. A missing entry is first created as `d`. -/
def modify (m : StdMap κ ν) (k : κ) (d : ν) (f : ν → ν) : StdMap κ ν :=
  m.insert k (f (m.getD k d))

/-- The map with the value `v` at every key of `ks`. -/
def assign (m : StdMap κ ν) (ks : List κ) (v : ν) : StdMap κ ν :=
  ks.foldl (fun m k => m.insert k v) m

/-- `m.insert`, which leaves an entry that exists as it is. -/
def insertNew (m : StdMap κ ν) (k : κ) (v : ν) : StdMap κ ν :=
  if (m.lookup k).isSome then m else m.insert k v

@[simp] theorem lookup_modify (m : StdMap κ ν) (k : κ) (d : ν) (f : ν → ν) :
    (m.modify k d f).lookup k = some (f (m.getD k d)) := AList.lookup_insert m

theorem lookup_modify_ne {m : StdMap κ ν} {k k' : κ} (d : ν) (f : ν → ν) (h : k' ≠ k) :
    (m.modify k d f).lookup k' = m.lookup k' := AList.lookup_insert_ne h

@[simp] theorem getD_modify (m : StdMap κ ν) (k : κ) (d : ν) (f : ν → ν) :
    (m.modify k d f).getD k d = f (m.getD k d) := by
  simp [getD]

theorem getD_modify_ne {m : StdMap κ ν} {k k' : κ} (d : ν) (f : ν → ν) (h : k' ≠ k) :
    (m.modify k d f).getD k' d = m.getD k' d := by
  unfold getD
  rw [lookup_modify_ne d f h]

/-- An increment at one of the keys is an increment of the sum over them. -/
theorem sum_modify {ν : Type*} [AddCommMonoid ν] (m : StdMap κ ν) {ks : List κ}
    (hks : ks.Nodup) {k : κ} (hk : k ∈ ks) (d c : ν) :
    (ks.map fun j => (m.modify k d (· + c)).getD j d).sum =
      (ks.map fun j => m.getD j d).sum + c := by
  induction ks with
  | nil => exact absurd hk List.not_mem_nil
  | cons a ks ih =>
    obtain ⟨ha, hnd⟩ := List.nodup_cons.mp hks
    simp only [List.map_cons, List.sum_cons]
    by_cases hak : a = k
    · subst hak
      have hrest : (ks.map fun j => (m.modify a d (· + c)).getD j d) =
          ks.map fun j => m.getD j d := by
        apply List.map_congr_left
        intro j hj
        exact getD_modify_ne d _ fun hja => ha (hja ▸ hj)
      rw [hrest, getD_modify, add_assoc, add_comm c, ← add_assoc]
    · have hmem : k ∈ ks := by
        rcases List.mem_cons.mp hk with heq | hmem
        · exact absurd heq.symm hak
        · exact hmem
      rw [getD_modify_ne d _ hak, ih hnd hmem, add_assoc]

theorem mem_modify {m : StdMap κ ν} {k k' : κ} {d : ν} {f : ν → ν} :
    k' ∈ m.modify k d f ↔ k' = k ∨ k' ∈ m := AList.mem_insert m

/-- Changing an entry that exists creates no key. -/
theorem mem_modify_of_mem {m : StdMap κ ν} {k k' : κ} {d : ν} {f : ν → ν} (h : k ∈ m) :
    k' ∈ m.modify k d f ↔ k' ∈ m := by
  rw [mem_modify]
  constructor
  · rintro (rfl | hk)
    · exact h
    · exact hk
  · exact Or.inr

theorem mem_assign {m : StdMap κ ν} {ks : List κ} {v : ν} {k : κ} :
    k ∈ m.assign ks v ↔ k ∈ ks ∨ k ∈ m := by
  induction ks generalizing m with
  | nil => simp [assign]
  | cons a ks ih =>
    have hcons : m.assign (a :: ks) v = assign (m.insert a v) ks v := rfl
    rw [hcons, ih, AList.mem_insert, List.mem_cons]
    tauto

theorem lookup_assign (m : StdMap κ ν) (ks : List κ) (v : ν) (k : κ) :
    (m.assign ks v).lookup k = if k ∈ ks then some v else m.lookup k := by
  induction ks generalizing m with
  | nil => simp [assign]
  | cons a ks ih =>
    have hcons : m.assign (a :: ks) v = assign (m.insert a v) ks v := rfl
    rw [hcons, ih]
    by_cases hk : k = a
    · subst k
      simp
    · simp [hk, AList.lookup_insert_ne hk]

theorem lookup_insertNew (m : StdMap κ ν) (k : κ) (v : ν) (k' : κ) :
    (m.insertNew k v).lookup k' = (m.lookup k').or (if k' = k then some v else none) := by
  unfold insertNew
  by_cases hk : k' = k
  · subst hk
    cases hlookup : m.lookup k' <;> simp [hlookup]
  · cases hlookup : m.lookup k <;> simp [hk, AList.lookup_insert_ne hk]

/-- Insert entries one after the other. -/
def insertAll (m : StdMap κ ν) (entries : List (κ × ν)) : StdMap κ ν :=
  entries.foldl (fun m e => insertNew m e.1 e.2) m

/-- Of entries with the same key the first one stays. -/
theorem lookup_insertAll (m : StdMap κ ν) (entries : List (κ × ν)) (k : κ) :
    (m.insertAll entries).lookup k =
      (m.lookup k).or ((entries.find? fun e => k = e.1).map Prod.snd) := by
  induction entries generalizing m with
  | nil => simp [insertAll]
  | cons e entries ih =>
    have hcons : m.insertAll (e :: entries) = insertAll (m.insertNew e.1 e.2) entries := rfl
    rw [hcons, ih, lookup_insertNew, Option.or_assoc, List.find?_cons]
    by_cases hk : k = e.1 <;> simp [hk]

/-- Where no key comes twice, each entry is found. -/
theorem lookup_of_mem {entries : List (κ × ν)} (hnodup : (entries.map Prod.fst).Nodup)
    {e : κ × ν} (he : e ∈ entries) : (insertAll ∅ entries).lookup e.1 = some e.2 := by
  have hfind : entries.find? (fun e' => e.1 = e'.1) = some e := by
    obtain ⟨before, after, rfl⟩ := List.append_of_mem he
    rw [List.map_append, List.nodup_append] at hnodup
    rw [List.find?_append, List.find?_eq_none.mpr, Option.none_or, List.find?_cons]
    · simp
    · intro e' he' heq
      have hkey : e.1 = e'.1 := of_decide_eq_true heq
      exact hnodup.2.2 e'.1 (List.mem_map_of_mem he') e.1 (by simp) hkey.symm
  rw [lookup_insertAll, hfind]
  rfl

end StdMap
