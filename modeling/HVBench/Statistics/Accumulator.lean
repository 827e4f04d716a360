import HVBench.Globals
import Mathlib.Algebra.Ring.Int.Defs
import Mathlib.Data.List.Induction

/-! `boost_acc_mean_min_max`: an accumulator set over `uint32_t` samples. -/
namespace HVBench

/-- Conversion to `uint32_t`. -/
def uint32 (x : ℤ) : ℤ := x % UInt32.size

/-- The values the features `count`, `mean`, `min` and `max` keep. `mean` is computed
from the sum, which has the sample type. -/
structure AccMeanMinMax where
  count : ℕ
  sum : ℤ
  min : ℤ
  max : ℤ
  deriving DecidableEq, Repr

namespace AccMeanMinMax

/-- A set that has seen no sample. -/
def empty : AccMeanMinMax where
  count := 0
  sum := 0
  min := UInt32.size - 1
  max := 0

/-- `operator()` with one sample. Comparisons are made before the conversion. -/
def push (a : AccMeanMinMax) (v : ℤ) : AccMeanMinMax where
  count := a.count + 1
  sum := uint32 (a.sum + v)
  min := if v < a.min then uint32 v else a.min
  max := if a.max < v then uint32 v else a.max

/-- `mean`, as the collector truncates it. -/
def mean (a : AccMeanMinMax) : ℤ := a.sum / a.count

/-- The set after a sequence of samples. -/
def ofSamples (vs : List ℤ) : AccMeanMinMax := vs.foldl push empty

@[simp] theorem ofSamples_nil : ofSamples [] = empty := rfl

theorem ofSamples_snoc (vs : List ℤ) (v : ℤ) :
    ofSamples (vs ++ [v]) = (ofSamples vs).push v := by
  simp [ofSamples]

@[simp] theorem count_push (a : AccMeanMinMax) (v : ℤ) : (a.push v).count = a.count + 1 := rfl

theorem count_ofSamples (vs : List ℤ) : (ofSamples vs).count = vs.length := by
  induction vs using List.reverseRecOn with
  | nil => rfl
  | append_singleton vs v ih => simp [ofSamples_snoc, ih]

/-- The sum is the sum of the samples up to overflow. -/
theorem sum_ofSamples (vs : List ℤ) : (ofSamples vs).sum = uint32 vs.sum := by
  induction vs using List.reverseRecOn with
  | nil => rfl
  | append_singleton vs v ih =>
    rw [ofSamples_snoc, List.sum_append, List.sum_singleton, push, ih]
    exact Int.emod_add_emod _ _ _

/-- A sample that the accumulators' sample type can hold. -/
def InRange (v : ℤ) : Prop := 0 ≤ v ∧ v < UInt32.size

theorem uint32_of_inRange {v : ℤ} (h : InRange v) : uint32 v = v :=
  Int.emod_eq_of_lt h.1 h.2

theorem min_push (a : AccMeanMinMax) {v : ℤ} (h : InRange v) :
    (a.push v).min = Min.min a.min v := by
  rw [push, uint32_of_inRange h]
  dsimp only
  split_ifs <;> omega

theorem max_push (a : AccMeanMinMax) {v : ℤ} (h : InRange v) :
    (a.push v).max = Max.max a.max v := by
  rw [push, uint32_of_inRange h]
  dsimp only
  split_ifs <;> omega

theorem min_ofSamples {vs : List ℤ} (h : ∀ v ∈ vs, InRange v) :
    (ofSamples vs).min = vs.foldl Min.min empty.min := by
  induction vs using List.reverseRecOn with
  | nil => rfl
  | append_singleton vs v ih =>
    have hv : InRange v := h v (by simp)
    rw [ofSamples_snoc, min_push _ hv, ih fun w hw => h w (by simp [hw]), List.foldl_append]
    rfl

theorem max_ofSamples {vs : List ℤ} (h : ∀ v ∈ vs, InRange v) :
    (ofSamples vs).max = vs.foldl Max.max empty.max := by
  induction vs using List.reverseRecOn with
  | nil => rfl
  | append_singleton vs v ih =>
    have hv : InRange v := h v (by simp)
    rw [ofSamples_snoc, max_push _ hv, ih fun w hw => h w (by simp [hw]), List.foldl_append]
    rfl

/-- The minimum is the least sample: the initial value is the largest there can be. -/
theorem min?_eq_ofSamples {vs : List ℤ} (hne : vs ≠ []) (h : ∀ v ∈ vs, InRange v) :
    vs.min? = some (ofSamples vs).min := by
  obtain ⟨m, hm⟩ := Option.isSome_iff_exists.mp (List.isSome_min?_of_ne_nil hne)
  have hle : m ≤ empty.min := Int.le_sub_one_of_lt (h m (List.min?_mem hm)).2
  rw [min_ofSamples h, List.foldl_min, hm, Option.getD_some, Int.min_eq_right hle]

/-- The maximum is the greatest sample. -/
theorem max?_eq_ofSamples {vs : List ℤ} (hne : vs ≠ []) (h : ∀ v ∈ vs, InRange v) :
    vs.max? = some (ofSamples vs).max := by
  obtain ⟨m, hm⟩ := Option.isSome_iff_exists.mp (List.isSome_max?_of_ne_nil hne)
  have hle : empty.max ≤ m := (h m (List.max?_mem hm)).1
  rw [max_ofSamples h, List.foldl_max, hm, Option.getD_some, Int.max_eq_right hle]

/-- `a` keeps the samples `vs`: their number, their sum up to overflow, and the least and
the greatest of them where the sample type can hold them all. -/
structure Keeps (a : AccMeanMinMax) (vs : List ℤ) : Prop where
  count : a.count = vs.length
  sum : a.sum = vs.sum % UInt32.size
  min : vs ≠ [] → (∀ v ∈ vs, InRange v) → vs.min? = some a.min
  max : vs ≠ [] → (∀ v ∈ vs, InRange v) → vs.max? = some a.max

theorem keeps_ofSamples (vs : List ℤ) : (ofSamples vs).Keeps vs where
  count := count_ofSamples vs
  sum := sum_ofSamples vs
  min := min?_eq_ofSamples
  max := max?_eq_ofSamples

/-- `b` is `a` with the sample `v` added. -/
structure Adds (a b : AccMeanMinMax) (v : ℤ) : Prop where
  count : b.count = a.count + 1
  sum : b.sum = (a.sum + v) % UInt32.size
  min : InRange v → b.min = Min.min a.min v
  max : InRange v → b.max = Max.max a.max v

theorem adds_push (a : AccMeanMinMax) (v : ℤ) : Adds a (a.push v) v where
  count := count_push a v
  sum := rfl
  min := min_push a
  max := max_push a

theorem not_adds_self (a : AccMeanMinMax) (v : ℤ) : ¬ Adds a a v := by
  intro h
  have hcount := h.count
  omega

end AccMeanMinMax
end HVBench
