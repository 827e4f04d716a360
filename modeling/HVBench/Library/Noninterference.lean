import Mathlib.Data.List.Induction
import Mathlib.Tactic.Common

/-! Noninterference of a deterministic machine by purging. An observer who may see some of
the inputs observes the same with and without the others. -/
namespace Noninterference
variable {σ α ο : Type*} (step : σ → α → σ) (obs : σ → ο) (visible : α → Prop)
  [DecidablePred visible]

/-- The state after a sequence of inputs. -/
def run (s : σ) (as : List α) : σ := as.foldl step s

def purge (as : List α) : List α := as.filter visible

/-- At every point of the run, what is observed depends only on the visible inputs. -/
def Purgeable (s : σ) (as : List α) : Prop :=
  ∀ before after, as = before ++ after →
    obs (run step s before) = obs (run step s (purge visible before))

/-- No invisible input of the run changes what is observed. -/
def Quiet (s : σ) (as : List α) : Prop :=
  ∀ before a after, as = before ++ a :: after → ¬ visible a →
    obs (step (run step s before) a) = obs (run step s before)

variable {step obs visible}

@[simp] theorem run_nil (s : σ) : run step s [] = s := rfl

@[simp] theorem run_snoc (s : σ) (as : List α) (a : α) :
    run step s (as ++ [a]) = step (run step s as) a := by
  simp [run]

theorem purge_snoc_of_visible {as : List α} {a : α} (h : visible a) :
    purge visible (as ++ [a]) = purge visible as ++ [a] := by
  simp [purge, h]

theorem purge_snoc_of_not_visible {as : List α} {a : α} (h : ¬ visible a) :
    purge visible (as ++ [a]) = purge visible as := by
  simp [purge, h]

theorem run_invariant {I : σ → Prop} (hstep : ∀ s a, I s → I (step s a)) {s : σ} (hs : I s)
    (as : List α) : I (run step s as) := by
  induction as generalizing s with
  | nil => exact hs
  | cons a as ih => exact ih (hstep s a hs)

/-- The unwinding rule. `I` holds what the effect of a visible input depends on besides
the observation. -/
theorem purgeable_iff_quiet {I : σ → Prop} (hstep : ∀ s a, I s → I (step s a))
    (hvisible : ∀ s t a, I s → I t → visible a → obs s = obs t →
      obs (step s a) = obs (step t a)) {s : σ} (hs : I s) (as : List α) :
    Purgeable step obs visible s as ↔ Quiet step obs visible s as := by
  constructor
  · intro h before a after has ha
    have hbefore := h before (a :: after) has
    have hsnoc := h (before ++ [a]) after (by simp [has])
    rw [run_snoc, purge_snoc_of_not_visible ha] at hsnoc
    exact hsnoc.trans hbefore.symm
  · intro h before
    induction before using List.reverseRecOn with
    | nil => exact fun _ _ => rfl
    | append_singleton before a ih =>
      intro after has
      have has' : as = before ++ a :: after := by simpa using has
      have hbefore := ih (a :: after) has'
      rw [run_snoc]
      by_cases ha : visible a
      · rw [purge_snoc_of_visible ha, run_snoc]
        exact hvisible _ _ a (run_invariant hstep hs before)
          (run_invariant hstep hs (purge visible before)) ha hbefore
      · rw [purge_snoc_of_not_visible ha]
        exact (h before a after has' ha).trans hbefore

/-- Two runs with the same visible inputs are observed alike. -/
theorem Purgeable.obs_eq {s : σ} {as bs : List α} (has : Purgeable step obs visible s as)
    (hbs : Purgeable step obs visible s bs) (h : purge visible as = purge visible bs) :
    obs (run step s as) = obs (run step s bs) := by
  have hleft := has as [] (by simp)
  have hright := hbs bs [] (by simp)
  rw [hleft, hright, h]

end Noninterference
