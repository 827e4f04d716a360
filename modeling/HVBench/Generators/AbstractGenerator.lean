import HVBench.Library.Merge
import HVBench.Library.StdMap
import HVBench.Of.Messages
import Mathlib.Data.Int.Order.Basic

/-! Trees of generators. A container hands out the messages of its generators in the order
of their times. The generators are objects: the tree says which there are, and the state
holds what is in them. -/
namespace HVBench

/-- `AbstractGenerator::count`. -/
def AbstractGenerator.count (counters : StdMap OFPT UInt32) (msg : ScheduledMsg) :
    StdMap OFPT UInt32 := counters.modify msg.ofMsg.type 0 (· + 1)

/-- What a generator that is not a container does. `none` is a failed assertion. -/
structure LeafOps (σ : Type*) where
  peek : σ → TimePoint × σ
  next : σ → Option (ScheduledMsg × σ)

/-- A tree of `GeneratorContainer` objects over other generators. -/
inductive Generator (ι : Type*)
  | leaf (i : ι)
  | container (i : ι) (gens : List (Generator ι))

namespace Generator
variable {ι σ : Type*}

/-- The leaves of the tree and the `_counters` of the containers. -/
structure State (ι σ : Type*) where
  leaf : ι → σ
  counters : ι → StdMap OFPT UInt32

variable [DecidableEq ι] (ops : LeafOps σ)

def State.setLeaf (s : State ι σ) (i : ι) (l : σ) : State ι σ :=
  { s with leaf := Function.update s.leaf i l }

def State.count (s : State ι σ) (i : ι) (msg : ScheduledMsg) : State ι σ :=
  { s with
    counters := Function.update s.counters i (AbstractGenerator.count (s.counters i) msg) }

mutual

def peek : Generator ι → State ι σ → Option (TimePoint × State ι σ)
  | .leaf i, s => some ((ops.peek (s.leaf i)).1, s.setLeaf i (ops.peek (s.leaf i)).2)
  | .container _ gens, s =>
    (peekFront gens s).bind fun (min, s) => peekLoop gens min s

/-- `front()->peek()`, where the container is not empty. -/
def peekFront : List (Generator ι) → State ι σ → Option (TimePoint × State ι σ)
  | [], _ => none
  | front :: _, s => peek front s

/-- The loop of `peek`, which peeks twice at a generator that has an earlier time. -/
def peekLoop : List (Generator ι) → TimePoint → State ι σ → Option (TimePoint × State ι σ)
  | [], min, s => some (min, s)
  | iter :: gens, min, s =>
    (peek iter s).bind fun (t, s) =>
      if t < min then (peek iter s).bind fun (t, s) => peekLoop gens t s
      else peekLoop gens min s

end

/-- The loop of `next`, at index `k` of `gens`. `min` is the index of the generator chosen
so far. -/
def minLoop (gens : List (Generator ι)) :
    List (Generator ι) → ℕ → ℕ → State ι σ → Option (ℕ × State ι σ)
  | [], _, min, s => some (min, s)
  | iter :: rest, k, min, s =>
    (peek ops iter s).bind fun (t, s) =>
      (gens[min]?).bind fun g =>
        (peek ops g s).bind fun (m, s) => minLoop gens rest (k + 1) (if t < m then k else min) s

mutual

def next : Generator ι → State ι σ → Option (ScheduledMsg × State ι σ)
  | .leaf i, s => (ops.next (s.leaf i)).map fun (msg, l) => (msg, s.setLeaf i l)
  | .container i gens, s =>
    (minLoop ops gens gens 0 0 s).bind fun (min, s) =>
      (nextAt gens min s).map fun (msg, s) => (msg, s.count i msg)

/-- `next` of the generator at an index. -/
def nextAt : List (Generator ι) → ℕ → State ι σ → Option (ScheduledMsg × State ι σ)
  | [], _, _ => none
  | g :: _, 0, s => next g s
  | _ :: gens, k + 1, s => nextAt gens k s

end

/-- `n` calls of `next`. -/
def run (g : Generator ι) : ℕ → State ι σ → Option (List ScheduledMsg × State ι σ)
  | 0, s => some ([], s)
  | n + 1, s =>
    (next ops g s).bind fun (msg, s) => (run g n s).map fun (msgs, s) => (msg :: msgs, s)

mutual

def leaves : Generator ι → List ι
  | .leaf i => [i]
  | .container _ gens => leavesOf gens

def leavesOf : List (Generator ι) → List ι
  | [] => []
  | g :: gens => leaves g ++ leavesOf gens

end

/-- No container of the tree is empty. -/
inductive NonEmpty : Generator ι → Prop
  | leaf (i : ι) : NonEmpty (.leaf i)
  | container (i : ι) {gens : List (Generator ι)} (hne : gens ≠ [])
      (hall : ∀ g ∈ gens, NonEmpty g) : NonEmpty (.container i gens)

end Generator

namespace LeafOps
variable {σ : Type*} (ops : LeafOps σ)

/-- The message sequence of a leaf on its own. -/
def run : ℕ → σ → Option (List ScheduledMsg × σ)
  | 0, l => some ([], l)
  | n + 1, l =>
    (ops.next l).bind fun (msg, l) => (run n l).map fun (msgs, l) => (msg :: msgs, l)

/-- What is asked of a leaf, with `I` for its states: `peek` has no effect and gives the
time of the next message, and the times do not decrease. -/
structure WellBehaved (I : σ → Prop) : Prop where
  peek : ∀ l, I l → (ops.peek l).2 = l
  next : ∀ l, I l → ∃ msg l', ops.next l = some (msg, l') ∧ I l' ∧
    msg.timeNs = (ops.peek l).1 ∧ msg.timeNs ≤ (ops.peek l').1

end LeafOps

namespace Generator
variable {ι σ : Type*} [DecidableEq ι] {ops : LeafOps σ} {I : σ → Prop} {s : State ι σ}

omit [DecidableEq ι] in
/-- Induction over a tree, where all generators of a container are smaller. -/
@[elab_as_elim, induction_eliminator]
theorem induct {P : Generator ι → Prop} (leaf : ∀ i, P (.leaf i))
    (container : ∀ i gens, (∀ g ∈ gens, P g) → P (.container i gens)) (g : Generator ι) : P g := by
  apply @Generator.rec ι P (fun gens => ∀ g ∈ gens, P g) leaf container
  · exact fun g hg => absurd hg List.not_mem_nil
  · intro g gens hg hgens h hmem
    rcases List.mem_cons.mp hmem with rfl | hmem
    · exact hg
    · exact hgens h hmem

omit [DecidableEq ι] in
theorem leavesOf_eq (gens : List (Generator ι)) : leavesOf gens = gens.flatMap leaves := by
  induction gens with
  | nil => rfl
  | cons g gens ih => rw [leavesOf, ih, List.flatMap_cons]

omit [DecidableEq ι] in
theorem leaves_subset {i : ι} {gens : List (Generator ι)} {g : Generator ι} (hg : g ∈ gens) :
    g.leaves ⊆ (container i gens).leaves := by
  intro j hj
  rw [leaves, leavesOf_eq]
  exact List.mem_flatMap.mpr ⟨g, hg, hj⟩

@[simp] theorem setLeaf_self (s : State ι σ) (i : ι) : s.setLeaf i (s.leaf i) = s := by
  unfold State.setLeaf
  rw [Function.update_eq_self]

/-- The time of the next message of a leaf. -/
def State.time (ops : LeafOps σ) (s : State ι σ) (i : ι) : TimePoint := (ops.peek (s.leaf i)).1

/-- `peek` has no effect and gives the earliest time of the leaves. -/
structure Peeks (ops : LeafOps σ) (s : State ι σ) (g : Generator ι) (t : TimePoint) : Prop where
  eq : peek ops g s = some (t, s)
  le : ∀ i ∈ g.leaves, t ≤ s.time ops i
  mem : ∃ i ∈ g.leaves, t = s.time ops i

theorem peekLoop_eq {gens : List (Generator ι)} (h : ∀ g ∈ gens, ∃ t, Peeks ops s g t)
    (min : TimePoint) : ∃ t, peekLoop ops gens min s = some (t, s) ∧ t ≤ min ∧
      (∀ g ∈ gens, ∀ i ∈ g.leaves, t ≤ s.time ops i) ∧
      (t = min ∨ ∃ g ∈ gens, ∃ i ∈ g.leaves, t = s.time ops i) := by
  induction gens generalizing min with
  | nil => exact ⟨min, rfl, le_refl _, by simp, .inl rfl⟩
  | cons iter gens ih =>
    obtain ⟨t, hpeek, hle, i, hi, ht⟩ := h iter (by simp)
    have hrest : ∀ g ∈ gens, ∃ t, Peeks ops s g t := fun g hg => h g (by simp [hg])
    by_cases hlt : t < min
    · obtain ⟨u, hu, hut, hul, hum⟩ := ih hrest t
      refine ⟨u, ?_, le_trans hut (le_of_lt hlt), ?_, .inr ?_⟩
      · rw [peekLoop, hpeek, Option.bind_some]
        dsimp only
        rw [if_pos hlt, hpeek]
        exact hu
      · intro g hg j hj
        rcases List.mem_cons.mp hg with rfl | hg
        · exact le_trans hut (hle j hj)
        · exact hul g hg j hj
      · rcases hum with rfl | ⟨g, hg, j, hj, hju⟩
        · exact ⟨iter, by simp, i, hi, ht⟩
        · exact ⟨g, by simp [hg], j, hj, hju⟩
    · obtain ⟨u, hu, hut, hul, hum⟩ := ih hrest min
      refine ⟨u, ?_, hut, ?_, ?_⟩
      · rw [peekLoop, hpeek, Option.bind_some]
        dsimp only
        rw [if_neg hlt]
        exact hu
      · intro g hg j hj
        rcases List.mem_cons.mp hg with rfl | hg
        · exact le_trans hut (le_trans (not_lt.mp hlt) (hle j hj))
        · exact hul g hg j hj
      · rcases hum with rfl | ⟨g, hg, j, hj, hju⟩
        · exact .inl rfl
        · exact .inr ⟨g, by simp [hg], j, hj, hju⟩

theorem peek_eq {g : Generator ι} (hI : ∀ l, I l → (ops.peek l).2 = l) (hne : NonEmpty g)
    (hs : ∀ i ∈ g.leaves, I (s.leaf i)) : ∃ t, Peeks ops s g t := by
  induction g with
  | leaf i =>
    have hpeek := hI (s.leaf i) (hs i (by simp [leaves]))
    refine ⟨s.time ops i, ?_, by simp [leaves], i, by simp [leaves], rfl⟩
    rw [peek, hpeek, setLeaf_self]
    rfl
  | container i gens ih =>
    cases hne with
    | container _ hgens hall =>
      have hpeeks : ∀ g ∈ gens, ∃ t, Peeks ops s g t := by
        intro g hg
        exact ih g hg (hall g hg) fun j hj => hs j (leaves_subset hg hj)
      cases gens with
      | nil => exact absurd rfl hgens
      | cons front gens =>
        obtain ⟨min, hfront, -, j, hj, hmin⟩ := hpeeks front (by simp)
        obtain ⟨t, ht, -, hle, hmem⟩ := peekLoop_eq hpeeks min
        refine ⟨t, ?_, ?_, ?_⟩
        · rw [peek, peekFront, hfront]
          exact ht
        · intro j hj
          rw [leaves, leavesOf_eq] at hj
          obtain ⟨g, hg, hjg⟩ := List.mem_flatMap.mp hj
          exact hle g hg j hjg
        · rcases hmem with rfl | ⟨g, hg, k, hk, hkt⟩
          · exact ⟨j, leaves_subset (by simp) hj, hmin⟩
          · exact ⟨k, leaves_subset hg hk, hkt⟩

theorem nextAt_eq (before : List (Generator ι)) (g : Generator ι) (after : List (Generator ι))
    (s : State ι σ) : nextAt ops (before ++ g :: after) before.length s = next ops g s := by
  induction before with
  | nil => rfl
  | cons a before ih => exact ih

/-- The time `peek` gives, for the choice of a generator. -/
def peekTime (ops : LeafOps σ) (s : State ι σ) (g : Generator ι) : TimePoint :=
  ((peek ops g s).map Prod.fst).getD 0

theorem Peeks.peekTime_eq {g : Generator ι} {t : TimePoint} (h : Peeks ops s g t) :
    peekTime ops s g = t := by
  unfold peekTime
  rw [h.eq]
  rfl

theorem peek_of_peeks {g : Generator ι} (h : ∃ t, Peeks ops s g t) :
    peek ops g s = some (peekTime ops s g, s) := by
  obtain ⟨t, ht⟩ := h
  rw [ht.peekTime_eq]
  exact ht.eq

theorem minLoop_cons {gens rest : List (Generator ι)} {iter g : Generator ι} {k min : ℕ}
    (hiter : ∃ t, Peeks ops s iter t) (hget : gens[min]? = some g) (hmin : ∃ t, Peeks ops s g t) :
    minLoop ops gens (iter :: rest) k min s =
      minLoop ops gens rest (k + 1)
        (if peekTime ops s iter < peekTime ops s g then k else min) s := by
  rw [minLoop, peek_of_peeks hiter, Option.bind_some]
  dsimp only
  rw [hget, Option.bind_some, peek_of_peeks hmin]
  rfl

/-- The loop goes on from the first least of the generators it has compared. -/
theorem minLoop_eq {gens : List (Generator ι)} (h : ∀ g ∈ gens, ∃ t, Peeks ops s g t)
    (rest before : List (Generator ι)) (g : Generator ι) (after : List (Generator ι))
    (hgens : gens = (before ++ g :: after) ++ rest)
    (hbefore : ∀ b ∈ before, peekTime ops s g < peekTime ops s b)
    (hafter : ∀ b ∈ after, peekTime ops s g ≤ peekTime ops s b) :
    ∃ before' g' after', gens = before' ++ g' :: after' ∧
      (∀ b ∈ before', peekTime ops s g' < peekTime ops s b) ∧
      (∀ b ∈ after', peekTime ops s g' ≤ peekTime ops s b) ∧
      minLoop ops gens rest (before ++ g :: after).length before.length s =
        some (before'.length, s) := by
  induction rest generalizing before g after with
  | nil => exact ⟨before, g, after, by rw [hgens, List.append_nil], hbefore, hafter, rfl⟩
  | cons iter rest ih =>
    have hget : gens[before.length]? = some g := by
      rw [hgens]
      simp
    rw [minLoop_cons (h iter (by rw [hgens]; simp)) hget (h g (by rw [hgens]; simp))]
    by_cases hlt : peekTime ops s iter < peekTime ops s g
    · have hall : ∀ b ∈ before ++ g :: after, peekTime ops s iter < peekTime ops s b := by
        intro b hb
        rcases List.mem_append.mp hb with hb | hb
        · exact lt_trans hlt (hbefore b hb)
        · rcases List.mem_cons.mp hb with rfl | hb
          · exact hlt
          · exact lt_of_lt_of_le hlt (hafter b hb)
      rw [if_pos hlt]
      have hnext := ih (before ++ g :: after) iter [] (by rw [hgens]; simp) hall (by simp)
      rw [List.length_append, List.length_singleton] at hnext
      exact hnext
    · have hall : ∀ b ∈ after ++ [iter], peekTime ops s g ≤ peekTime ops s b := by
        intro b hb
        rcases List.mem_append.mp hb with hb | hb
        · exact hafter b hb
        · rw [List.mem_singleton.mp hb]
          exact not_lt.mp hlt
      rw [if_neg hlt]
      have hnext := ih before g (after ++ [iter]) (by rw [hgens]; simp) hbefore hall
      have hlen : (before ++ g :: (after ++ [iter])).length =
          (before ++ g :: after).length + 1 := by
        simp only [List.length_append, List.length_cons, List.length_nil]
        omega
      rw [hlen] at hnext
      exact hnext

/-- A container calls `next` of its first generator with the earliest time. -/
theorem next_container {i : ι} {gens : List (Generator ι)} (hne : gens ≠ [])
    (hpeeks : ∀ g ∈ gens, ∃ t, Peeks ops s g t) :
    ∃ g, Merge.FirstLeast (peekTime ops s) gens g ∧
      next ops (.container i gens) s =
        (next ops g s).map fun r => (r.1, r.2.count i r.1) := by
  cases gens with
  | nil => exact absurd rfl hne
  | cons front rest =>
    have hfront := hpeeks front (by simp)
    obtain ⟨before, g, after, hsplit, hbefore, hafter, hloop⟩ :=
      minLoop_eq hpeeks rest [] front [] rfl (by simp) (by simp)
    have hmin : minLoop ops (front :: rest) (front :: rest) 0 0 s =
        some (before.length, s) := by
      rw [minLoop_cons hfront List.getElem?_cons_zero hfront, if_neg (lt_irrefl _)]
      exact hloop
    refine ⟨g, ⟨before, after, hsplit, hbefore, hafter⟩, ?_⟩
    rw [next, hmin, Option.bind_some]
    dsimp only
    rw [hsplit, nextAt_eq]

/-- `next` is the `next` of the first leaf with the earliest time. -/
theorem next_eq {g : Generator ι} (hI : ∀ l, I l → (ops.peek l).2 = l) (hne : NonEmpty g)
    (hs : ∀ i ∈ g.leaves, I (s.leaf i)) :
    ∃ (i : ι) (counters : ScheduledMsg → ι → StdMap OFPT UInt32),
      Merge.FirstLeast (s.time ops) g.leaves i ∧ next ops g s = (ops.next (s.leaf i)).map fun r =>
        (r.1, ⟨Function.update s.leaf i r.2, counters r.1⟩) := by
  induction g with
  | leaf i => exact ⟨i, fun _ => s.counters, Merge.firstLeast_singleton _ i, rfl⟩
  | container i gens ih =>
    cases hne with
    | container _ hgens hall =>
      have hleaf : ∀ g ∈ gens, ∀ j ∈ g.leaves, I (s.leaf j) := by
        intro g hg j hj
        exact hs j (leaves_subset hg hj)
      have hpeeks : ∀ g ∈ gens, ∃ t, Peeks ops s g t := by
        intro g hg
        exact peek_eq hI (hall g hg) (hleaf g hg)
      obtain ⟨g, hleast, hcontainer⟩ := next_container (i := i) hgens hpeeks
      have hg := hleast.mem
      obtain ⟨j, counters, hfirst, hnext⟩ := ih g hg (hall g hg) (hleaf g hg)
      refine ⟨j, fun msg => ((⟨s.leaf, counters msg⟩ : State ι σ).count i msg).counters, ?_, ?_⟩
      · rw [leaves, leavesOf_eq]
        apply Merge.FirstLeast.flatMap hleast hfirst
        · obtain ⟨u, hu⟩ := hpeeks g hg
          obtain ⟨k, hk, huk⟩ := hu.mem
          rw [hu.peekTime_eq]
          apply le_antisymm (hu.le j hfirst.mem)
          rw [huk]
          exact hfirst.le hk
        · intro h hh k hk
          obtain ⟨u, hu⟩ := hpeeks h hh
          rw [hu.peekTime_eq]
          exact hu.le k hk
      · rw [hcontainer, hnext, Option.map_map]
        rfl

theorem nonEmpty_of_peekLoop {gens : List (Generator ι)} {min : TimePoint}
    {r : TimePoint × State ι σ}
    (hpeek : ∀ g ∈ gens, ∀ u v, peek ops g u = some v → NonEmpty g)
    (h : peekLoop ops gens min s = some r) : ∀ g ∈ gens, NonEmpty g := by
  induction gens generalizing min s with
  | nil => simp
  | cons iter gens ih =>
    rw [peekLoop] at h
    obtain ⟨v, hv, hgo⟩ := Option.bind_eq_some_iff.mp h
    have hpeek' : ∀ g ∈ gens, ∀ u v, peek ops g u = some v → NonEmpty g :=
      fun g hg => hpeek g (by simp [hg])
    have hother : ∀ g ∈ gens, NonEmpty g := by
      dsimp only at hgo
      split_ifs at hgo
      · obtain ⟨w, -, hw⟩ := Option.bind_eq_some_iff.mp hgo
        exact ih hpeek' hw
      · exact ih hpeek' hgo
    intro g hg
    rcases List.mem_cons.mp hg with rfl | hg
    · exact hpeek g (by simp) _ _ hv
    · exact hother g hg

theorem nonEmpty_of_peek {g : Generator ι} {r : TimePoint × State ι σ}
    (h : peek ops g s = some r) : NonEmpty g := by
  induction g generalizing s r with
  | leaf i => exact .leaf i
  | container i gens ih =>
    rw [peek] at h
    obtain ⟨front, hfront, hloop⟩ := Option.bind_eq_some_iff.mp h
    have hne : gens ≠ [] := by
      rintro rfl
      cases hfront
    exact .container i hne (nonEmpty_of_peekLoop (fun g hg u v hv => ih g hg hv) hloop)

theorem nonEmpty_of_minLoop {gens rest : List (Generator ι)} {k min : ℕ} {r : ℕ × State ι σ}
    (h : minLoop ops gens rest k min s = some r) : ∀ g ∈ rest, NonEmpty g := by
  induction rest generalizing k min s with
  | nil => simp
  | cons iter rest ih =>
    rw [minLoop] at h
    obtain ⟨u, hu, hrest⟩ := Option.bind_eq_some_iff.mp h
    obtain ⟨g, -, hrest⟩ := Option.bind_eq_some_iff.mp hrest
    obtain ⟨v, -, hrest⟩ := Option.bind_eq_some_iff.mp hrest
    intro g hg
    rcases List.mem_cons.mp hg with rfl | hg
    · exact nonEmpty_of_peek hu
    · exact ih hrest g hg

/-- An empty container fails an assertion, in `peek` or in `next`. -/
theorem nonEmpty_of_next {g : Generator ι} {r : ScheduledMsg × State ι σ}
    (h : next ops g s = some r) : NonEmpty g := by
  cases g with
  | leaf i => exact .leaf i
  | container i gens =>
    rw [next] at h
    obtain ⟨⟨min, u⟩, hmin, hnext⟩ := Option.bind_eq_some_iff.mp h
    have hne : gens ≠ [] := by
      rintro rfl
      cases hnext
    exact .container i hne (nonEmpty_of_minLoop hmin)

/-- A call of `next` returns what `peek` announced, and leaves nothing earlier behind. -/
theorem next_step {g : Generator ι} (hI : ops.WellBehaved I) (hne : NonEmpty g)
    (hs : ∀ i ∈ g.leaves, I (s.leaf i)) :
    ∃ i msg l t, i ∈ g.leaves ∧ ops.next (s.leaf i) = some (msg, l) ∧
      next ops g s = some (msg, t) ∧ t.leaf = Function.update s.leaf i l ∧
      peek ops g s = some (msg.timeNs, s) ∧ (∀ j ∈ g.leaves, I (t.leaf j)) ∧
      ∀ j ∈ g.leaves, msg.timeNs ≤ t.time ops j := by
  obtain ⟨i, counters, hfirst, hselect⟩ := next_eq hI.peek hne hs
  obtain ⟨u, hu⟩ := peek_eq hI.peek hne hs
  obtain ⟨msg, l, hnext, hl, htime, hafter⟩ := hI.next (s.leaf i) (hs i hfirst.mem)
  rw [hnext, Option.map_some] at hselect
  have hmsg : msg.timeNs = u := by
    rw [htime]
    obtain ⟨k, hk, huk⟩ := hu.mem
    apply le_antisymm
    · rw [huk]
      exact hfirst.le hk
    · exact hu.le i hfirst.mem
  refine ⟨i, msg, l, _, hfirst.mem, hnext, hselect, rfl, ?_, ?_, ?_⟩
  · rw [hmsg]
    exact hu.eq
  · intro j hj
    dsimp only
    by_cases hji : j = i
    · subst hji
      rw [Function.update_self]
      exact hl
    · rw [Function.update_of_ne hji]
      exact hs j hj
  · intro j hj
    unfold State.time
    dsimp only
    by_cases hji : j = i
    · subst hji
      rw [Function.update_self]
      exact hafter
    · rw [Function.update_of_ne hji, hmsg]
      exact hu.le j hj

/-- What a run of `next` calls from `s` to `t` returns is a merge of what its leaves would
return on their own, in the order of the times. -/
structure KeepsSchedule (ops : LeafOps σ) (g : Generator ι) (s : State ι σ)
    (msgs : List ScheduledMsg) (t : State ι σ) : Prop where
  sorted : (msgs.map ScheduledMsg.timeNs).Pairwise (· ≤ ·)
  merge : ∃ parts : ι → List ScheduledMsg, Merge.IsMerge parts msgs ∧
    (∀ i, parts i ≠ [] → i ∈ g.leaves) ∧
    ∀ i, ops.run (parts i).length (s.leaf i) = some (parts i, t.leaf i)
  peek : ∃ msg u, next ops g t = some (msg, u) ∧ peek ops g t = some (msg.timeNs, t)

theorem keepsSchedule_from {g : Generator ι} (hI : ops.WellBehaved I) (hne : NonEmpty g) (n : ℕ)
    (s : State ι σ) (hs : ∀ i ∈ g.leaves, I (s.leaf i)) (earliest : TimePoint)
    (hearliest : ∀ i ∈ g.leaves, earliest ≤ s.time ops i) :
    ∃ msgs t, run ops g n s = some (msgs, t) ∧ msgs.length = n ∧
      (∀ msg ∈ msgs, earliest ≤ msg.timeNs) ∧ KeepsSchedule ops g s msgs t := by
  induction n generalizing s earliest with
  | zero =>
    obtain ⟨i, msg, l, t, -, -, ht, -, hpeek, -⟩ := next_step hI hne hs
    refine ⟨[], s, rfl, rfl, by simp, ⟨by simp, ?_, msg, t, ht, hpeek⟩⟩
    exact ⟨fun _ => [], Merge.isMerge_nil, fun i hi => absurd rfl hi, fun i => rfl⟩
  | succ n ih =>
    obtain ⟨i, msg, l, u, hi, hnext, hu, hleaves, hpeek, hkeep, hafter⟩ := next_step hI hne hs
    obtain ⟨msgs, t, hrun, hlen, hbound, hrest⟩ := ih u hkeep msg.timeNs hafter
    obtain ⟨parts, hmerge, hparts, hown⟩ := hrest.merge
    have hfirst : earliest ≤ msg.timeNs := by
      obtain ⟨v, hv⟩ := peek_eq hI.peek hne hs
      obtain ⟨k, hk, hvk⟩ := hv.mem
      have htime := (Prod.mk.inj (Option.some.inj (hpeek.symm.trans hv.eq))).1
      rw [htime, hvk]
      exact hearliest k hk
    refine ⟨msg :: msgs, t, ?_, by rw [List.length_cons, hlen], ?_, ?_, ?_, hrest.peek⟩
    · rw [run, hu, Option.bind_some]
      dsimp only
      rw [hrun]
      rfl
    · intro m hm
      rcases List.mem_cons.mp hm with rfl | hm
      · exact hfirst
      · exact le_trans hfirst (hbound m hm)
    · rw [List.map_cons, List.pairwise_cons]
      refine ⟨?_, hrest.sorted⟩
      intro time htime
      obtain ⟨m, hm, rfl⟩ := List.mem_map.mp htime
      exact hbound m hm
    · refine ⟨Function.update parts i (msg :: parts i), hmerge.cons i msg, ?_, ?_⟩
      · intro j hj
        by_cases hji : j = i
        · rw [hji]
          exact hi
        · rw [Function.update_of_ne hji] at hj
          exact hparts j hj
      · intro j
        have hj := hown j
        rw [hleaves] at hj
        by_cases hji : j = i
        · subst hji
          rw [Function.update_self] at hj ⊢
          rw [List.length_cons, LeafOps.run, hnext, Option.bind_some]
          dsimp only
          rw [hj]
          rfl
        · rw [Function.update_of_ne hji] at hj ⊢
          exact hj

/-- Over leaves that keep their schedule, a tree of containers keeps it, whatever its shape. -/
theorem keepsSchedule_run (ops : LeafOps σ) (I : σ → Prop) (hI : ops.WellBehaved I)
    (g : Generator ι) (hne : NonEmpty g) (s : State ι σ) (hs : ∀ i ∈ g.leaves, I (s.leaf i))
    (n : ℕ) : ∃ msgs t, run ops g n s = some (msgs, t) ∧ msgs.length = n ∧
      KeepsSchedule ops g s msgs t := by
  obtain ⟨time, htime⟩ := peek_eq hI.peek hne hs
  obtain ⟨msgs, t, hrun, hlen, -, hkeeps⟩ := keepsSchedule_from hI hne n s hs time htime.le
  exact ⟨msgs, t, hrun, hlen, hkeeps⟩

/-- Leaves that send echo requests at a fixed distance. -/
def ticking : LeafOps (TimePoint × ℕ) where
  peek l := (l.1, l)
  next l := some (⟨l.1, ⟨.echoRequest, 0, 8⟩⟩, (l.1 + l.2, l.2))

def nested : Generator ℕ := .container 0 [.leaf 0, .container 1 [.leaf 1, .leaf 2]]

/-- The leaf `i` sends every `i + 2` nanoseconds. -/
def tickingState : State ℕ (TimePoint × ℕ) := ⟨fun i => (0, i + 2), fun _ => ∅⟩

theorem keepsSchedule_run_nested :
    ((run ticking nested 5 tickingState).map fun r => r.1.map ScheduledMsg.timeNs) =
      some [0, 0, 0, 2, 3] ∧
    ∃ msgs t, run ticking nested 5 tickingState = some (msgs, t) ∧ msgs.length = 5 ∧
      KeepsSchedule ticking nested tickingState msgs t := by
  have hI : ticking.WellBehaved fun _ => True := by
    constructor
    · intro l _
      rfl
    · intro l _
      refine ⟨_, _, rfl, trivial, rfl, ?_⟩
      have hnonneg : (0 : ℤ) ≤ l.2 := Int.natCast_nonneg l.2
      exact Int.le_add_of_nonneg_right hnonneg
  have hinner : NonEmpty (.container 1 [.leaf 1, .leaf 2] : Generator ℕ) := by
    apply NonEmpty.container
    · simp
    · simp [NonEmpty.leaf]
  have hne : NonEmpty nested := by
    apply NonEmpty.container
    · simp
    · simp [NonEmpty.leaf, hinner]
  exact ⟨by decide +kernel,
    keepsSchedule_run ticking _ hI nested hne tickingState (fun _ _ => trivial) 5⟩

end Generator
end HVBench
