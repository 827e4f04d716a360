import HVBench.Generators.TransactionIds
import Mathlib.Algebra.Order.BigOperators.Group.List
import Mathlib.Algebra.Order.Group.Nat
import Mathlib.Algebra.Ring.Nat

/-! A `GeneratorContainer` keeps what its generators keep as well: the time reference and
the counters. Some of its operations reach the generators, others do not. -/
namespace HVBench

/-- `AbstractGenerator::reset_counters`. The entries stay. -/
def AbstractGenerator.resetCounters (counters : StdMap OFPT UInt32) : StdMap OFPT UInt32 :=
  counters.assign counters.keys 0

/-- A counter, where an absent entry counts as 0. -/
def AbstractGenerator.counter (counters : StdMap OFPT UInt32) (type : OFPT) : ℕ :=
  (counters.getD type 0).toNat

namespace AbstractGenerator

theorem counter_count {counters : StdMap OFPT UInt32} {msg : ScheduledMsg}
    (hwrap : counter counters msg.ofMsg.type + 1 < UInt32.size) (type : OFPT) :
    counter (count counters msg) type =
      counter counters type + if type = msg.ofMsg.type then 1 else 0 := by
  unfold counter count
  by_cases htype : type = msg.ofMsg.type
  · subst htype
    rw [if_pos rfl, StdMap.getD_modify, UInt32.toNat_add]
    exact Nat.mod_eq_of_lt hwrap
  · rw [if_neg htype, StdMap.getD_modify_ne _ _ htype, Nat.add_zero]

theorem counter_resetCounters (counters : StdMap OFPT UInt32) (type : OFPT) :
    counter (resetCounters counters) type = 0 := by
  unfold counter resetCounters StdMap.getD
  rw [StdMap.lookup_assign]
  by_cases htype : type ∈ counters.keys
  · rw [if_pos htype]
    rfl
  · rw [if_neg htype, AList.lookup_eq_none.mpr htype]
    rfl

end AbstractGenerator

namespace Generator

/-- What a place in a tree refers to. A generator can be at several places. -/
inductive Object (ι : Type)
  | leaf (i : ι)
  | container (i : ι)
  deriving DecidableEq, Repr

variable {ι F ρ : Type}

def object : Generator ι → Object ι
  | .leaf i => .leaf i
  | .container i _ => .container i

mutual

def objects : Generator ι → List (Object ι)
  | .leaf i => [.leaf i]
  | .container i gens => .container i :: objectsOf gens

def objectsOf : List (Generator ι) → List (Object ι)
  | [] => []
  | g :: gens => objects g ++ objectsOf gens

end

/-- No container contains itself. The calls of one that does never return. -/
inductive Acyclic : Generator ι → Prop
  | leaf (i : ι) : Acyclic (.leaf i)
  | container {i : ι} {gens : List (Generator ι)} (hself : .container i ∉ objectsOf gens)
      (hall : ∀ g ∈ gens, Acyclic g) : Acyclic (.container i gens)

/-- The generators, with the `base_time_` of the containers. -/
structure Heap (ι F ρ : Type) where
  gens : State ι (Leaf F ρ)
  baseTimes : ι → TimePoint

def Object.counters (s : State ι (Leaf F ρ)) : Object ι → StdMap OFPT UInt32
  | leaf i => (s.leaf i).counters
  | container i => s.counters i

def Object.baseTime (h : Heap ι F ρ) : Object ι → TimePoint
  | leaf i => (h.gens.leaf i).baseTime
  | container i => h.baseTimes i

variable [DecidableEq ι]

def State.setCounters {σ : Type} (s : State ι σ) (i : ι) (counters : StdMap OFPT UInt32) :
    State ι σ :=
  { s with counters := Function.update s.counters i counters }

mutual

/-- `set_time_reference`, which a container passes on. -/
def setTimeReference (baseTime : TimePoint) : Generator ι → Heap ι F ρ → Heap ι F ρ
  | .leaf i, h =>
    { h with gens := h.gens.setLeaf i ((h.gens.leaf i).setTimeReference baseTime) }
  | .container i gens, h =>
    setTimeReferences baseTime gens
      { h with baseTimes := Function.update h.baseTimes i baseTime }

/-- The loop over the generators of a container. -/
def setTimeReferences (baseTime : TimePoint) : List (Generator ι) → Heap ι F ρ → Heap ι F ρ
  | [], h => h
  | iter :: gens, h => setTimeReferences baseTime gens (setTimeReference baseTime iter h)

end

omit [DecidableEq ι] in
theorem objectsOf_eq (gens : List (Generator ι)) : objectsOf gens = gens.flatMap objects := by
  induction gens with
  | nil => rfl
  | cons g gens ih => rw [objectsOf, ih, List.flatMap_cons]

omit [DecidableEq ι] in
theorem object_mem_objects (g : Generator ι) : g.object ∈ g.objects := by
  cases g with
  | leaf i => exact List.mem_singleton_self _
  | container i gens => exact List.mem_cons_self

omit [DecidableEq ι] in
theorem objects_subset {g : Generator ι} {gens : List (Generator ι)} (hg : g ∈ gens) :
    g.objects ⊆ objectsOf gens := by
  intro o ho
  rw [objectsOf_eq]
  exact List.mem_flatMap.mpr ⟨g, hg, ho⟩

omit [DecidableEq ι] in
theorem Acyclic.object_ne {i : ι} {g : Generator ι} {gens : List (Generator ι)}
    (h : Acyclic (.container i gens)) (hg : g ∈ gens) : g.object ≠ .container i := by
  intro heq
  cases h with
  | container hself _ => exact hself (heq ▸ objects_subset hg (object_mem_objects g))

/-- From `h` to `h'`, exactly the objects `os` were given the time reference. -/
structure TimesSet (baseTime : TimePoint) (os : List (Object ι)) (h h' : Heap ι F ρ) : Prop where
  counters : ∀ o : Object ι, o.counters h'.gens = o.counters h.gens
  baseTime : ∀ o : Object ι, o.baseTime h' = if o ∈ os then baseTime else o.baseTime h

theorem TimesSet.refl (baseTime : TimePoint) (h : Heap ι F ρ) : TimesSet baseTime [] h h where
  counters _ := rfl
  baseTime _ := rfl

theorem TimesSet.trans {baseTime : TimePoint} {os os' : List (Object ι)} {h h' h'' : Heap ι F ρ}
    (first : TimesSet baseTime os h h') (second : TimesSet baseTime os' h' h'') :
    TimesSet baseTime (os ++ os') h h'' where
  counters o := (second.counters o).trans (first.counters o)
  baseTime o := by
    rw [second.baseTime, first.baseTime]
    by_cases ho' : o ∈ os'
    · rw [if_pos ho', if_pos (List.mem_append_right os ho')]
    · by_cases ho : o ∈ os
      · rw [if_neg ho', if_pos ho, if_pos (List.mem_append_left os' ho)]
      · rw [if_neg ho', if_neg ho, if_neg (by simp [ho, ho'])]

theorem timesSet_leaf (baseTime : TimePoint) (i : ι) (h : Heap ι F ρ) :
    TimesSet baseTime [.leaf i] h (setTimeReference baseTime (.leaf i) h) where
  counters o := by
    cases o with
    | container j => rfl
    | leaf j =>
      simp only [setTimeReference, State.setLeaf, Object.counters]
      by_cases hj : j = i
      · subst hj
        rw [Function.update_self]
        cases h.gens.leaf j <;> rfl
      · rw [Function.update_of_ne hj]
  baseTime o := by
    cases o with
    | container j => simp [setTimeReference, Object.baseTime]
    | leaf j =>
      simp only [setTimeReference, State.setLeaf, Object.baseTime, List.mem_singleton,
        Object.leaf.injEq]
      by_cases hj : j = i
      · subst hj
        rw [Function.update_self, if_pos rfl]
        cases h.gens.leaf j <;> rfl
      · rw [Function.update_of_ne hj, if_neg hj]

theorem timesSet_container (baseTime : TimePoint) (i : ι) (h : Heap ι F ρ) :
    TimesSet baseTime [.container i] h
      { h with baseTimes := Function.update h.baseTimes i baseTime } where
  counters _ := rfl
  baseTime o := by
    cases o with
    | leaf j => simp [Object.baseTime]
    | container j =>
      simp only [Object.baseTime, List.mem_singleton, Object.container.injEq]
      by_cases hj : j = i
      · subst hj
        rw [Function.update_self, if_pos rfl]
      · rw [Function.update_of_ne hj, if_neg hj]

theorem timesSet_setTimeReferences {baseTime : TimePoint} {gens : List (Generator ι)}
    (hgens : ∀ g ∈ gens, ∀ h : Heap ι F ρ,
      TimesSet baseTime g.objects h (setTimeReference baseTime g h)) (h : Heap ι F ρ) :
    TimesSet baseTime (objectsOf gens) h (setTimeReferences baseTime gens h) := by
  induction gens generalizing h with
  | nil => exact .refl baseTime h
  | cons iter gens ih =>
    have hrest : ∀ g ∈ gens, ∀ h : Heap ι F ρ,
        TimesSet baseTime g.objects h (setTimeReference baseTime g h) :=
      fun g hg => hgens g (by simp [hg])
    rw [setTimeReferences, objectsOf]
    exact (hgens iter (by simp) h).trans (ih hrest _)

/-- `set_time_reference` reaches the whole tree and nothing else. -/
theorem timesSet_setTimeReference (baseTime : TimePoint) (g : Generator ι) (h : Heap ι F ρ) :
    TimesSet baseTime g.objects h (setTimeReference baseTime g h) := by
  induction g generalizing h with
  | leaf i => exact timesSet_leaf baseTime i h
  | container i gens ih =>
    rw [setTimeReference]
    exact (timesSet_container baseTime i h).trans (timesSet_setTimeReferences ih _)

/-- The objects that a call of `next` goes through, by the times `peek` gives. -/
inductive Turn {σ : Type} (ops : LeafOps σ) (s : State ι σ) :
    Generator ι → List (Object ι) → Prop
  | leaf (i : ι) : Turn ops s (.leaf i) [.leaf i]
  | container (i : ι) {gens : List (Generator ι)} {g : Generator ι} {path : List (Object ι)}
      (hleast : Merge.FirstLeast (peekTime ops s) gens g) (hpath : Turn ops s g path) :
      Turn ops s (.container i gens) (.container i :: path)

namespace Turn
variable {σ : Type} {ops : LeafOps σ} {s : State ι σ}

theorem object_mem {g : Generator ι} {path : List (Object ι)} (h : Turn ops s g path) :
    g.object ∈ path := by
  cases h with
  | leaf i => exact List.mem_singleton_self _
  | container i hleast hpath => exact List.mem_cons_self

theorem subset {g : Generator ι} {path : List (Object ι)} (h : Turn ops s g path) :
    path ⊆ g.objects := by
  induction h with
  | leaf i => exact List.Subset.refl _
  | container i hleast hpath ih =>
    rw [objects]
    exact List.cons_subset_cons _ fun o ho => objects_subset hleast.mem (ih ho)

theorem unique {g : Generator ι} {path path' : List (Object ι)} (h : Turn ops s g path)
    (h' : Turn ops s g path') : path = path' := by
  induction h generalizing path' with
  | leaf i =>
    cases h'
    rfl
  | container i hleast hpath ih =>
    cases h' with
    | container _ hleast' hpath' =>
      obtain rfl := hleast.unique hleast'
      rw [ih hpath']

end Turn

variable {p : Platform F ρ}

theorem counters_setLeaf (s : State ι (Leaf F ρ)) (i : ι) (l : Leaf F ρ) (o : Object ι) :
    o.counters (s.setLeaf i l) = if o = .leaf i then l.counters else o.counters s := by
  cases o with
  | container j => rfl
  | leaf j =>
    simp only [Object.counters, State.setLeaf, Object.leaf.injEq]
    by_cases hj : j = i
    · subst hj
      rw [Function.update_self, if_pos rfl]
    · rw [Function.update_of_ne hj, if_neg hj]

theorem counters_setCounters (s : State ι (Leaf F ρ)) (i : ι) (counters : StdMap OFPT UInt32)
    (o : Object ι) :
    o.counters (s.setCounters i counters) =
      if o = .container i then counters else o.counters s := by
  cases o with
  | leaf j => rfl
  | container j =>
    simp only [Object.counters, State.setCounters, Object.container.injEq]
    by_cases hj : j = i
    · subst hj
      rw [Function.update_self, if_pos rfl]
    · rw [Function.update_of_ne hj, if_neg hj]

theorem exists_peeks {g : Generator ι} (hne : NonEmpty g) (s : State ι (Leaf F ρ)) :
    ∃ time, Peeks (Leaf.ops p) s g time :=
  peek_eq (I := fun _ => True) (fun l _ => Leaf.peek_pure l) hne fun _ _ => trivial

/-- A message is counted once by each object it comes through. -/
theorem next_counters {g : Generator ι} (hac : Acyclic g) {s t : State ι (Leaf F ρ)}
    {msg : ScheduledMsg} (h : next (Leaf.ops p) g s = some (msg, t)) :
    ∃ path, Turn (Leaf.ops p) s g path ∧ ∀ o : Object ι, o.counters t =
      if o ∈ path then AbstractGenerator.count (o.counters s) msg else o.counters s := by
  induction g generalizing t with
  | leaf i =>
    obtain ⟨⟨msg', l⟩, hl, heq⟩ := Option.map_eq_some_iff.mp h
    obtain ⟨rfl, rfl⟩ := Prod.mk.inj heq
    refine ⟨[.leaf i], .leaf i, fun o => ?_⟩
    rw [counters_setLeaf, (Leaf.next_counted hl).1]
    simp only [List.mem_singleton]
    by_cases ho : o = .leaf i
    · rw [if_pos ho, if_pos ho, ho]
      rfl
    · rw [if_neg ho, if_neg ho]
  | container i gens ih =>
    cases nonEmpty_of_next h with
    | container _ hne hgens =>
      have hpeeks : ∀ g ∈ gens, ∃ time, Peeks (Leaf.ops p) s g time :=
        fun g hg => exists_peeks (hgens g hg) s
      cases hac with
      | container hself hall =>
        obtain ⟨g, hleast, hnext⟩ := next_container (i := i) hne hpeeks
        rw [hnext] at h
        obtain ⟨⟨msg', u⟩, hu, heq⟩ := Option.map_eq_some_iff.mp h
        obtain ⟨rfl, rfl⟩ := Prod.mk.inj heq
        obtain ⟨path, hpath, hcounters⟩ := ih g hleast.mem (hall g hleast.mem) hu
        refine ⟨.container i :: path, .container i hleast hpath, fun o => ?_⟩
        change o.counters (u.setCounters i _) = _
        rw [counters_setCounters]
        by_cases ho : o = .container i
        · -- the container is not on the way through its own generators
          have hout : Object.container i ∉ path := fun hmem =>
            hself (objects_subset hleast.mem (hpath.subset hmem))
          have hown := hcounters (.container i)
          rw [if_neg hout] at hown
          subst ho
          rw [if_pos rfl, if_pos List.mem_cons_self, ← hown]
          rfl
        · rw [if_neg ho, hcounters]
          simp only [List.mem_cons, ho, false_or]

theorem next_baseTime {g : Generator ι} {s t : State ι (Leaf F ρ)} {msg : ScheduledMsg}
    (h : next (Leaf.ops p) g s = some (msg, t)) (j : ι) :
    (t.leaf j).baseTime = (s.leaf j).baseTime := by
  obtain ⟨i, counters, -, hnext⟩ := next_eq (I := fun _ => True)
    (fun l _ => Leaf.peek_pure l) (nonEmpty_of_next h) fun _ _ => trivial
  rw [hnext] at h
  obtain ⟨⟨msg', l⟩, hl, heq⟩ := Option.map_eq_some_iff.mp h
  obtain ⟨rfl, rfl⟩ := Prod.mk.inj heq
  dsimp only
  by_cases hj : j = i
  · subst hj
    rw [Function.update_self, (Leaf.next_counted hl).2]
  · rw [Function.update_of_ne hj]

theorem peek_state {g : Generator ι} {s t : State ι (Leaf F ρ)} {time : TimePoint}
    (h : peek (Leaf.ops p) g s = some (time, t)) : t = s := by
  obtain ⟨u, hu⟩ := exists_peeks (p := p) (nonEmpty_of_peek h) s
  exact (Prod.mk.inj (Option.some.inj (h.symm.trans hu.eq))).2

end Generator

namespace GeneratorContainer
open Generator
variable {ι F ρ : Type} [DecidableEq ι] (p : Platform F ρ) (c : ι)

inductive Call (ι : Type)
  | add (gen : Generator ι)
  | setTimeReference (baseTime : TimePoint)
  | peek
  | next
  | resetCounters

structure State (ι F ρ : Type) where
  generators : List (Generator ι)
  heap : Heap ι F ρ
  /-- `set_time_reference` has been called. -/
  timed : Bool

/-- A new container, among any other generators. -/
def create (heap : Heap ι F ρ) : State ι F ρ where
  generators := []
  heap := { heap with gens := heap.gens.setCounters c ∅ }
  timed := false

namespace State
variable (s : State ι F ρ)

def tree : Generator ι := .container c s.generators

def setGens (gens : Generator.State ι (Leaf F ρ)) : State ι F ρ :=
  { s with heap := { s.heap with gens := gens } }

def counter (o : Object ι) (type : OFPT) : ℕ :=
  AbstractGenerator.counter (o.counters s.heap.gens) type

def baseTime (o : Object ι) : TimePoint := o.baseTime s.heap

end State

/-- A call. `none` is an assertion that fails. Only `set_time_reference` is overridden. -/
def step (s : State ι F ρ) : Call ι → Option (State ι F ρ)
  | .add gen => some { s with generators := s.generators ++ [gen] }
  | .setTimeReference baseTime => some
    { s with
      heap := setTimeReference baseTime (s.tree c) s.heap
      timed := true }
  | .peek =>
    (Generator.peek (Leaf.ops p) (s.tree c) s.heap.gens).map fun r => s.setGens r.2
  | .next =>
    (Generator.next (Leaf.ops p) (s.tree c) s.heap.gens).map fun r => s.setGens r.2
  | .resetCounters => some (s.setGens
    (s.heap.gens.setCounters c (AbstractGenerator.resetCounters (s.heap.gens.counters c))))

/-- The container agrees with its generators. -/
structure Consistent (s : State ι F ρ) : Prop where
  baseTime : s.timed = true → ∀ gen ∈ s.generators,
    s.baseTime gen.object = s.baseTime (.container c)
  counters : ∀ type, s.counter (.container c) type =
    (s.generators.map fun gen => s.counter gen.object type).sum

/-- What the calls come with: a generator that is added has counted nothing, no container
is put into itself, and the counter that `next` increments does not wrap around. -/
def Admitted (s : State ι F ρ) : Call ι → Prop
  | .add gen => (∀ type, s.counter gen.object type = 0) ∧
      Acyclic (.container c (s.generators ++ [gen]))
  | .next => ∀ msg gens,
      Generator.next (Leaf.ops p) (s.tree c) s.heap.gens = some (msg, gens) →
      s.counter (.container c) msg.ofMsg.type + 1 < UInt32.size
  | _ => True

/-- The call reaches the generators as far as it has to: what is added has the time
reference already, `next` goes through one of the generators, and `reset_counters` finds
nothing to reset in them. -/
def Harmless (s : State ι F ρ) : Call ι → Prop
  | .add gen => s.timed = true → s.baseTime gen.object = s.baseTime (.container c)
  | .next => ∀ path, Turn (Leaf.ops p) s.heap.gens (s.tree c) path →
      s.generators.countP (·.object ∈ path) = 1
  | .resetCounters => ∀ gen ∈ s.generators, ∀ type, s.counter gen.object type = 0
  | _ => True

variable {p c}

theorem consistent_create (heap : Heap ι F ρ) : Consistent c (create c heap) where
  baseTime htimed := absurd htimed (by simp [create])
  counters type := by
    simp only [State.counter, create, counters_setCounters, if_true]
    rfl

omit [DecidableEq ι] in
theorem consistent_add {s : State ι F ρ} {gen : Generator ι}
    (hzero : ∀ type, s.counter gen.object type = 0) (h : Consistent c s) :
    Consistent c { s with generators := s.generators ++ [gen] } ↔
      (s.timed = true → s.baseTime gen.object = s.baseTime (.container c)) := by
  constructor
  · intro hadd htimed
    exact hadd.baseTime htimed gen (by simp)
  · intro hgen
    constructor
    · intro htimed g hg
      rcases List.mem_append.mp hg with hg | hg
      · exact h.baseTime htimed g hg
      · obtain rfl := List.mem_singleton.mp hg
        exact hgen htimed
    · intro type
      change s.counter (.container c) type =
        ((s.generators ++ [gen]).map fun gen => s.counter gen.object type).sum
      rw [List.map_append, List.sum_append, h.counters, List.map_singleton, hzero]
      rfl

theorem consistent_setTimeReference {s : State ι F ρ} (h : Consistent c s)
    (baseTime : TimePoint) :
    Consistent c { s with
      heap := setTimeReference baseTime (s.tree c) s.heap
      timed := true } := by
  have hset := timesSet_setTimeReference baseTime (s.tree c) s.heap
  have hobjects : (s.tree c).objects = .container c :: objectsOf s.generators := rfl
  rw [hobjects] at hset
  constructor
  · intro _ gen hgen
    have hmem : gen.object ∈ objectsOf s.generators :=
      objects_subset hgen (object_mem_objects gen)
    change gen.object.baseTime _ = (Object.container c).baseTime _
    rw [hset.baseTime, hset.baseTime, if_pos (List.mem_cons_of_mem _ hmem),
      if_pos List.mem_cons_self]
  · intro type
    have hcounter : ∀ o : Object ι, AbstractGenerator.counter
        (o.counters (setTimeReference baseTime (s.tree c) s.heap).gens) type =
        s.counter o type := fun o => congrArg (AbstractGenerator.counter · type) (hset.counters o)
    simp only [State.counter] at hcounter ⊢
    simp only [hcounter]
    exact h.counters type

/-- What a message adds to the counters of the generators. -/
theorem sum_counter {s t : Generator.State ι (Leaf F ρ)} {path : List (Object ι)}
    {msg : ScheduledMsg} (hcounters : ∀ o : Object ι, o.counters t =
      if o ∈ path then AbstractGenerator.count (o.counters s) msg else o.counters s)
    {gens : List (Generator ι)} (hwrap : ∀ g ∈ gens,
      AbstractGenerator.counter (g.object.counters s) msg.ofMsg.type + 1 < UInt32.size)
    (type : OFPT) :
    (gens.map fun g => AbstractGenerator.counter (g.object.counters t) type).sum =
      (gens.map fun g => AbstractGenerator.counter (g.object.counters s) type).sum +
        if type = msg.ofMsg.type then gens.countP (·.object ∈ path) else 0 := by
  induction gens with
  | nil => simp
  | cons g gens ih =>
    have hrest := ih fun g hg => hwrap g (by simp [hg])
    have hcount := AbstractGenerator.counter_count (hwrap g (by simp)) type
    rw [List.map_cons, List.sum_cons, List.map_cons, List.sum_cons, hrest, hcounters,
      List.countP_cons]
    by_cases hg : g.object ∈ path
    · rw [if_pos hg, hcount]
      simp only [hg, decide_true, if_true]
      split_ifs <;> omega
    · rw [if_neg hg]
      simp only [hg, decide_false, Bool.false_eq_true, if_false, Nat.add_zero]
      omega

omit [DecidableEq ι] in
/-- No generator has counted more than the container. -/
theorem Consistent.counter_le {s : State ι F ρ} (h : Consistent c s) {gen : Generator ι}
    (hgen : gen ∈ s.generators) (type : OFPT) :
    s.counter gen.object type ≤ s.counter (.container c) type := by
  rw [h.counters]
  exact List.le_sum_of_mem (List.mem_map_of_mem hgen)

/-- A call of `next` keeps the counters in step if it goes through one generator. -/
theorem consistent_next {s : State ι F ρ} (hac : Acyclic (s.tree c)) (h : Consistent c s)
    {msg : ScheduledMsg} {gens : Generator.State ι (Leaf F ρ)}
    (hnext : Generator.next (Leaf.ops p) (s.tree c) s.heap.gens = some (msg, gens))
    (hwrap : s.counter (.container c) msg.ofMsg.type + 1 < UInt32.size) :
    Consistent c (s.setGens gens) ↔ ∀ path,
      Turn (Leaf.ops p) s.heap.gens (s.tree c) path →
        s.generators.countP (·.object ∈ path) = 1 := by
  obtain ⟨path, hpath, hcounters⟩ := next_counters hac hnext
  have hself : Object.container c ∈ path := hpath.object_mem
  have hchild : ∀ g ∈ s.generators,
      AbstractGenerator.counter (g.object.counters s.heap.gens) msg.ofMsg.type + 1 <
        UInt32.size :=
    fun g hg => Nat.lt_of_le_of_lt (Nat.succ_le_succ (h.counter_le hg _)) hwrap
  have hcontainer : ∀ type, (s.setGens gens).counter (.container c) type =
      s.counter (.container c) type + if type = msg.ofMsg.type then 1 else 0 := by
    intro type
    change AbstractGenerator.counter ((Object.container c).counters gens) type = _
    rw [hcounters, if_pos hself]
    exact AbstractGenerator.counter_count hwrap type
  have hsum : ∀ type, (s.generators.map fun g => (s.setGens gens).counter g.object type).sum =
      (s.generators.map fun g => s.counter g.object type).sum +
        if type = msg.ofMsg.type then s.generators.countP (·.object ∈ path) else 0 :=
    sum_counter hcounters hchild
  constructor
  · intro ht path' hpath'
    obtain rfl := hpath.unique hpath'
    have hcount := ht.counters msg.ofMsg.type
    have hbefore := h.counters msg.ofMsg.type
    rw [hcontainer, if_pos rfl] at hcount
    have hafter := hsum msg.ofMsg.type
    rw [if_pos rfl] at hafter
    change _ = (s.generators.map fun g => (s.setGens gens).counter g.object _).sum at hcount
    omega
  · intro hone
    constructor
    · intro htimed gen hgen
      have hstay : ∀ o : Object ι, (s.setGens gens).baseTime o = s.baseTime o := by
        intro o
        cases o with
        | leaf j => exact next_baseTime hnext j
        | container j => rfl
      rw [hstay, hstay]
      exact h.baseTime htimed gen hgen
    · intro type
      change _ = (s.generators.map fun g => (s.setGens gens).counter g.object type).sum
      rw [hcontainer, hsum, h.counters, hone path hpath]

/-- `reset_counters` reaches the counters of the container only. -/
theorem consistent_resetCounters {s : State ι F ρ} (hac : Acyclic (s.tree c))
    (h : Consistent c s) :
    Consistent c (s.setGens (s.heap.gens.setCounters c
        (AbstractGenerator.resetCounters (s.heap.gens.counters c)))) ↔
      ∀ gen ∈ s.generators, ∀ type, s.counter gen.object type = 0 := by
  generalize ht : s.setGens (s.heap.gens.setCounters c
    (AbstractGenerator.resetCounters (s.heap.gens.counters c))) = t
  have hcounters : ∀ o : Object ι, o.counters t.heap.gens =
      if o = .container c then AbstractGenerator.resetCounters (s.heap.gens.counters c)
      else o.counters s.heap.gens := by
    intro o
    rw [← ht]
    exact counters_setCounters _ _ _ o
  have hown : ∀ type, t.counter (.container c) type = 0 := by
    intro type
    rw [State.counter, hcounters, if_pos rfl, AbstractGenerator.counter_resetCounters]
  have hchild : ∀ gen ∈ s.generators, ∀ type,
      t.counter gen.object type = s.counter gen.object type := by
    intro gen hgen type
    rw [State.counter, hcounters, if_neg (hac.object_ne hgen)]
    rfl
  have hgens : t.generators = s.generators := by
    rw [← ht]
    rfl
  constructor
  · intro hcons gen hgen type
    have hsum := hcons.counters type
    rw [hown, hgens] at hsum
    have hzero := List.sum_eq_zero_iff_forall_eq_nat.mp hsum.symm
    rw [← hchild gen hgen type]
    exact hzero _ (List.mem_map_of_mem hgen)
  · intro hzero
    constructor
    · intro htimed gen hgen
      subst ht
      exact h.baseTime htimed gen hgen
    · intro type
      rw [hown, hgens]
      symm
      apply List.sum_eq_zero
      intro n hn
      obtain ⟨gen, hgen, rfl⟩ := List.mem_map.mp hn
      rw [hchild gen hgen, hzero gen hgen]

theorem acyclic_step {s t : State ι F ρ} {call : Call ι} (h : Acyclic (s.tree c))
    (hcall : Admitted p c s call) (ht : step p c s call = some t) : Acyclic (t.tree c) := by
  cases call with
  | add gen =>
    obtain rfl := Option.some.inj ht
    exact hcall.2
  | setTimeReference baseTime =>
    obtain rfl := Option.some.inj ht
    exact h
  | peek =>
    obtain ⟨r, -, rfl⟩ := Option.map_eq_some_iff.mp ht
    exact h
  | next =>
    obtain ⟨r, -, rfl⟩ := Option.map_eq_some_iff.mp ht
    exact h
  | resetCounters =>
    obtain rfl := Option.some.inj ht
    exact h

/-- A call leaves a consistent container consistent exactly if it is harmless. -/
theorem consistent_step {s t : State ι F ρ} {call : Call ι} (hac : Acyclic (s.tree c))
    (h : Consistent c s) (hcall : Admitted p c s call) (ht : step p c s call = some t) :
    Consistent c t ↔ Harmless p c s call := by
  cases call with
  | add gen =>
    obtain rfl := Option.some.inj ht
    exact consistent_add hcall.1 h
  | setTimeReference baseTime =>
    obtain rfl := Option.some.inj ht
    exact ⟨fun _ => trivial, fun _ => consistent_setTimeReference h baseTime⟩
  | peek =>
    obtain ⟨⟨time, gens⟩, hpeek, rfl⟩ := Option.map_eq_some_iff.mp ht
    obtain rfl := peek_state hpeek
    exact ⟨fun _ => trivial, fun _ => h⟩
  | next =>
    obtain ⟨⟨msg, gens⟩, hnext, rfl⟩ := Option.map_eq_some_iff.mp ht
    exact consistent_next hac h hnext (hcall msg gens hnext)
  | resetCounters =>
    obtain rfl := Option.some.inj ht
    exact consistent_resetCounters hac h

variable (p c) in
/-- A new container agrees with its generators after each call of a run if and only if
all of the calls are harmless where they are made. -/
theorem consistent_iff (heap : Heap ι F ρ) (calls : List (Call ι)) (s : State ι F ρ)
    (h : Transition.exec (step p c) (create c heap) calls = some s)
    (hcalls : Transition.Meets (step p c) (Admitted p c) (create c heap) calls) :
    Transition.Always (step p c) (Consistent c) (create c heap) calls ↔
      Transition.Meets (step p c) (Harmless p c) (create c heap) calls := by
  have hac : Acyclic ((create c heap).tree c) := .container (by simp [create, objectsOf]) (by
    simp [create])
  exact Transition.always_iff_meets_of_exec (fun _ _ _ hG hU ht => acyclic_step hG hU ht)
    (fun _ _ _ hG hI hU ht => consistent_step hG hI hU ht) hac (consistent_create heap) hcalls h

open TransactionIds in
/-- Generators that send an echo request every second. -/
def echoHeap : Heap ℕ ℕ Unit where
  gens := ⟨fun _ => .constant (.create steadyPlatform 1 "ECHO_REQUEST".toList 0), fun _ => ∅⟩
  baseTimes := fun _ => 0

omit [DecidableEq ι] in
theorem acyclic_leaves (leaves : List ι) : Acyclic (.container c (leaves.map .leaf)) := by
  constructor
  · rw [objectsOf_eq]
    simp [objects]
  · intro g hg
    obtain ⟨i, -, rfl⟩ := List.mem_map.mp hg
    exact .leaf i

open TransactionIds in
/-- The time reference is set after the generators are added. -/
theorem consistent_iff_echo :
    Transition.Always (step steadyPlatform 0) (Consistent 0) (create 0 echoHeap)
      [.add (.leaf 1), .add (.leaf 2), .setTimeReference 5, .peek, .next] := by
  have hadmitted : Transition.Meets (step steadyPlatform 0) (Admitted steadyPlatform 0)
      (create 0 echoHeap) [.add (.leaf 1), .add (.leaf 2), .setTimeReference 5, .peek, .next] := by
    refine .cons rfl ⟨fun type => rfl, acyclic_leaves [1]⟩ ?_
    refine .cons rfl ⟨fun type => rfl, acyclic_leaves [1, 2]⟩ ?_
    refine .cons rfl trivial (.cons rfl trivial ⟨?_, fun _ _ => trivial⟩)
    intro msg gens _
    exact (by decide : 0 + 1 < UInt32.size)
  refine (consistent_iff steadyPlatform 0 echoHeap _ _ rfl hadmitted).mpr ?_
  refine .cons rfl (fun h => absurd h (by decide)) ?_
  refine .cons rfl (fun h => absurd h (by decide)) ?_
  refine .cons rfl trivial (.cons rfl trivial ⟨?_, fun _ _ => trivial⟩)
  intro path hpath
  cases hpath with
  | container _ hleast hleaf =>
    rcases List.mem_cons.mp hleast.mem with rfl | hmem
    · cases hleaf
      decide
    · obtain rfl := List.mem_singleton.mp hmem
      cases hleaf
      decide

open TransactionIds in
/-- The counters are reset after a message: that of the generator stays at 1. -/
theorem reset_counters_differ :
    ¬ ∀ (p : Platform ℕ Unit) (c : ℕ) (heap : Heap ℕ ℕ Unit) calls s,
      Transition.exec (step p c) (create c heap) calls = some s →
      Transition.Meets (step p c) (Admitted p c) (create c heap) calls →
      Transition.Always (step p c) (Consistent c) (create c heap) calls := by
  intro h
  have hadmitted : Transition.Meets (step steadyPlatform 0) (Admitted steadyPlatform 0)
      (create 0 echoHeap) [.add (.leaf 1), .setTimeReference 5, .next, .resetCounters] := by
    refine .cons rfl ⟨fun type => rfl, acyclic_leaves [1]⟩ ?_
    refine .cons rfl trivial (.cons rfl ?_ (.cons rfl trivial trivial))
    intro msg gens _
    exact (by decide : 0 + 1 < UInt32.size)
  have halways := h steadyPlatform 0 echoHeap _ _ rfl hadmitted
  have hconsistent := halways _ [] _ (List.append_nil _).symm rfl
  have hcounters := hconsistent.counters .echoRequest
  exact absurd hcounters (by decide)

end GeneratorContainer
end HVBench
