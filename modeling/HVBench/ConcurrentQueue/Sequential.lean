import HVBench.ConcurrentQueue.Quiescent

/-! Calls one after the other. They are those of a first-in first-out list that starts a new
block for every `BLOCK_SIZE` elements and gives a block back with its last element. -/
namespace HVBench
namespace ConcurrentQueue
open Transition

/-- What the queue is for: the elements that wait, the index of the first of them, and what
the calls returned. -/
structure Spec (κ α : Type) where
  first : ℕ
  items : List α
  dequeued : List (κ × ℕ × α)
  refused : List α

inductive Call (κ α : Type)
  | tryEnqueue (e : α)
  | tryDequeue (c : κ)

namespace Spec
variable {κ α : Type} (T : Traits)

/-- The next element needs a new block, and there is none. -/
def Full (q : Spec κ α) : Prop :=
  (q.first + q.items.length) % T.blockSize = 0 ∧
    min T.poolSize T.indexSize ≤
      (q.first + q.items.length) / T.blockSize - q.first / T.blockSize

instance (q : Spec κ α) : Decidable (q.Full T) := inferInstanceAs (Decidable (_ ∧ _))

def call (q : Spec κ α) : Call κ α → Spec κ α
  | .tryEnqueue e =>
    if q.Full T then { q with refused := q.refused ++ [e] } else { q with items := q.items ++ [e] }
  | .tryDequeue c =>
    match q.items with
    | [] => q
    | e :: rest => ⟨q.first + 1, rest, q.dequeued ++ [(c, q.first, e)], q.refused⟩

end Spec

variable {κ α : Type} {T : Traits} {s t u : State κ α} {e : α}

def State.spec (s : State κ α) : Spec κ α :=
  ⟨s.headIndex, s.enqueued.drop s.headIndex, s.dequeued, s.refused⟩

/-- The calls of a run. -/
def Label.call : Label κ α → Option (Call κ α)
  | .enqueue e => some (.tryEnqueue e)
  | .dequeue c => some (.tryDequeue c)
  | _ => none

section Enqueue

/-- How many steps `enqueue` still takes at most. -/
def Producer.rank : Producer α → ℕ
  | idle => 0
  | storeTailIndex _ => 1
  | construct _ => 2
  | link _ _ _ => 3
  | resetEmpty _ _ _ => 4
  | clear _ _ => 4
  | rewind _ _ => 5
  | requisition _ _ => 6
  | storeTail _ _ => 7
  | storeKey _ _ => 8
  | insert _ => 9

/-- Whether the call in progress enqueues its element when no other thread goes on. -/
def Accepts (T : Traits) (s : State κ α) : Producer α → Prop
  | .insert _ =>
    ((s.blockIndex ((s.blockIndexTail + 1) % T.indexSize)).key = none ∨
      (s.blockIndex ((s.blockIndexTail + 1) % T.indexSize)).value = none) ∧
    (s.initialBlockPoolIndex < T.poolSize ∨ s.freeList ≠ [])
  | .storeKey _ _ => s.initialBlockPoolIndex < T.poolSize ∨ s.freeList ≠ []
  | .storeTail _ _ => s.initialBlockPoolIndex < T.poolSize ∨ s.freeList ≠ []
  | .requisition _ _ => s.initialBlockPoolIndex < T.poolSize ∨ s.freeList ≠ []
  | .rewind _ _ => False
  | .clear _ _ => False
  | _ => True

/-- The element of the call in progress. -/
def Producer.element : Producer α → Option α
  | idle => none
  | insert e => some e
  | storeKey e _ => some e
  | storeTail e _ => some e
  | requisition e _ => some e
  | rewind e _ => some e
  | clear e _ => some e
  | resetEmpty e _ _ => some e
  | link e _ _ => some e
  | construct e => some e
  | storeTailIndex e => some e

/-- Where a call of `try_enqueue` is that began in `s` and takes its steps alone. -/
structure Enqueueing (T : Traits) (s : State κ α) (e : α) (accepted : Prop) (t : State κ α) :
    Prop where
  inv : Inv T t
  consumers : t.consumers = s.consumers
  head : t.headIndex = s.headIndex
  dequeued : t.dequeued = s.dequeued
  busy : t.producer ≠ .idle → t.producer.element = some e ∧ t.enqueued = s.enqueued ∧
    t.refused = s.refused ∧ (Accepts T t t.producer ↔ accepted)
  done : t.producer = .idle →
    accepted ∧ t.enqueued = s.enqueued ++ [e] ∧ t.refused = s.refused ∨
    ¬accepted ∧ t.enqueued = s.enqueued ∧ t.refused = s.refused ++ [e]

theorem rank_producer (hmove : ProducerMove T t u) (hbusy : t.producer ≠ .idle) :
    u.producer.rank < t.producer.rank := by
  cases hmove <;> rw [‹t.producer = _›] at hbusy ⊢ <;>
    first
    | exact absurd rfl hbusy
    | simp [Producer.rank]

theorem enqueueing_step {accepted : Prop} (h : Enqueueing T s e accepted t)
    (hmove : ProducerMove T t u) (hbusy : t.producer ≠ .idle) :
    Enqueueing T s e accepted u := by
  have hinv := inv_producer h.inv hmove
  obtain ⟨he, henqueued, hrefused, haccepts⟩ := h.busy hbusy
  cases hmove with
  | startBlock hpc htail => exact absurd hpc hbusy
  | startFull hpc hge => exact absurd hpc hbusy
  | startConstruct hpc htail => exact absurd hpc hbusy
  | noEntry hpc hfull =>
    rw [hpc] at he haccepts
    cases he
    refine ⟨hinv, h.consumers, h.head, h.dequeued, fun hne => absurd rfl hne, fun _ => .inr ?_⟩
    exact ⟨fun ha => hfull (haccepts.mpr ha).1, henqueued, congrArg (· ++ [e]) hrefused⟩
  | clear hpc =>
    rw [hpc] at he haccepts
    cases he
    refine ⟨hinv, h.consumers, h.head, h.dequeued, fun hne => absurd rfl hne, fun _ => .inr ?_⟩
    exact ⟨haccepts.mpr, henqueued, congrArg (· ++ [e]) hrefused⟩
  | storeTailIndex hpc =>
    rw [hpc] at he haccepts
    cases he
    refine ⟨hinv, h.consumers, h.head, h.dequeued, fun hne => absurd rfl hne, fun _ => .inl ?_⟩
    exact ⟨haccepts.mp trivial, congrArg (· ++ [e]) henqueued, hrefused⟩
  | insert hpc hfree =>
    rw [hpc] at he haccepts
    refine ⟨hinv, h.consumers, h.head, h.dequeued, fun _ => ⟨he, henqueued, hrefused, ?_⟩,
      fun hpc => by cases hpc⟩
    rw [← haccepts]
    exact ⟨fun ha => ⟨hfree, ha⟩, fun ha => ha.2⟩
  | requisitionPool hpc hlt =>
    rw [hpc] at he haccepts
    refine ⟨hinv, h.consumers, h.head, h.dequeued, fun _ => ⟨he, henqueued, hrefused, ?_⟩,
      fun hpc => by cases hpc⟩
    rw [← haccepts]
    exact iff_of_true trivial (.inl hlt)
  | requisitionFreeList hpc hpool hfree =>
    rw [hpc] at he haccepts
    refine ⟨hinv, h.consumers, h.head, h.dequeued, fun _ => ⟨he, henqueued, hrefused, ?_⟩,
      fun hpc => by cases hpc⟩
    rw [← haccepts]
    exact iff_of_true trivial (.inr (by rw [hfree]; simp))
  | noBlock hpc hpool hfree =>
    rw [hpc] at he haccepts
    refine ⟨hinv, h.consumers, h.head, h.dequeued, fun _ => ⟨he, henqueued, hrefused, ?_⟩,
      fun hpc => by cases hpc⟩
    rw [← haccepts]
    refine iff_of_false id ?_
    rintro (hlt | hne)
    · exact Nat.not_lt.mpr hpool hlt
    · exact hne hfree
  | _ =>
    rw [‹t.producer = _›] at he haccepts
    exact ⟨hinv, h.consumers, h.head, h.dequeued, fun _ => ⟨he, henqueued, hrefused, haccepts⟩,
      fun hpc => by cases hpc⟩

theorem length_waiting (h : Inv T s) :
    s.headIndex + (s.enqueued.drop s.headIndex).length = s.tailIndex := by
  rw [List.length_drop, ← h.counters.tail]
  exact Nat.add_sub_cancel' h.counters.head_le

theorem spec_full (h : Inv T s) (htail : s.tailIndex = s.segments.length * T.blockSize) :
    s.spec.Full T ↔ min T.poolSize T.indexSize ≤ s.used T := by
  have hlength := length_waiting h
  have hdiv : s.tailIndex / T.blockSize = s.segments.length := by
    rw [htail]
    exact Nat.mul_div_cancel _ T.blockSize_pos
  unfold Spec.Full State.spec State.used
  simp only [hlength, hdiv]
  refine ⟨fun hfull => hfull.2, fun hle => ⟨?_, hle⟩⟩
  rw [htail]
  exact Nat.mul_mod_left _ _

/-- The call begins where no other is in progress. -/
theorem enqueueing_start (h : Inv T s) (hq : Quiescent s) (e : α) :
    Enqueueing T s e (¬s.spec.Full T) (startEnqueue T s e) := by
  have hinv := inv_producer h (ProducerMove.of_start hq.1 e)
  have hat := h.atProducer
  rw [hq.1] at hat
  unfold startEnqueue at hinv ⊢
  by_cases hmod : s.tailIndex % T.blockSize = 0
  · have htail := eq_of_idle h hat.1 hmod
    have hhead : s.headIndex < s.tailIndex + T.blockSize :=
      Nat.lt_of_le_of_lt h.counters.head_le (Nat.lt_add_of_pos_right T.blockSize_pos)
    rw [if_pos hmod, if_pos hhead] at hinv ⊢
    refine ⟨hinv, rfl, rfl, rfl, fun _ => ⟨rfl, rfl, rfl, ?_⟩, fun hpc => by cases hpc⟩
    rw [spec_full h htail, Nat.not_le, Nat.lt_min]
    exact (and_congr (hq.free_iff h) (hq.available_iff h)).trans and_comm
  · rw [if_neg hmod] at hinv ⊢
    refine ⟨hinv, rfl, rfl, rfl, fun _ => ⟨rfl, rfl, rfl, ?_⟩, fun hpc => by cases hpc⟩
    refine iff_of_true trivial fun hfull => hmod ?_
    rw [← length_waiting h]
    exact hfull.1

/-- The call has ended. -/
theorem enqueueing_done (h : Inv T s) (hq : Quiescent s)
    (ht : Enqueueing T s e (¬s.spec.Full T) t) (hidle : t.producer = .idle) :
    Quiescent t ∧ t.spec = s.spec.call T (.tryEnqueue e) := by
  have hhead := h.counters.head_le
  rw [h.counters.tail] at hhead
  refine ⟨⟨hidle, fun c => by rw [ht.consumers]; exact hq.2 c⟩, ?_⟩
  unfold Spec.call
  dsimp only
  rcases ht.done hidle with ⟨haccepted, henqueued, hrefused⟩ | ⟨hfull, henqueued, hrefused⟩
  · rw [if_neg haccepted]
    unfold State.spec
    rw [ht.head, ht.dequeued, henqueued, hrefused, List.drop_append_of_le_length hhead]
  · rw [if_pos (not_not.mp hfull)]
    unfold State.spec
    rw [ht.head, ht.dequeued, henqueued, hrefused]

end Enqueue

section Dequeue

/-- How many steps `try_dequeue` still takes at most. -/
def Consumer.rank : Consumer α → ℕ
  | idle => 0
  | addToFreeList _ _ _ => 1
  | unlink _ _ _ _ => 2
  | setEmpty _ _ _ _ => 3
  | move _ _ _ => 4
  | loadValue _ _ => 5
  | loadKey _ _ => 6
  | loadIndexTail _ => 7
  | addHead _ => 8
  | addOvercommit _ => 8
  | reloadTail _ _ => 9
  | addOptimistic _ => 10
  | loadOptimistic _ _ => 11
  | loadOvercommit _ => 12
  | loadTail => 13
  | sizeHead _ => 14

/-- No index is claimed yet. -/
def Unclaimed (s t : State κ α) : Prop :=
  t.headIndex = s.headIndex ∧ t.dequeued = s.dequeued

/-- Nor has the call incremented a counter. -/
def Untouched (s t : State κ α) : Prop :=
  Unclaimed s t ∧ t.dequeueOptimisticCount = s.dequeueOptimisticCount ∧
    t.dequeueOvercommit = s.dequeueOvercommit

/-- The call has claimed the first of the elements that wait. -/
def Claimed (s t : State κ α) (index : ℕ) : Prop :=
  s.headIndex < s.tailIndex ∧ index = s.headIndex ∧ t.headIndex = s.headIndex + 1 ∧
    t.dequeued = s.dequeued

/-- What holds where a call of `try_dequeue` is that began in `s`. -/
def AtCall (s t : State κ α) (c : κ) : Consumer α → Prop
  | .idle => (t.headIndex, t.dequeued) =
      match s.enqueued[s.headIndex]? with
      | none => (s.headIndex, s.dequeued)
      | some e => (s.headIndex + 1, s.dequeued ++ [(c, s.headIndex, e)])
  | .sizeHead tail => Untouched s t ∧ tail = s.tailIndex
  | .loadTail => Untouched s t ∧ s.headIndex < s.tailIndex
  | .loadOvercommit tail => Untouched s t ∧ s.headIndex < s.tailIndex ∧ tail = s.tailIndex
  | .loadOptimistic tail overcommit => Untouched s t ∧ s.headIndex < s.tailIndex ∧
      tail = s.tailIndex ∧ overcommit = s.dequeueOvercommit
  | .addOptimistic overcommit => Untouched s t ∧ s.headIndex < s.tailIndex ∧
      overcommit = s.dequeueOvercommit
  | .reloadTail overcommit my => Unclaimed s t ∧ s.headIndex < s.tailIndex ∧
      overcommit = s.dequeueOvercommit ∧ my = s.dequeueOptimisticCount
  | .addOvercommit _ => False
  | .addHead _ => Unclaimed s t ∧ s.headIndex < s.tailIndex
  | .loadIndexTail index => Claimed s t index
  | .loadKey index _ => Claimed s t index
  | .loadValue index _ => Claimed s t index
  | .move index _ _ => Claimed s t index
  | .setEmpty index _ _ _ => Claimed s t index
  | .unlink index _ _ _ => Claimed s t index
  | .addToFreeList index _ _ => Claimed s t index

/-- A call of `try_dequeue` that began in `s` and takes its steps alone. -/
structure Dequeueing (T : Traits) (s : State κ α) (c : κ) (t : State κ α) : Prop where
  inv : Inv T t
  producer : t.producer = s.producer
  others : ∀ c', c' ≠ c → t.consumers c' = s.consumers c'
  tail : t.tailIndex = s.tailIndex
  enqueued : t.enqueued = s.enqueued
  refused : t.refused = s.refused
  atCall : AtCall s t c (t.consumers c)

variable [DecidableEq κ] {c : κ}

theorem rank_consumer (hmove : ConsumerMove T t c u) :
    (u.consumers c).rank < (t.consumers c).rank := by
  cases hmove <;> rw [‹t.consumers c = _›] <;>
    simp [State.setConsumer, State.return, Consumer.rank]

omit [DecidableEq κ] in
theorem done_of_claimed {i : ℕ} (hclaimed : Claimed s t i) (he : s.enqueued[i]? = some e)
    (hhead : u.headIndex = t.headIndex) (hdequeued : u.dequeued = t.dequeued ++ [(c, i, e)]) :
    AtCall s u c .idle := by
  obtain ⟨-, rfl, hhead', hdequeued'⟩ := hclaimed
  unfold AtCall
  rw [he]
  dsimp only
  rw [hhead, hhead', hdequeued, hdequeued']

theorem atCall_consumer (hs : Inv T s) (hq : Quiescent s) (h : Dequeueing T s c t)
    (hmove : ConsumerMove T t c u) : AtCall s u c (u.consumers c) := by
  have hat := h.atCall
  have hknown := h.inv.atConsumer c
  have hoptimistic := hq.optimistic hs
  cases hmove with
  | sizeZero hpc hge =>
    rw [hpc] at hat
    obtain ⟨⟨⟨hhead, hdequeued⟩, -, -⟩, rfl⟩ := hat
    rw [hhead, hs.counters.tail] at hge
    simp only [State.setConsumer, Function.update_self, AtCall]
    rw [List.getElem?_eq_none hge, hhead, hdequeued]
  | sizePositive hpc hlt =>
    rw [hpc] at hat
    obtain ⟨huntouched, rfl⟩ := hat
    rw [huntouched.1.1] at hlt
    simp only [State.setConsumer, Function.update_self]
    exact ⟨huntouched, hlt⟩
  | loadTail hpc =>
    rw [hpc] at hat
    simp only [State.setConsumer, Function.update_self]
    exact ⟨hat.1, hat.2, h.tail⟩
  | loadOvercommit hpc =>
    rw [hpc] at hat
    simp only [State.setConsumer, Function.update_self]
    exact ⟨hat.1, hat.2.1, hat.2.2, hat.1.2.2⟩
  | loadOptimistic hpc =>
    rw [hpc] at hat
    simp only [State.setConsumer, Function.update_self]
    exact ⟨hat.1, hat.2.1, hat.2.2.2⟩
  | giveUp hpc hge =>
    rw [hpc] at hat
    obtain ⟨⟨-, hopt, -⟩, hlt, rfl, rfl⟩ := hat
    omega
  | addOptimistic hpc =>
    rw [hpc] at hat
    obtain ⟨⟨hunclaimed, hopt, -⟩, hlt, hover⟩ := hat
    simp only [State.setConsumer, Function.update_self]
    exact ⟨hunclaimed, hlt, hover, hopt⟩
  | grant hpc hlt =>
    rw [hpc] at hat
    simp only [State.setConsumer, Function.update_self]
    exact ⟨hat.1, hat.2.1⟩
  | refuse hpc hge =>
    rw [hpc] at hat
    obtain ⟨-, hlt, rfl, rfl⟩ := hat
    rw [h.tail] at hge
    omega
  | addOvercommit hpc =>
    rw [hpc] at hat
    exact hat.elim
  | addHead hpc =>
    rw [hpc] at hat
    obtain ⟨⟨hhead, hdequeued⟩, hlt⟩ := hat
    simp only [State.setConsumer, Function.update_self]
    exact ⟨hlt, hhead, congrArg (· + 1) hhead, hdequeued⟩
  | setEmpty hpc hne =>
    rw [hpc] at hat hknown
    simp only [State.return, State.setConsumer, Function.update_self]
    exact done_of_claimed hat (by rw [← h.enqueued]; exact hknown.2.2) rfl rfl
  | addToFreeList hpc =>
    rw [hpc] at hat hknown
    simp only [State.return, State.setConsumer, Function.update_self]
    exact done_of_claimed hat (by rw [← h.enqueued]; exact hknown) rfl rfl
  | _ =>
    rw [‹t.consumers c = _›] at hat
    simp only [State.setConsumer, Function.update_self]
    exact hat

theorem dequeueing_step (hs : Inv T s) (hq : Quiescent s) (h : Dequeueing T s c t)
    (hmove : ConsumerMove T t c u) : Dequeueing T s c u where
  inv := inv_consumer h.inv hmove
  producer := (producerKept_consumer h.inv hmove).producer.trans h.producer
  others c' hc' := (hmove.consumers_ne hc').trans (h.others c' hc')
  tail := (producerKept_consumer h.inv hmove).tail.trans h.tail
  enqueued := by cases hmove <;> exact h.enqueued
  refused := by cases hmove <;> exact h.refused
  atCall := atCall_consumer hs hq h hmove

theorem dequeueing_start (h : Inv T s) (hq : Quiescent s) (c : κ) :
    Dequeueing T s c (s.setConsumer c (.sizeHead s.tailIndex)) := by
  refine ⟨inv_start h (hq.2 c), rfl, fun c' hc' => Function.update_of_ne hc' _ _, rfl, rfl, rfl, ?_⟩
  simp only [State.setConsumer, Function.update_self]
  exact ⟨⟨⟨rfl, rfl⟩, rfl, rfl⟩, rfl⟩

omit [DecidableEq κ] in
theorem dequeueing_done (hq : Quiescent s) (ht : Dequeueing T s c t)
    (hidle : t.consumers c = .idle) :
    Quiescent t ∧ t.spec = s.spec.call T (.tryDequeue c) := by
  refine ⟨⟨ht.producer.trans hq.1, fun c' => ?_⟩, ?_⟩
  · by_cases hc' : c' = c
    · rw [hc', hidle]
    · rw [ht.others c' hc', hq.2 c']
  · have hat := ht.atCall
    rw [hidle, AtCall] at hat
    unfold Spec.call State.spec
    dsimp only
    rw [ht.enqueued, ht.refused]
    cases hget : s.enqueued[s.headIndex]? with
    | none =>
      rw [hget] at hat
      obtain ⟨hhead, hdequeued⟩ := Prod.mk.inj hat
      rw [List.drop_eq_nil_of_le (List.getElem?_eq_none_iff.mp hget), hhead, hdequeued,
        List.drop_eq_nil_of_le (List.getElem?_eq_none_iff.mp hget)]
    | some e =>
      rw [hget] at hat
      obtain ⟨hhead, hdequeued⟩ := Prod.mk.inj hat
      obtain ⟨hlt, rfl⟩ := List.getElem?_eq_some_iff.mp hget
      rw [hhead, hdequeued, List.drop_eq_getElem_cons hlt]

end Dequeue

section Calls
variable [DecidableEq κ]

/-- One call is in progress, or none. The call will leave what the list does. -/
inductive Ongoing (T : Traits) (q : Spec κ α) (t : State κ α) : Prop
  | quiescent (h : Inv T t) (hq : Quiescent t) (hspec : t.spec = q)
  | enqueue {s : State κ α} {e : α} (h : Inv T s) (hq : Quiescent s)
      (hspec : s.spec.call T (.tryEnqueue e) = q)
      (ht : Enqueueing T s e (¬s.spec.Full T) t) (hbusy : t.producer ≠ .idle)
  | dequeue {s : State κ α} {c : κ} (h : Inv T s) (hq : Quiescent s)
      (hspec : s.spec.call T (.tryDequeue c) = q) (ht : Dequeueing T s c t)
      (hbusy : t.consumers c ≠ .idle)

variable {q : Spec κ α} {l : Label κ α}

omit [DecidableEq κ] in
theorem Ongoing.of_enqueueing (h : Inv T s) (hq : Quiescent s)
    (hspec : s.spec.call T (.tryEnqueue e) = q) (ht : Enqueueing T s e (¬s.spec.Full T) t) :
    Ongoing T q t := by
  by_cases hidle : t.producer = .idle
  · obtain ⟨hqt, hspec'⟩ := enqueueing_done h hq ht hidle
    exact .quiescent ht.inv hqt (hspec'.trans hspec)
  · exact .enqueue h hq hspec ht hidle

omit [DecidableEq κ] in
theorem Ongoing.of_dequeueing {c : κ} (h : Inv T s) (hq : Quiescent s)
    (hspec : s.spec.call T (.tryDequeue c) = q) (ht : Dequeueing T s c t) : Ongoing T q t := by
  by_cases hidle : t.consumers c = .idle
  · obtain ⟨hqt, hspec'⟩ := dequeueing_done hq ht hidle
    exact .quiescent ht.inv hqt (hspec'.trans hspec)
  · exact .dequeue h hq hspec ht hidle

omit [DecidableEq κ] in
theorem Ongoing.spec_eq (h : Ongoing T q t) (hq : Quiescent t) : t.spec = q := by
  cases h with
  | quiescent _ _ hspec => exact hspec
  | enqueue _ _ _ _ hbusy => exact absurd hq.1 hbusy
  | dequeue _ _ _ _ hbusy => exact absurd (hq.2 _) hbusy

/-- The calls of a run do not overlap. -/
def OneAtATime (s : State κ α) (l : Label κ α) : Prop := l.call ≠ none → Quiescent s

theorem ongoing_step (h : Ongoing T q t) (hone : OneAtATime t l) (hstep : step T t l = some u) :
    Ongoing T (l.call.elim q (q.call T)) u := by
  cases l with
  | enqueue e =>
    have hq := hone (by simp [Label.call])
    have hspec := h.spec_eq hq
    cases h with
    | quiescent hinv _ _ =>
      simp only [step, hq.1, Option.some.injEq] at hstep
      subst hstep
      exact .of_enqueueing hinv hq (by rw [hspec]; rfl) (enqueueing_start hinv hq e)
    | enqueue _ _ _ _ hbusy => exact absurd hq.1 hbusy
    | dequeue _ _ _ _ hbusy => exact absurd (hq.2 _) hbusy
  | dequeue c =>
    have hq := hone (by simp [Label.call])
    have hspec := h.spec_eq hq
    cases h with
    | quiescent hinv _ _ =>
      simp only [step, hq.2 c, Option.some.injEq] at hstep
      subst hstep
      exact .of_dequeueing hinv hq (by rw [hspec]; rfl) (dequeueing_start hinv hq c)
    | enqueue _ _ _ _ hbusy => exact absurd hq.1 hbusy
    | dequeue _ _ _ _ hbusy => exact absurd (hq.2 _) hbusy
  | producer =>
    cases h with
    | quiescent _ hq _ =>
      simp only [step, producerStep, hq.1] at hstep
      cases hstep
    | enqueue hinv hq hspec ht hbusy =>
      exact .of_enqueueing hinv hq hspec (enqueueing_step ht (.of_step hstep) hbusy)
    | dequeue _ hq _ ht _ =>
      simp only [step, producerStep, ht.producer, hq.1] at hstep
      cases hstep
  | consumer c =>
    cases h with
    | quiescent _ hq _ =>
      simp only [step, consumerStep, hq.2 c] at hstep
      cases hstep
    | enqueue _ hq _ ht _ =>
      simp only [step, consumerStep, ht.consumers, hq.2 c] at hstep
      cases hstep
    | @dequeue s c' hinv hq hspec ht hbusy =>
      by_cases hc : c = c'
      · subst hc
        exact .of_dequeueing hinv hq hspec (dequeueing_step hinv hq ht (.of_step hstep))
      · simp only [step, consumerStep, ht.others c hc, hq.2 c] at hstep
        cases hstep

theorem ongoing_exec {ls : List (Label κ α)} (h : Ongoing T q t)
    (hone : Meets (step T) OneAtATime t ls) (hrun : exec (step T) t ls = some u) :
    Ongoing T ((ls.filterMap Label.call).foldl (Spec.call T) q) u := by
  induction ls generalizing t q with
  | nil =>
    obtain rfl := Option.some.inj hrun
    exact h
  | cons l ls ih =>
    obtain ⟨v, hv, hrun⟩ := exec_cons.mp hrun
    have hnext := ih (ongoing_step h hone.1 hv) (hone.2 v hv) hrun
    rw [List.filterMap_cons]
    cases hcall : l.call with
    | none => rw [hcall] at hnext; exact hnext
    | some call => rw [hcall] at hnext; exact hnext

omit [DecidableEq κ] in
theorem quiescent_init : Quiescent (init T κ α) := ⟨rfl, fun _ => rfl⟩

/-- A call in progress comes to its end. -/
theorem ongoing_returns (h : Ongoing T q t) :
    ∃ ls u, exec (step T) t ls = some u ∧ Quiescent u ∧ ∀ l ∈ ls, l.call = none := by
  cases h with
  | quiescent _ hq _ => exact ⟨[], t, rfl, hq, by simp⟩
  | @enqueue s e hinv hq _ ht _ =>
    have hstep : ∀ t, Enqueueing T s e (¬s.spec.Full T) t → t.producer ≠ .idle →
        ∃ u, step T t .producer = some u ∧ Enqueueing T s e (¬s.spec.Full T) u ∧
          u.producer.rank < t.producer.rank := by
      intro t ht hbusy
      obtain ⟨u, hu⟩ := Option.isSome_iff_exists.mp (producerStep_isSome ht.inv hbusy)
      have hmove := ProducerMove.of_step hu
      exact ⟨u, hu, enqueueing_step ht hmove hbusy, rank_producer hmove hbusy⟩
    obtain ⟨n, u, hu, hI, hdone⟩ := exec_until _ _ hstep ht
    refine ⟨_, u, hu, (enqueueing_done hinv hq hI (not_not.mp hdone)).1, fun l hl => ?_⟩
    rw [List.eq_of_mem_replicate hl]
    rfl
  | @dequeue s c hinv hq _ ht _ =>
    have hstep : ∀ t, Dequeueing T s c t → t.consumers c ≠ .idle →
        ∃ u, step T t (.consumer c) = some u ∧ Dequeueing T s c u ∧
          (u.consumers c).rank < (t.consumers c).rank := by
      intro t ht hbusy
      obtain ⟨u, hu⟩ := Option.isSome_iff_exists.mp (consumerStep_isSome ht.inv hbusy)
      have hmove := ConsumerMove.of_step hu
      exact ⟨u, hu, dequeueing_step hinv hq ht hmove, rank_consumer hmove⟩
    obtain ⟨n, u, hu, hI, hdone⟩ := exec_until _ _ hstep ht
    refine ⟨_, u, hu, (dequeueing_done hq hI (not_not.mp hdone)).1, fun l hl => ?_⟩
    rw [List.eq_of_mem_replicate hl]
    rfl

/-- Any calls can be made one after the other: each of them returns. -/
theorem calls_return (calls : List (Call κ α)) :
    ∃ ls t, exec (step T) (init T κ α) ls = some t ∧
      Meets (step T) OneAtATime (init T κ α) ls ∧ Quiescent t ∧
      ls.filterMap Label.call = calls := by
  induction calls using List.reverseRecOn with
  | nil => exact ⟨[], _, rfl, trivial, quiescent_init, rfl⟩
  | append_singleton calls call ih =>
    obtain ⟨ls, t, hrun, hone, hq, hcalls⟩ := ih
    have honging := ongoing_exec (.quiescent inv_init quiescent_init rfl) hone hrun
    obtain ⟨l, u, hl, hu⟩ : ∃ l u, l.call = some call ∧ step T t l = some u := by
      cases call with
      | tryEnqueue e => exact ⟨.enqueue e, startEnqueue T t e, rfl, by simp [step, hq.1]⟩
      | tryDequeue c =>
        exact ⟨.dequeue c, t.setConsumer c (.sizeHead t.tailIndex), rfl, by simp [step, hq.2 c]⟩
    have hnext := ongoing_step honging (fun _ => hq) hu
    obtain ⟨ms, v, hms, hqv, hnone⟩ := ongoing_returns hnext
    refine ⟨ls ++ l :: ms, v, exec_append.mpr ⟨t, hrun, exec_cons.mpr ⟨u, hu, hms⟩⟩,
      meets_append.mpr ⟨hone, fun t' ht' => ?_⟩, hqv, ?_⟩
    · obtain rfl := Option.some.inj (hrun.symm.trans ht')
      refine ⟨fun _ => hq, fun u' _ => ?_⟩
      exact (meets_of_forall hnone).mono fun _ l hl hne => absurd hl hne
    · have hms' : ms.filterMap Label.call = [] := List.filterMap_eq_nil_iff.mpr hnone
      rw [List.filterMap_append, List.filterMap_cons, hl, hcalls, hms']

/-- Calls that do not overlap do what they do to a list. -/
theorem refines_spec {ls : List (Label κ α)} (hrun : exec (step T) (init T κ α) ls = some s)
    (hone : Meets (step T) OneAtATime (init T κ α) ls) (hq : Quiescent s) :
    s.spec = (ls.filterMap Label.call).foldl (Spec.call T) ⟨0, [], [], []⟩ :=
  (ongoing_exec (.quiescent inv_init quiescent_init rfl) hone hrun).spec_eq hq

/-- The third element finds no block, and an element of the second block is behind it. -/
theorem refines_spec_small : ∃ ls s, exec (step small) (init small ℕ ℕ) ls = some s ∧
    ls.filterMap Label.call = (List.range 5).map .tryEnqueue ++ [.tryDequeue 7] ∧
    s.spec = ⟨1, [1, 2, 3], [(7, 0, 0)], [4]⟩ := by
  obtain ⟨ls, s, hrun, hone, hq, hcalls⟩ :=
    calls_return (T := small) ((List.range 5).map .tryEnqueue ++ [.tryDequeue 7])
  refine ⟨ls, s, hrun, hcalls, ?_⟩
  rw [refines_spec hrun hone hq, hcalls]
  rfl

end Calls

section Capacity

/-- The elements that wait fit into the blocks, and into the entries of the index. -/
theorem Inv.waiting_le (h : Inv T s) :
    s.tailIndex - s.headIndex ≤ min T.poolSize T.indexSize * T.blockSize := by
  have hused := Nat.mul_le_mul_right T.blockSize h.used_le
  have hdiv := Nat.div_mul_le_self s.headIndex T.blockSize
  have htail := h.index.tail_le
  rw [State.used, Nat.sub_mul] at hused
  omega

/-- The last of the blocks is not needed. -/
theorem not_full {q : Spec κ α}
    (hlength : q.items.length + T.blockSize ≤ min T.poolSize T.indexSize * T.blockSize) :
    ¬q.Full T := by
  rintro ⟨hmod, hle⟩
  have hmul := Nat.mul_le_mul_right T.blockSize hle
  have htail := Nat.div_add_mod' (q.first + q.items.length) T.blockSize
  have hfirst := Nat.div_add_mod' q.first T.blockSize
  have hlt := Nat.mod_lt q.first T.blockSize_pos
  rw [Nat.sub_mul] at hmul
  have hB := T.blockSize_pos
  omega

/-- With as many elements as there are places, the first of them is the first of a block. -/
theorem Inv.full (h : Inv T s)
    (hlength : s.spec.items.length = min T.poolSize T.indexSize * T.blockSize) :
    s.spec.Full T := by
  have hB := T.blockSize_pos
  have htail := length_waiting h
  change (s.enqueued.drop s.headIndex).length = _ at hlength
  rw [hlength] at htail
  have hhead : s.headIndex % T.blockSize = 0 := by
    have hused := Nat.mul_le_mul_right T.blockSize h.used_le
    have hle := h.index.tail_le
    have hdivmod := Nat.div_add_mod' s.headIndex T.blockSize
    rw [State.used, Nat.sub_mul] at hused
    omega
  unfold Spec.Full State.spec
  simp only [hlength]
  rw [Nat.add_mul_mod_self_right, Nat.add_mul_div_right _ _ hB, Nat.add_sub_cancel_left]
  exact ⟨hhead, Nat.le_refl _⟩

/-- `try_enqueue(e)` is called in `s` and returns in `t`, and no other call overlaps it. -/
def EnqueueReturns [DecidableEq κ] (T : Traits) (s : State κ α) (e : α) (t : State κ α) : Prop :=
  ∃ ls, exec (step T) s (.enqueue e :: ls) = some t ∧ (∀ l ∈ ls, l.call = none) ∧ Quiescent t

section
variable [DecidableEq κ]

theorem exists_enqueueReturns (h : Inv T s) (hq : Quiescent s) (e : α) :
    ∃ t, EnqueueReturns T s e t := by
  have hstep : step T s (.enqueue e) = some (startEnqueue T s e) := by simp [step, hq.1]
  have hnext := ongoing_step (.quiescent h hq rfl) (fun _ => hq) hstep
  obtain ⟨ls, t, hls, hqt, hnone⟩ := ongoing_returns hnext
  exact ⟨t, ls, exec_cons.mpr ⟨_, hstep, hls⟩, hnone, hqt⟩

/-- The call does what it does to a list. -/
theorem spec_enqueueReturns (h : Inv T s) (hq : Quiescent s) (ht : EnqueueReturns T s e t) :
    t.spec = s.spec.call T (.tryEnqueue e) := by
  obtain ⟨ls, hrun, hnone, hqt⟩ := ht
  have hone : Meets (step T) OneAtATime s (.enqueue e :: ls) :=
    ⟨fun _ => hq, fun _ _ => (meets_of_forall hnone).mono fun _ l hl hne => absurd hl hne⟩
  have hspec := (ongoing_exec (.quiescent h hq rfl) hone hrun).spec_eq hqt
  rw [List.filterMap_cons, List.filterMap_eq_nil_iff.mpr hnone] at hspec
  exact hspec

end

/-- Whatever calls are in progress, no more elements wait than there are places in the blocks,
or in those that the index has entries for. A call that no other one overlaps enqueues its
element while there is a block to spare, and refuses it when all places are in use. -/
theorem capacity [DecidableEq κ] {ls : List (Label κ α)}
    (hrun : exec (step T) (init T κ α) ls = some s) :
    s.tailIndex - s.headIndex ≤ min T.poolSize T.indexSize * T.blockSize ∧
    (Quiescent s → ∀ e, (∃ t, EnqueueReturns T s e t) ∧ ∀ t, EnqueueReturns T s e t →
      (s.tailIndex - s.headIndex + T.blockSize ≤ min T.poolSize T.indexSize * T.blockSize →
        t.spec.items = s.spec.items ++ [e] ∧ t.refused = s.refused) ∧
      (s.tailIndex - s.headIndex = min T.poolSize T.indexSize * T.blockSize →
        t.spec.items = s.spec.items ∧ t.refused = s.refused ++ [e])) := by
  obtain ⟨h, -⟩ := inv_exec hrun
  refine ⟨h.waiting_le, fun hq e => ⟨exists_enqueueReturns h hq e, fun t ht => ?_⟩⟩
  have hlength : s.spec.items.length = s.tailIndex - s.headIndex := by
    have hwaiting := length_waiting h
    change (s.enqueued.drop s.headIndex).length = _
    omega
  have hspec := spec_enqueueReturns h hq ht
  have hrefused : t.refused = t.spec.refused := rfl
  constructor
  · intro hspare
    have hfull : ¬s.spec.Full T := not_full (by omega)
    rw [Spec.call, if_neg hfull] at hspec
    rw [hrefused, hspec]
    exact ⟨rfl, rfl⟩
  · intro hall
    have hfull : s.spec.Full T := h.full (hlength.trans hall)
    rw [Spec.call, if_pos hfull] at hspec
    rw [hrefused, hspec]
    exact ⟨rfl, rfl⟩

/-- The fifth element is refused. -/
theorem capacity_small : ∃ ls s t, exec (step small) (init small ℕ ℕ) ls = some s ∧
    s.spec.items = [0, 1, 2, 3] ∧ s.tailIndex - s.headIndex ≤ 4 ∧
    EnqueueReturns small s 4 t ∧ t.spec.items = [0, 1, 2, 3] ∧ t.refused = [4] := by
  obtain ⟨ls, s, hrun, hone, hq, hcalls⟩ :=
    calls_return (κ := ℕ) (T := small) ((List.range 4).map .tryEnqueue)
  have hspec := (ongoing_exec (.quiescent inv_init quiescent_init rfl) hone hrun).spec_eq hq
  rw [hcalls] at hspec
  have hitems : s.spec.items = [0, 1, 2, 3] := by rw [hspec]; rfl
  have hnone : s.refused = [] := congrArg Spec.refused hspec
  have hwaiting := length_waiting (inv_exec hrun).1
  have hlength : (s.enqueued.drop s.headIndex).length = 4 := congrArg List.length hitems
  obtain ⟨hle, hcall⟩ := capacity hrun
  obtain ⟨⟨t, ht⟩, hreturns⟩ := hcall hq 4
  obtain ⟨hitems', hrefused⟩ := (hreturns t ht).2 (by change _ = 2 * 2; omega)
  exact ⟨ls, s, t, hrun, hitems, hle, ht, hitems'.trans hitems, by rw [hrefused, hnone]; rfl⟩

end Capacity

end ConcurrentQueue
end HVBench
