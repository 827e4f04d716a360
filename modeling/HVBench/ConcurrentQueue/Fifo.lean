import HVBench.ConcurrentQueue.ConsumerSteps

/-! What the calls of `try_dequeue` return in a run. -/
namespace HVBench
namespace ConcurrentQueue
open Transition Holding
variable {κ α : Type} [DecidableEq κ] {T : Traits} {s t : State κ α} {c : κ}

/-- The indices a thread has returned the elements of, in the order of its calls. -/
def State.indices (s : State κ α) (c : κ) : List ℕ :=
  (s.dequeued.filter fun d => d.1 = c).map fun d => d.2.1

structure Delivered (s : State κ α) : Prop where
  element : ∀ c i e, (c, i, e) ∈ s.dequeued → s.enqueued[i]? = some e ∧
    s.slots[i]? = some .returned
  nodup : (s.dequeued.map fun d => d.2.1).Nodup
  all : ∀ i : ℕ, s.slots[i]? = some .returned → ∃ c e, (c, i, e) ∈ s.dequeued
  order : ∀ c, (s.indices c).Pairwise (· < ·)
  /-- What a thread is dequeuing comes after what it has returned. -/
  later : ∀ c i e j x, (c, i, e) ∈ s.dequeued → (s.consumers c).slot c = some (j, x) → i < j

theorem delivered_init : Delivered (init T κ α) where
  element c i e h := by simp [init] at h
  nodup := List.nodup_nil
  all i h := by simp [init] at h
  order c := List.Pairwise.nil
  later c i e j x h := by simp [init] at h

/-- No element returned is in the hands of a thread. -/
theorem Delivered.not_held (hd : Delivered s) {i : ℕ} {x : Slot κ} (hi : s.slots[i]? = some x)
    (hx : x ≠ .returned) : i ∉ s.dequeued.map fun d => d.2.1 := by
  intro hmem
  obtain ⟨⟨c', i', e'⟩, hd', rfl⟩ := List.mem_map.mp hmem
  exact hx (Option.some.inj (hi.symm.trans (hd.element c' i' e' hd').2))

/-- A step with no return. -/
theorem Delivered.of_eq (hd : Delivered s) (hdequeued : t.dequeued = s.dequeued)
    (henqueued : ∀ (i : ℕ) e, s.enqueued[i]? = some e → t.enqueued[i]? = some e)
    (hslots : ∀ i : ℕ, t.slots[i]? = some .returned ↔ s.slots[i]? = some .returned)
    (hlater : ∀ c i e j x, (c, i, e) ∈ s.dequeued → (t.consumers c).slot c = some (j, x) → i < j) :
    Delivered t where
  element c i e hmem := by
    rw [hdequeued] at hmem
    obtain ⟨he, hi⟩ := hd.element c i e hmem
    exact ⟨henqueued i e he, (hslots i).mpr hi⟩
  nodup := by rw [hdequeued]; exact hd.nodup
  all i hi := by rw [hdequeued]; exact hd.all i ((hslots i).mp hi)
  order c := by rw [State.indices, hdequeued]; exact hd.order c
  later c i e j x hmem := by
    rw [hdequeued] at hmem
    exact hlater c i e j x hmem

/-- The call of a thread returns the element it holds. -/
theorem Delivered.return (hd : Delivered s) {i : ℕ} {e : α} {x : Slot κ}
    (hpc : (s.consumers c).slot c = some (i, x)) (hi : s.slots[i]? = some x) (hx : x ≠ .returned)
    (he : s.enqueued[i]? = some e) (hdequeued : t.dequeued = s.dequeued ++ [(c, i, e)])
    (henqueued : t.enqueued = s.enqueued) (hslots : t.slots = s.slots.set i .returned)
    (hconsumers : t.consumers = Function.update s.consumers c .idle) : Delivered t := by
  have hlt := (List.getElem?_eq_some_iff.mp hi).1
  have hnew := hd.not_held hi hx
  refine ⟨fun c' j e' hmem => ?_, ?_, fun j hj => ?_, fun c' => ?_, fun c' j e' k y hmem hk => ?_⟩
  · rw [henqueued, hslots]
    rw [hdequeued, List.mem_append, List.mem_singleton] at hmem
    rcases hmem with hmem | heq
    · obtain ⟨he', hj⟩ := hd.element c' j e' hmem
      have hij : i ≠ j := by
        rintro rfl
        exact hnew (List.mem_map.mpr ⟨_, hmem, rfl⟩)
      exact ⟨he', by rw [List.getElem?_set_ne hij]; exact hj⟩
    · cases heq
      exact ⟨he, List.getElem?_set_self hlt⟩
  · rw [hdequeued, List.map_append, List.nodup_append]
    refine ⟨hd.nodup, List.nodup_singleton _, fun j hj k hk hjk => ?_⟩
    rw [List.map_singleton, List.mem_singleton] at hk
    rw [hjk, hk] at hj
    exact hnew hj
  · rw [hdequeued]
    rw [hslots] at hj
    by_cases hij : i = j
    · subst hij
      exact ⟨c, e, by simp⟩
    · rw [List.getElem?_set_ne hij] at hj
      obtain ⟨c', e', hmem⟩ := hd.all j hj
      exact ⟨c', e', List.mem_append_left _ hmem⟩
  · rw [State.indices, hdequeued, List.filter_append, List.map_append]
    by_cases hc : c = c'
    · subst hc
      refine List.pairwise_append.mpr ⟨hd.order c, ?_, fun j hj k hk => ?_⟩
      · rw [List.filter_cons_of_pos (by simp)]
        exact List.pairwise_singleton _ _
      · obtain ⟨⟨c', j', e'⟩, hfilter, rfl⟩ := List.mem_map.mp hj
        obtain ⟨hmem, hc'⟩ := List.mem_filter.mp hfilter
        simp only [decide_eq_true_eq] at hc'
        subst hc'
        simp only [List.filter_cons_of_pos, decide_true, List.filter_nil, List.map_singleton,
          List.mem_singleton] at hk
        rw [hk]
        exact hd.later _ j' e' i x hmem hpc
    · rw [List.filter_cons_of_neg (by simpa using hc), List.filter_nil, List.map_nil,
        List.append_nil]
      exact hd.order c'
  · rw [hconsumers] at hk
    rw [hdequeued, List.mem_append, List.mem_singleton] at hmem
    have hne : c' ≠ c := by
      rintro rfl
      rw [Function.update_self] at hk
      cases hk
    rw [Function.update_of_ne hne] at hk
    rcases hmem with hmem | heq
    · exact hd.later c' j e' k y hmem hk
    · cases heq
      exact absurd rfl hne

theorem delivered_consumer (h : Inv T s) (hd : Delivered s) (hmove : ConsumerMove T s c t) :
    Delivered t := by
  -- a thread that holds no new index
  have hlater : ∀ {pc : Consumer α}, (∀ j x, pc.slot c = some (j, x) →
      ∃ x', (s.consumers c).slot c = some (j, x')) →
      ∀ c' (i : ℕ) e j x, (c', i, e) ∈ s.dequeued →
        (Function.update s.consumers c pc c').slot c' = some (j, x) → i < j := by
    intro pc hpc c' i e j x hmem hx
    by_cases hc : c' = c
    · subst hc
      rw [Function.update_self] at hx
      obtain ⟨x', hx'⟩ := hpc j x hx
      exact hd.later c' i e j x' hmem hx'
    · rw [Function.update_of_ne hc] at hx
      exact hd.later c' i e j x hmem hx
  have hset : ∀ {i : ℕ} {x y : Slot κ}, s.slots[i]? = some x → x ≠ .returned → y ≠ .returned →
      ∀ j : ℕ, (s.slots.set i y)[j]? = some .returned ↔ s.slots[j]? = some .returned := by
    intro i x y hi hx hy j
    by_cases hij : i = j
    · subst hij
      rw [List.getElem?_set_self (List.getElem?_eq_some_iff.mp hi).1, hi]
      simp [hx, hy]
    · rw [List.getElem?_set_ne hij]
  have hat := h.atConsumer c
  cases hmove with
  | @addHead my hpc =>
    refine hd.of_eq rfl (fun _ _ he => he) (fun i => ?_) fun c' i e j x hmem hx => ?_
    · refine ⟨fun hi => ?_, getElem?_snoc_of⟩
      rcases getElem?_snoc hi with hi | ⟨-, hreading⟩
      · exact hi
      · cases hreading
    · by_cases hc : c' = c
      · subst hc
        have hpc' : (s.headIndex, Slot.reading c') = (j, x) := by
          have hself : (Function.update s.consumers c' (Consumer.loadIndexTail s.headIndex)
            c').slot c' = some (j, x) := hx
          rw [Function.update_self] at hself
          exact Option.some.inj hself
        cases hpc'
        rw [← h.counters.slots]
        exact (List.getElem?_eq_some_iff.mp (hd.element c' i e hmem).2).1
      · refine hd.later c' i e j x hmem ?_
        rw [← hx]
        exact congrArg (Consumer.slot c') (Function.update_of_ne hc _ s.consumers).symm
  | @move i slot block e hpc he =>
    have hslot := h.slot_of_pc (c := c) (i := i) (x := .reading c) (by rw [hpc]; rfl)
    refine hd.of_eq rfl (fun _ _ he => he) (hset hslot (by simp) (by simp)) (hlater ?_)
    intro j x hx
    cases hx
    exact ⟨_, by rw [hpc]; rfl⟩
  | @setEmpty i slot block e hpc hne =>
    have hslot := h.slot_of_pc (c := c) (i := i) (x := .moved c) (by rw [hpc]; rfl)
    rw [hpc] at hat
    exact hd.return (by rw [hpc]; rfl) hslot (by simp) hat.2.2 rfl rfl rfl rfl
  | @setLastEmpty i slot block e hpc hlast =>
    have hslot := h.slot_of_pc (c := c) (i := i) (x := .moved c) (by rw [hpc]; rfl)
    refine hd.of_eq rfl (fun _ _ he => he) (hset hslot (by simp) (by simp)) (hlater ?_)
    intro j x hx
    cases hx
    exact ⟨_, by rw [hpc]; rfl⟩
  | @addToFreeList i block e hpc =>
    have hslot := h.slot_of_pc (c := c) (i := i) (x := .emptied c) (by rw [hpc]; rfl)
    rw [hpc] at hat
    exact hd.return (by rw [hpc]; rfl) hslot (by simp) hat rfl rfl rfl rfl
  | _ =>
    refine hd.of_eq rfl (fun _ _ he => he) (fun _ => Iff.rfl) (hlater ?_)
    intro j x hx
    cases hx <;> exact ⟨_, by rw [‹s.consumers c = _›]; rfl⟩

theorem delivered_producer (hd : Delivered s) (hmove : ProducerMove T s t) : Delivered t := by
  cases hmove with
  | storeTailIndex hpc =>
    exact hd.of_eq rfl (fun _ _ he => getElem?_snoc_of he) (fun _ => Iff.rfl) hd.later
  | _ => exact hd.of_eq rfl (fun _ _ he => he) (fun _ => Iff.rfl) hd.later

theorem delivered_step {l : Label κ α} (h : Inv T s) (hd : Delivered s)
    (hstep : step T s l = some t) : Delivered t := by
  rcases step_cases hstep with ⟨c, hidle, rfl⟩ | hmove | ⟨c, hmove⟩
  · refine hd.of_eq rfl (fun _ _ he => he) (fun _ => Iff.rfl) fun c' i e j x hmem hx => ?_
    refine hd.later c' i e j x hmem ?_
    rw [← hx]
    exact (consumers_eq (f := Consumer.slot) (by rw [hidle]; rfl) c').symm
  · exact delivered_producer hd hmove
  · exact delivered_consumer h hd hmove

theorem inv_exec {ls : List (Label κ α)} (hrun : exec (step T) (init T κ α) ls = some s) :
    Inv T s ∧ Delivered s :=
  exec_invariant (I := fun s => Inv T s ∧ Delivered s)
    (fun _ _ _ h hstep => ⟨inv_step h.1 hstep, delivered_step h.1 h.2 hstep⟩)
    ⟨inv_init, delivered_init⟩ hrun

/-- In every run, each element goes to one call, a thread gets its elements in the order in
which they were enqueued, and none is lost: what is claimed was returned, or is in the hands
of one thread. -/
theorem fifo {ls : List (Label κ α)} (hrun : exec (step T) (init T κ α) ls = some s) :
    (∀ c i e, (c, i, e) ∈ s.dequeued → s.enqueued[i]? = some e) ∧
    (s.dequeued.map fun d => d.2.1).Nodup ∧
    (∀ c, (s.indices c).Pairwise (· < ·)) ∧
    s.headIndex ≤ s.enqueued.length ∧
    ∀ i < s.headIndex, (∃ c e, (c, i, e) ∈ s.dequeued) ∨
      ∃ c x, (s.consumers c).slot c = some (i, x) := by
  obtain ⟨h, hd⟩ := inv_exec hrun
  refine ⟨fun c i e hmem => (hd.element c i e hmem).1, hd.nodup, hd.order, ?_, fun i hi => ?_⟩
  · rw [← h.counters.tail]
    exact h.counters.head_le
  · rw [← h.counters.slots] at hi
    have hx := List.getElem?_eq_getElem hi
    cases hholder : (s.slots[i]).holder with
    | some c => exact .inr ⟨c, _, (h.held c i _).mpr ⟨hx, hholder⟩⟩
    | none =>
      cases hslot : s.slots[i] with
      | returned => exact .inl (hd.all i (by rw [hx, hslot]))
      | _ =>
        rw [hslot] at hholder
        cases hholder

/-- A queue of two blocks of two elements. -/
def small : Traits := ⟨2, 2, 2, by decide, by decide⟩

/-- One thread takes the element, and another one finds nothing. -/
def twoThreads : List (Label ℕ ℕ) :=
  .enqueue 7 :: List.replicate 8 .producer ++ [.dequeue 0, .dequeue 1] ++
    List.replicate 4 (.consumer 0) ++ List.replicate 4 (.consumer 1) ++
    List.replicate 8 (.consumer 0) ++ List.replicate 3 (.consumer 1)

theorem fifo_twoThreads : ∃ s, exec (step small) (init small ℕ ℕ) twoThreads = some s ∧
    s.dequeued = [(0, 0, 7)] ∧ s.dequeueOvercommit = 1 ∧
    (∀ c i e, (c, i, e) ∈ s.dequeued → s.enqueued[i]? = some e) := by
  have hrun : exec (step small) (init small ℕ ℕ) twoThreads = some _ := rfl
  exact ⟨_, hrun, rfl, rfl, (fifo hrun).1⟩

section
variable (h : Inv T s)
include h

omit [DecidableEq κ] in
/-- No null pointer is read and no assertion fails where an element is enqueued. -/
theorem producerStep_isSome (hbusy : s.producer ≠ .idle) : (producerStep T s).isSome := by
  have hat := h.atProducer
  unfold producerStep
  cases hpc : s.producer with
  | idle => exact absurd hpc hbusy
  | insert e =>
    dsimp only
    split_ifs <;> rfl
  | construct e =>
    rw [hpc] at hat
    obtain ⟨block, hblock, -⟩ := h.last hat.1
    rw [hblock]
    rfl
  | _ => rfl

/-- Nor where one is dequeued. -/
theorem consumerStep_isSome (hbusy : s.consumers c ≠ .idle) : (consumerStep T s c).isSome := by
  have hat := h.atConsumer c
  unfold consumerStep
  cases hpc : s.consumers c with
  | idle => exact absurd hpc hbusy
  | sizeHead tail =>
    dsimp only
    split_ifs <;> rfl
  | loadOptimistic tail overcommit =>
    dsimp only
    split_ifs <;> rfl
  | reloadTail overcommit my =>
    dsimp only
    split_ifs <;> rfl
  | loadKey i tail =>
    rw [hpc] at hat
    obtain ⟨k, -, -, -, hkey⟩ := hat
    dsimp only
    rw [hkey]
    rfl
  | loadValue i slot =>
    have hslot := h.slot_of_pc (c := c) (i := i) (x := .reading c) (by rw [hpc]; rfl)
    obtain ⟨b, hb⟩ := h.live_of_slot hslot rfl
    rw [hpc] at hat
    obtain rfl := hat
    dsimp only
    rw [h.index.entry b _ (h.owner_of_live hb)]
    rfl
  | move i slot block =>
    have hslot := h.slot_of_pc (c := c) (i := i) (x := .reading c) (by rw [hpc]; rfl)
    rw [hpc] at hat
    have hlt := h.lt_tail hslot
    have helement := h.contents.element block i hat.2 hlt fun x hx => by
      obtain rfl := Option.some.inj (hslot.symm.trans hx)
      rfl
    dsimp only
    rw [helement, List.getElem?_eq_getElem (by rw [← h.counters.tail]; exact hlt)]
    rfl
  | setEmpty i slot block e =>
    dsimp only
    split_ifs <;> rfl
  | _ => rfl

end

/-- In every run, a call in progress can go on: no pointer is null, and the assertions of the
code hold. -/
theorem never_stuck {ls : List (Label κ α)} (hrun : exec (step T) (init T κ α) ls = some s) :
    (s.producer ≠ .idle → (producerStep T s).isSome) ∧
    (∀ c, s.consumers c ≠ .idle → (consumerStep T s c).isSome) ∧
    s.headIndex ≤ s.tailIndex ∧
    (∀ c overcommit my, s.consumers c = .reloadTail overcommit my → overcommit ≤ my) ∧
    ∀ c i slot, s.consumers c = .loadValue i slot →
      (s.blockIndex slot).key = some (i / T.blockSize * T.blockSize) := by
  obtain ⟨h, -⟩ := inv_exec hrun
  refine ⟨producerStep_isSome h, fun c => consumerStep_isSome h, h.counters.head_le, ?_, ?_⟩
  · intro c overcommit my hpc
    have hknows := h.counters.knows c
    rw [hpc] at hknows
    exact Nat.le_trans hknows (Nat.le_trans List.countP_le_length (List.length_take_le _ _))
  · intro c i slot hpc
    have hslot := h.slot_of_pc (c := c) (i := i) (x := .reading c) (by rw [hpc]; rfl)
    obtain ⟨b, hb⟩ := h.live_of_slot hslot rfl
    have hat := h.atConsumer c
    rw [hpc] at hat
    rw [show slot = _ from hat, h.index.entry b _ (h.owner_of_live hb)]

theorem never_stuck_twoThreads : ∃ s, exec (step small) (init small ℕ ℕ)
    (twoThreads.take 24) = some s ∧ ∃ i slot, s.consumers 0 = .loadValue i slot ∧
      (s.blockIndex slot).key = some (i / small.blockSize * small.blockSize) := by
  have hrun : exec (step small) (init small ℕ ℕ) (twoThreads.take 24) = some _ := rfl
  exact ⟨_, hrun, 0, 0, rfl, (never_stuck hrun).2.2.2.2 0 0 0 rfl⟩

end ConcurrentQueue
end HVBench
