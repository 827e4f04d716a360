import HVBench.ConcurrentQueue.ProducerSteps

/-! The steps of a thread that dequeues. -/
namespace HVBench
namespace ConcurrentQueue
open Counting Holding
variable {κ α : Type} {T : Traits} {s t : State κ α} {c : κ} {pc : Consumer α}

section Held
variable [DecidableEq κ] (h : Inv T s)
include h

theorem held_of_eq (hslots : t.slots = s.slots)
    (hc : t.consumers = Function.update s.consumers c pc)
    (hpc : pc.slot c = (s.consumers c).slot c) :
    Held Slot.holder t.slots fun c' => (t.consumers c').slot c' := by
  intro c' i x
  rw [hslots, hc]
  dsimp only
  rw [consumers_eq (f := Consumer.slot) hpc]
  exact h.held c' i x

/-- A thread goes on with its element. -/
theorem held_set {i : ℕ} {x y : Slot κ} (hx : (s.consumers c).slot c = some (i, x))
    (hpc : pc.slot c = y.holder.map fun _ => (i, y)) (hy : ∀ c', y.holder = some c' → c' = c) :
    Held Slot.holder (s.slots.set i y)
      fun c' => (Function.update s.consumers c pc c').slot c' := by
  refine h.held.set hx (fun c' hc' => ?_) ?_ hy
  · rw [Function.update_of_ne hc']
  · rw [Function.update_self]
    exact hpc

theorem held_consumer (hmove : ConsumerMove T s c t) :
    Held Slot.holder t.slots fun c' => (t.consumers c').slot c' := by
  cases hmove with
  | addHead hpc =>
    refine h.held.snoc (c := c) (by rw [hpc]; rfl) (fun c' hc' => ?_) ?_ rfl
    · exact congrArg (Consumer.slot c') (Function.update_of_ne hc' _ s.consumers)
    · rw [h.counters.slots]
      exact congrArg (Consumer.slot c) (Function.update_self c _ s.consumers)
  | move hpc he =>
    exact held_set h (by rw [hpc]; rfl) rfl fun c' hc' => (Option.some.inj hc').symm
  | setEmpty hpc hne => exact held_set h (by rw [hpc]; rfl) rfl fun c' hc' => by cases hc'
  | setLastEmpty hpc hlast =>
    exact held_set h (by rw [hpc]; rfl) rfl fun c' hc' => (Option.some.inj hc').symm
  | addToFreeList hpc => exact held_set h (by rw [hpc]; rfl) rfl fun c' hc' => by cases hc'
  | _ => exact held_of_eq h rfl rfl (by rw [‹s.consumers c = _›]; rfl)

end Held

/-- The segment whose block counts one more element with the next step of a thread. -/
def Consumer.empties (T : Traits) : Consumer α → Option ℕ
  | .setEmpty i _ _ _ => some (i / T.blockSize)
  | _ => none

/-- A thread that neither takes nor gives back a block. -/
theorem owner_consumer [DecidableEq κ] (ho : Owners T s)
    (hpc : pc.block = (s.consumers c).block) (b : ℕ) (c' : κ) :
    s.owner b = .consumer c' ↔ (Function.update s.consumers c pc c').block = some b := by
  rw [consumers_eq (f := fun _ => Consumer.block) hpc, ho.consumer]

/-- A thread that neither starts nor ends the closing of a segment. -/
theorem closing_consumer [DecidableEq κ] (hp : Phases T s)
    (hpc : pc.closes T = (s.consumers c).closes T) (n b : ℕ) (c' : κ) :
    s.segments[n]? = some ⟨b, .closing c'⟩ ↔
      (Function.update s.consumers c pc c').closes T = some (n, b) := by
  rw [consumers_eq (f := fun _ => Consumer.closes T) hpc, hp.closing]

section
variable (h : Inv T s)
include h

/-- The segment of the element a thread has claimed. -/
theorem closing_of_pc {i slot block : ℕ} {e : α}
    (hpc : s.consumers c = .unlink i slot block e) :
    s.segments[i / T.blockSize]? = some ⟨block, .closing c⟩ ∧
      s.owner block = .segment (i / T.blockSize) := by
  have hclosing := (h.phases.closing (i / T.blockSize) block c).mpr (by rw [hpc]; rfl)
  exact ⟨hclosing, (h.owners.segment _ _).mpr ⟨_, hclosing, by simp⟩⟩

theorem live_of_pc {i slot block : ℕ} {e : α}
    (hpc : s.consumers c = .setEmpty i slot block e) :
    s.segments[i / T.blockSize]? = some ⟨block, .live⟩ ∧
      s.owner block = .segment (i / T.blockSize) := by
  have hat := h.atConsumer c
  rw [hpc] at hat
  obtain ⟨b, hb⟩ := h.live_of_slot (h.slot_of_pc (by rw [hpc]; rfl)) rfl
  obtain rfl := h.owner_inj hat.2.1 (h.owner_of_live hb)
  exact ⟨hb, hat.2.1⟩

variable [DecidableEq κ]

theorem owners_consumer (hmove : ConsumerMove T s c t) : Owners T t := by
  have ho := h.owners
  cases hmove with
  | @setLastEmpty i slot block e hpc hlast =>
    obtain ⟨hlive, -⟩ := live_of_pc h hpc
    have hlt := (List.getElem?_eq_some_iff.mp hlive).1
    refine ⟨ho.pool, ho.poolSize, ho.freeList, ho.nodup, ho.producer, fun b n => ?_,
      owner_consumer ho (by rw [hpc]; rfl)⟩
    refine (ho.segment b n).trans ?_
    change _ ↔ ∃ phase, (s.segments.set (i / T.blockSize) ⟨block, .closing c⟩)[n]? =
      some ⟨b, phase⟩ ∧ phase ≠ .unlinked
    by_cases hn : i / T.blockSize = n
    · subst hn
      rw [List.getElem?_set_self hlt, hlive]
      constructor
      · rintro ⟨phase, hb, -⟩
        cases hb
        exact ⟨_, rfl, by simp⟩
      · rintro ⟨phase, hb, -⟩
        cases hb
        exact ⟨_, rfl, by simp⟩
    · rw [List.getElem?_set_ne hn]
  | @unlink i slot block e hpc =>
    obtain ⟨hclosing, howner⟩ := closing_of_pc h hpc
    have hlt := (List.getElem?_eq_some_iff.mp hclosing).1
    have hother : ∀ {o : Owner κ} {b}, (∀ n, o ≠ .segment n) → (∀ c', o ≠ .consumer c') →
        (Function.update s.owner block (.consumer c) b = o ↔ s.owner b = o) := by
      intro o b hsegment hconsumer
      rw [Function.update_apply]
      split_ifs with heq
      · rw [heq, howner]
        exact iff_of_false (Ne.symm (hconsumer _)) (Ne.symm (hsegment _))
      · rfl
    refine ⟨fun b => (hother (by simp) (by simp)).trans (ho.pool b), ho.poolSize,
      fun b => (hother (by simp) (by simp)).trans (ho.freeList b), ho.nodup,
      fun b => (hother (by simp) (by simp)).trans (ho.producer b), fun b n => ?_, fun b c' => ?_⟩
    · change Function.update s.owner _ _ b = .segment n ↔
        ∃ phase, (s.segments.set (i / T.blockSize) ⟨block, .unlinked⟩)[n]? =
          some ⟨b, phase⟩ ∧ phase ≠ .unlinked
      have hb := ho.segment b n
      rw [Function.update_apply]
      by_cases hn : i / T.blockSize = n
      · subst hn
        rw [List.getElem?_set_self hlt]
        split_ifs with heq
        · simp
        · refine iff_of_false (fun hb => heq (h.owner_inj hb howner)) ?_
          rintro ⟨phase, hphase, hne⟩
          cases hphase
          exact hne rfl
      · rw [List.getElem?_set_ne hn, ← hb]
        split_ifs with heq
        · rw [heq, howner]
          simp [hn]
        · rfl
    · change Function.update s.owner _ _ b = .consumer c' ↔
        (Function.update s.consumers c (.addToFreeList i block e) c').block = some b
      have hb := ho.consumer b c'
      by_cases hc' : c' = c
      · subst hc'
        rw [hpc] at hb
        rw [Function.update_self, Function.update_apply]
        split_ifs with heq
        · simp [heq, Consumer.block]
        · rw [hb]
          simpa [Consumer.block] using Ne.symm heq
      · rw [Function.update_of_ne hc', ← hb, Function.update_apply]
        split_ifs with heq
        · rw [heq, howner]
          simp [Ne.symm hc']
        · rfl
  | @addToFreeList i block e hpc =>
    have howner : s.owner block = .consumer c := (ho.consumer block c).mpr (by rw [hpc]; rfl)
    have hother : ∀ {o : Owner κ} {b}, o ≠ .freeList → (∀ c', o ≠ .consumer c') →
        (Function.update s.owner block .freeList b = o ↔ s.owner b = o) := by
      intro o b hfreeList hconsumer
      rw [Function.update_apply]
      split_ifs with heq
      · rw [heq, howner]
        exact iff_of_false (Ne.symm hfreeList) (Ne.symm (hconsumer _))
      · rfl
    refine ⟨fun b => (hother (by simp) (by simp)).trans (ho.pool b), ho.poolSize, fun b => ?_, ?_,
      fun b => (hother (by simp) (by simp)).trans (ho.producer b),
      fun b n => (hother (by simp) (by simp)).trans (ho.segment b n), fun b c' => ?_⟩
    · change Function.update s.owner _ _ b = .freeList ↔ b ∈ block :: s.freeList
      rw [Function.update_apply]
      split_ifs with heq
      · simp [heq]
      · rw [ho.freeList]
        simp [heq]
    · refine List.nodup_cons.mpr ⟨fun hmem => ?_, ho.nodup⟩
      have hfree := (ho.freeList block).mpr hmem
      rw [howner] at hfree
      cases hfree
    · change Function.update s.owner _ _ b = .consumer c' ↔
        (Function.update s.consumers c .idle c').block = some b
      have hb := ho.consumer b c'
      by_cases hc' : c' = c
      · subst hc'
        rw [hpc] at hb
        rw [Function.update_self, Function.update_apply]
        split_ifs with heq
        · simp [Consumer.block]
        · rw [hb]
          simpa [Consumer.block] using Ne.symm heq
      · rw [Function.update_of_ne hc', ← hb, Function.update_apply]
        split_ifs with heq
        · rw [heq, howner]
          simp [Ne.symm hc']
        · rfl
  | _ =>
    exact ⟨ho.pool, ho.poolSize, ho.freeList, ho.nodup, ho.producer, ho.segment,
      owner_consumer ho (by rw [‹s.consumers c = _›]; rfl)⟩

/-- One segment changes, by the thread that closes it. -/
theorem closing_set {n : ℕ} {segment : Segment κ} (hlt : n < s.segments.length)
    (hold : ∀ n' b, (s.consumers c).closes T = some (n', b) → n' = n)
    (hother : ∀ b c', s.segments[n]? = some ⟨b, .closing c'⟩ → c' = c)
    (hnew : ∀ n' b, pc.closes T = some (n', b) ↔ n' = n ∧ segment = ⟨b, .closing c⟩)
    (hnew' : ∀ b c', segment = ⟨b, .closing c'⟩ → c' = c) (n' b : ℕ) (c' : κ) :
    (s.segments.set n segment)[n']? = some ⟨b, .closing c'⟩ ↔
      (Function.update s.consumers c pc c').closes T = some (n', b) := by
  have hclosing := h.phases.closing n' b c'
  by_cases hc' : c' = c
  · subst hc'
    rw [Function.update_self, hnew]
    by_cases hn : n = n'
    · subst hn
      rw [List.getElem?_set_self hlt]
      simp
    · rw [List.getElem?_set_ne hn, hclosing]
      exact iff_of_false (fun hc => hn (hold _ _ hc).symm) fun hc => hn hc.1.symm
  · rw [Function.update_of_ne hc', ← hclosing]
    by_cases hn : n = n'
    · subst hn
      rw [List.getElem?_set_self hlt]
      exact iff_of_false (fun hc => hc' (hnew' _ _ (Option.some.inj hc)))
        fun hc => hc' (hother _ _ hc)
    · rw [List.getElem?_set_ne hn]

omit [DecidableEq κ] in
/-- How the count changes when a thread goes on with its element. -/
theorem stretch_of_pc {i : ℕ} {x : Slot κ} (hpc : (s.consumers c).slot c = some (i, x))
    (y : Slot κ) (n : ℕ) :
    stretch Slot.isDone T.blockSize (s.slots.set i y) n + (if i / T.blockSize = n ∧ x.isDone
      then 1 else 0) = emptied T s n + if i / T.blockSize = n ∧ y.isDone then 1 else 0 :=
  stretch_set T.blockSize_pos (h.slot_of_pc hpc)

/-- Only `set_empty` changes the counts. -/
theorem emptied_consumer (hmove : ConsumerMove T s c t) (n : ℕ) :
    emptied T t n = emptied T s n + if (s.consumers c).empties T = some n then 1 else 0 := by
  cases hmove with
  | addHead hpc =>
    rw [hpc]
    exact stretch_snoc rfl
  | @move i slot block e hpc he =>
    have hset := stretch_of_pc h (T := T) (by rw [hpc]; rfl) (.moved c) n
    rw [hpc]
    exact Nat.add_right_cancel hset
  | @setEmpty i slot block e hpc hne =>
    have hset := stretch_of_pc h (T := T) (by rw [hpc]; rfl) .returned n
    rw [hpc]
    simp only [Slot.isDone, Bool.false_eq_true, and_false, if_false, and_true] at hset
    simp only [Consumer.empties, Option.some_inj]
    exact hset
  | @setLastEmpty i slot block e hpc hlast =>
    have hset := stretch_of_pc h (T := T) (by rw [hpc]; rfl) (.emptied c) n
    rw [hpc]
    simp only [Slot.isDone, Bool.false_eq_true, and_false, if_false, and_true] at hset
    simp only [Consumer.empties, Option.some_inj]
    exact hset
  | @addToFreeList i block e hpc =>
    have hset := stretch_of_pc h (T := T) (by rw [hpc]; rfl) .returned n
    rw [hpc]
    exact Nat.add_right_cancel hset
  | _ => rw [‹s.consumers c = _›]; rfl

theorem phases_consumer (hmove : ConsumerMove T s c t) : Phases T t := by
  have hcount := emptied_consumer h hmove
  have hp := h.phases
  cases hmove with
  | @setEmpty i slot block e hpc hne =>
    obtain ⟨hlive, howner⟩ := live_of_pc h hpc
    have hlt := (hp.live _ _ hlive).mp rfl
    rw [h.contents.counter _ _ howner] at hne
    rw [hpc] at hcount
    simp only [Consumer.empties, Option.some_inj] at hcount
    refine ⟨fun n segment hn => ?_, closing_consumer hp (by rw [hpc]; rfl)⟩
    rw [hcount]
    split_ifs with heq
    · subst heq
      obtain rfl := Option.some.inj (hlive.symm.trans hn)
      exact iff_of_true rfl (by omega)
    · exact hp.live n segment hn
  | @setLastEmpty i slot block e hpc hlast =>
    obtain ⟨hlive, howner⟩ := live_of_pc h hpc
    have hlt := (List.getElem?_eq_some_iff.mp hlive).1
    rw [h.contents.counter _ _ howner] at hlast
    rw [hpc] at hcount
    simp only [Consumer.empties, Option.some_inj] at hcount
    constructor
    · intro n segment hn
      change (s.segments.set (i / T.blockSize) ⟨block, .closing c⟩)[n]? = some segment at hn
      rw [hcount]
      split_ifs with heq
      · subst heq
        rw [List.getElem?_set_self hlt] at hn
        obtain rfl := Option.some.inj hn
        exact iff_of_false (by simp) (by omega)
      · rw [List.getElem?_set_ne heq] at hn
        exact hp.live n segment hn
    · refine closing_set h hlt ?_ ?_ ?_ ?_
      · intro n' b hcloses
        rw [hpc] at hcloses
        cases hcloses
      · intro b c' hn
        rw [hlive] at hn
        cases hn
      · intro n' b
        simp [Consumer.closes, eq_comm]
      · intro b c' heq
        cases heq
        rfl
  | @unlink i slot block e hpc =>
    obtain ⟨hclosing, howner⟩ := closing_of_pc h hpc
    have hlt := (List.getElem?_eq_some_iff.mp hclosing).1
    rw [hpc] at hcount
    constructor
    · intro n segment hn
      change (s.segments.set (i / T.blockSize) ⟨block, .unlinked⟩)[n]? = some segment at hn
      rw [hcount]
      by_cases heq : i / T.blockSize = n
      · subst heq
        rw [List.getElem?_set_self hlt] at hn
        obtain rfl := Option.some.inj hn
        refine iff_of_false (by simp) fun hlt' => ?_
        cases (hp.live _ _ hclosing).mpr hlt'
      · rw [List.getElem?_set_ne heq] at hn
        exact hp.live n segment hn
    · refine closing_set h hlt ?_ ?_ ?_ ?_
      · intro n' b hcloses
        rw [hpc] at hcloses
        cases hcloses
        rfl
      · intro b c' hn
        rw [hclosing] at hn
        cases hn
        rfl
      · intro n' b
        simp [Consumer.closes]
      · intro b c' heq
        cases heq
  | _ =>
    rw [‹s.consumers c = _›] at hcount
    refine ⟨fun n segment hn => ?_, closing_consumer hp (by rw [‹s.consumers c = _›]; rfl)⟩
    rw [hcount]
    exact hp.live n segment hn

omit [DecidableEq κ] in
/-- The blocks of the segments stay as they are when one changes its phase. -/
theorem getLast?_set {n block : ℕ} {phase phase' : Phase κ}
    (hn : s.segments[n]? = some ⟨block, phase⟩) :
    s.tailBlock = (s.segments.set n ⟨block, phase'⟩).getLast?.map Segment.block := by
  have hmap : (s.segments.set n ⟨block, phase'⟩).map Segment.block =
      s.segments.map Segment.block := by
    rw [List.map_set]
    apply List.ext_getElem?
    intro k
    by_cases hk : n = k
    · subst hk
      have hlt := (List.getElem?_eq_some_iff.mp hn).1
      rw [List.getElem?_set_self (by rw [List.length_map]; exact hlt), List.getElem?_map, hn]
      rfl
    · rw [List.getElem?_set_ne hk]
  rw [h.index.tailBlock, ← List.getLast?_map, ← List.getLast?_map, hmap]

theorem index_consumer (hmove : ConsumerMove T s c t) : Index T t := by
  have hi := h.index
  cases hmove with
  | @setLastEmpty i slot block e hpc hlast =>
    obtain ⟨hlive, -⟩ := live_of_pc h hpc
    have hlength : (s.segments.set (i / T.blockSize) ⟨block, .closing c⟩).length =
        s.segments.length := List.length_set ..
    refine ⟨?_, ?_, getLast?_set h hlive, fun b n hb => ?_, hi.entry, hi.value, fun n hn hlt => ?_⟩
    · exact Nat.le_trans hi.tail_le (Nat.le_of_eq (by rw [← hlength]; rfl))
    · exact Nat.le_trans (Nat.le_of_eq (by rw [← hlength]; rfl)) hi.le_tail
    · exact Nat.le_trans (Nat.le_of_eq hlength) (hi.window b n hb)
    · refine hi.key n (Nat.lt_of_lt_of_eq hn hlength) ?_
      exact Nat.lt_of_le_of_lt (Nat.le_of_eq hlength.symm) hlt
  | @unlink i slot block e hpc =>
    obtain ⟨hclosing, howner⟩ := closing_of_pc h hpc
    have hat := h.atConsumer c
    rw [hpc] at hat
    have hlength : (s.segments.set (i / T.blockSize) ⟨block, .unlinked⟩).length =
        s.segments.length := List.length_set ..
    refine ⟨?_, ?_, getLast?_set h hclosing, fun b n hb => ?_, fun b n hb => ?_, fun k b hk => ?_,
      fun n hn hlt => ?_⟩
    · exact Nat.le_trans hi.tail_le (Nat.le_of_eq (by rw [← hlength]; rfl))
    · exact Nat.le_trans (Nat.le_of_eq (by rw [← hlength]; rfl)) hi.le_tail
    · exact Nat.le_trans (Nat.le_of_eq hlength) (hi.window b n (of_update_owner hb (by simp)).2)
    · obtain ⟨hne, hb⟩ := of_update_owner hb (by simp)
      have hmod : n % T.indexSize ≠ slot := by
        rw [hat.1]
        intro hmod
        have hn := h.mod_inj hb howner hmod
        rw [hn] at hb
        exact hne (h.owner_inj hb howner)
      exact (Function.update_of_ne hmod _ _).trans (hi.entry b n hb)
    · simp only [State.setConsumer, Function.update_apply] at hk
      split_ifs at hk with heq
      obtain ⟨n, hn, hmod⟩ := hi.value k b hk
      refine ⟨n, ?_, hmod⟩
      have hne : b ≠ block := by
        rintro rfl
        rw [Owner.segment.inj (hn.symm.trans howner)] at hmod
        exact heq (hmod.symm.trans hat.1.symm)
      exact (Function.update_of_ne hne _ _).trans hn
    · refine (key_update _).trans (hi.key n ?_ ?_)
      · exact Nat.lt_of_lt_of_eq hn hlength
      · exact Nat.lt_of_le_of_lt (Nat.le_of_eq hlength.symm) hlt
  | @addToFreeList i block e hpc =>
    have howner : s.owner block = .consumer c := (h.owners.consumer block c).mpr (by rw [hpc]; rfl)
    refine ⟨hi.tail_le, hi.le_tail, hi.tailBlock,
      fun b n hb => hi.window b n (of_update_owner hb (by simp)).2,
      fun b n hb => hi.entry b n (of_update_owner hb (by simp)).2, fun k b hk => ?_, hi.key⟩
    obtain ⟨n, hn, hmod⟩ := hi.value k b hk
    exact ⟨n, (Function.update_of_ne (ne_of_owner hn howner (by simp)) _ _).trans hn, hmod⟩
  | _ => exact ⟨hi.tail_le, hi.le_tail, hi.tailBlock, hi.window, hi.entry, hi.value, hi.key⟩

omit h [DecidableEq κ] in
/-- An index whose element has not been moved is not the one that goes on past that. -/
theorem reading_of_set {i j : ℕ} {x y : Slot κ} (hx : s.slots[i]? = some x)
    (hy : y.isReading = false)
    (hreading : ∀ z, (s.slots.set i y)[j]? = some z → z.isReading = true) :
    i ≠ j ∧ ∀ z, s.slots[j]? = some z → z.isReading = true := by
  have hlt := (List.getElem?_eq_some_iff.mp hx).1
  have hij : i ≠ j := by
    rintro rfl
    have htrue := hreading y (List.getElem?_set_self hlt)
    rw [hy] at htrue
    cases htrue
  refine ⟨hij, fun z hz => hreading z ?_⟩
  rw [List.getElem?_set_ne hij]
  exact hz

omit [DecidableEq κ] in
/-- `set_empty` counts the element in its block. -/
theorem contents_countEmpty {i slot block : ℕ} {e : α} {y : Slot κ}
    (hpc : s.consumers c = .setEmpty i slot block e) (hy : y.isReading = false)
    (hcount : ∀ n, emptied T t n =
      emptied T s n + if (Consumer.setEmpty i slot block e).empties T = some n then 1 else 0)
    (hblocks : t.blocks = (countEmpty s block).blocks) (hslots : t.slots = s.slots.set i y)
    (howner : t.owner = s.owner) (htail : t.tailIndex = s.tailIndex)
    (henqueued : t.enqueued = s.enqueued) : Contents T t := by
  obtain ⟨-, hblock⟩ := live_of_pc h hpc
  have hslot := h.slot_of_pc (c := c) (i := i) (x := .moved c) (by rw [hpc]; rfl)
  simp only [Consumer.empties, Option.some_inj] at hcount
  constructor
  · intro b n hb
    rw [howner] at hb
    rw [hcount, hblocks, ← h.contents.counter b n hb]
    by_cases heq : b = block
    · subst heq
      rw [if_pos (Owner.segment.inj (hblock.symm.trans hb))]
      simp only [countEmpty, Function.update_self]
    · have hn : i / T.blockSize ≠ n := by
        rintro rfl
        exact heq (h.owner_inj hb hblock)
      rw [if_neg hn]
      simp only [countEmpty, Function.update_of_ne heq, Nat.add_zero]
  · intro b j hb hj hreading
    rw [howner] at hb
    rw [htail] at hj
    rw [hslots] at hreading
    rw [hblocks, henqueued, ← h.contents.element b j hb hj (reading_of_set hslot hy hreading).2]
    by_cases heq : b = block
    · subst heq
      simp only [countEmpty, Function.update_self]
    · simp only [countEmpty, Function.update_of_ne heq]

theorem contents_consumer (hmove : ConsumerMove T s c t) : Contents T t := by
  have hcount := emptied_consumer h hmove
  have hc := h.contents
  cases hmove with
  | @addHead my hpc =>
    rw [hpc] at hcount
    refine ⟨fun b n hb => ?_, fun b i hb hi hreading => hc.element b i hb hi fun x hx => ?_⟩
    · rw [hcount]
      exact hc.counter b n hb
    · exact hreading x (getElem?_snoc_of hx)
  | @move i slot block e hpc he =>
    have hslot := h.slot_of_pc (c := c) (i := i) (x := .reading c) (by rw [hpc]; rfl)
    have hat := h.atConsumer c
    rw [hpc] at hat hcount
    constructor
    · intro b n hb
      rw [hcount]
      refine Eq.trans ?_ (hc.counter b n hb)
      simp only [State.setConsumer, State.setSlot, Function.update_apply]
      split_ifs with heq
      · rw [heq]
      · rfl
    · intro b j hb hj hreading
      obtain ⟨hij, hreading⟩ := reading_of_set hslot rfl hreading
      refine Eq.trans ?_ (hc.element b j hb hj hreading)
      by_cases heq : b = block
      · subst heq
        -- another element of the same block is at another place
        have hmod : j % T.blockSize ≠ i % T.blockSize := by
          intro hmod
          have hdiv := Owner.segment.inj (hat.2.symm.trans hb)
          have hidiv := Nat.div_add_mod i T.blockSize
          rw [hdiv, ← hmod, Nat.div_add_mod] at hidiv
          exact hij hidiv.symm
        simp only [State.setConsumer, State.setSlot, Function.update_self,
          Function.update_of_ne hmod]
      · simp only [State.setConsumer, State.setSlot, Function.update_of_ne heq]
  | @setEmpty i slot block e hpc hne =>
    rw [hpc] at hcount
    exact contents_countEmpty h hpc rfl hcount rfl rfl rfl rfl rfl
  | @setLastEmpty i slot block e hpc hlast =>
    rw [hpc] at hcount
    exact contents_countEmpty h hpc rfl hcount rfl rfl rfl rfl rfl
  | @unlink i slot block e hpc =>
    rw [hpc] at hcount
    refine ⟨fun b n hb => ?_, fun b j hb => hc.element b j (of_update_owner hb (by simp)).2⟩
    rw [hcount]
    exact hc.counter b n (of_update_owner hb (by simp)).2
  | @addToFreeList i block e hpc =>
    have hslot := h.slot_of_pc (c := c) (i := i) (x := .emptied c) (by rw [hpc]; rfl)
    rw [hpc] at hcount
    refine ⟨fun b n hb => ?_, fun b j hb hj hreading => ?_⟩
    · rw [hcount]
      exact hc.counter b n (of_update_owner hb (by simp)).2
    · exact hc.element b j (of_update_owner hb (by simp)).2 hj (reading_of_set hslot rfl hreading).2
  | _ =>
    rw [‹s.consumers c = _›] at hcount
    refine ⟨fun b n hb => ?_, hc.element⟩
    rw [hcount]
    exact hc.counter b n hb

/-- What a step of a dequeuing thread leaves of what the enqueuing one relies on. -/
structure ProducerKept (T : Traits) (s t : State κ α) : Prop where
  producer : t.producer = s.producer
  tail : t.tailIndex = s.tailIndex
  length : t.segments.length = s.segments.length
  indexTail : t.blockIndexTail = s.blockIndexTail
  key : ∀ k, (t.blockIndex k).key = (s.blockIndex k).key
  owner : ∀ b n, t.owner b = .segment n → s.owner b = .segment n
  counter : ∀ b, s.owner b = .producer →
    (t.blocks b).elementsCompletelyDequeued = (s.blocks b).elementsCompletelyDequeued
  element : ∀ b, s.owner b = .segment (s.tailIndex / T.blockSize) →
    (t.blocks b).elements (s.tailIndex % T.blockSize) =
      (s.blocks b).elements (s.tailIndex % T.blockSize)

omit [DecidableEq κ] in
theorem producerKept_atProducer (hk : ProducerKept T s t) : AtProducer T t t.producer := by
  have hat := h.atProducer
  have hblock := h.owners.producer
  have hend : ∀ {slot}, BlockEnd T s slot → BlockEnd T t slot := by
    rintro slot ⟨htail, hslot, hfree⟩
    refine ⟨by rw [hk.tail, hk.length]; exact htail, by rw [hk.length]; exact hslot, ?_⟩
    intro b n hb
    rw [hk.length]
    exact hfree b n (hk.owner b n hb)
  have hlast : AtLast T s → AtLast T t := by
    intro hlast
    rw [AtLast, hk.indexTail, hk.length]
    exact hlast
  have hnext : ∀ {slot}, AtNext s slot → AtNext t slot := by
    rintro slot ⟨hbit, hkey⟩
    exact ⟨hk.indexTail.trans hbit, by rw [hk.key, hk.tail]; exact hkey⟩
  rw [hk.producer]
  cases hpc : s.producer with
  | idle =>
    rw [hpc] at hat
    exact ⟨by rw [hk.length, hk.tail]; exact hat.1, hlast hat.2⟩
  | insert e =>
    rw [hpc] at hat
    exact ⟨by rw [hk.length, hk.tail]; exact hat.1, hlast hat.2⟩
  | storeKey e slot =>
    rw [hpc] at hat
    exact ⟨hend hat.1, hlast hat.2⟩
  | storeTail e slot =>
    rw [hpc] at hat
    exact ⟨hend hat.1, hlast hat.2.1, by rw [hk.key, hk.tail]; exact hat.2.2⟩
  | requisition e slot =>
    rw [hpc] at hat
    exact ⟨hend hat.1, hnext hat.2⟩
  | rewind e slot =>
    rw [hpc] at hat
    exact ⟨hend hat.1, hnext hat.2⟩
  | clear e slot =>
    rw [hpc] at hat
    exact ⟨hend hat.1, hlast hat.2⟩
  | resetEmpty e slot block =>
    rw [hpc] at hat
    exact ⟨hend hat.1, hnext hat.2⟩
  | link e slot block =>
    rw [hpc] at hat
    have howner := (hblock block).mpr (by rw [hpc]; rfl)
    exact ⟨hend hat.1, hnext hat.2.1, (hk.counter block howner).trans hat.2.2⟩
  | construct e =>
    rw [hpc] at hat
    exact ⟨by rw [hk.length, hk.tail]; exact hat.1, hlast hat.2⟩
  | storeTailIndex e =>
    rw [hpc] at hat
    refine ⟨by rw [hk.length, hk.tail]; exact hat.1, hlast hat.2.1, fun b hb => ?_⟩
    rw [hk.tail] at hb ⊢
    have hb' := hk.owner b _ hb
    exact (hk.element b hb').trans (hat.2.2 b hb')

omit [DecidableEq κ] in
/-- Where `set_empty` counts, no element changes. -/
theorem counter_countEmpty {i slot block b : ℕ} {e : α}
    (hpc : s.consumers c = .setEmpty i slot block e) (hb : s.owner b = .producer) :
    ((countEmpty s block).blocks b).elementsCompletelyDequeued =
      (s.blocks b).elementsCompletelyDequeued := by
  obtain ⟨-, hblock⟩ := live_of_pc h hpc
  have hne : b ≠ block := (ne_of_owner hblock hb (by simp)).symm
  simp only [countEmpty, Function.update_of_ne hne]

theorem producerKept_consumer (hmove : ConsumerMove T s c t) : ProducerKept T s t := by
  have helement : ∀ block b, ((countEmpty s block).blocks b).elements = (s.blocks b).elements := by
    intro block b
    simp only [countEmpty, Function.update_apply]
    split_ifs with heq
    · rw [heq]
    · rfl
  cases hmove with
  | @move i slot block e hpc he =>
    have hslot := h.slot_of_pc (c := c) (i := i) (x := .reading c) (by rw [hpc]; rfl)
    have hat := h.atConsumer c
    rw [hpc] at hat
    refine ⟨rfl, rfl, rfl, rfl, fun _ => rfl, fun _ _ hb => hb, fun b hb => ?_, fun b hb => ?_⟩
    · have hne : b ≠ block := (ne_of_owner hat.2 hb (by simp)).symm
      simp only [State.setConsumer, State.setSlot, Function.update_of_ne hne]
    · by_cases heq : b = block
      · subst heq
        have hmod : s.tailIndex % T.blockSize ≠ i % T.blockSize := by
          intro hmod
          have hdiv := Owner.segment.inj (hat.2.symm.trans hb)
          have hidiv := Nat.div_add_mod i T.blockSize
          rw [hdiv, ← hmod, Nat.div_add_mod] at hidiv
          exact Nat.ne_of_lt (h.lt_tail hslot) hidiv.symm
        simp only [State.setConsumer, State.setSlot, Function.update_self,
          Function.update_of_ne hmod]
      · simp only [State.setConsumer, State.setSlot, Function.update_of_ne heq]
  | setEmpty hpc hne =>
    exact ⟨rfl, rfl, rfl, rfl, fun _ => rfl, fun _ _ hb => hb, fun b => counter_countEmpty h hpc,
      fun b _ => congrFun (helement _ b) _⟩
  | setLastEmpty hpc hlast =>
    exact ⟨rfl, rfl, List.length_set .., rfl, fun _ => rfl, fun _ _ hb => hb,
      fun b => counter_countEmpty h hpc, fun b _ => congrFun (helement _ b) _⟩
  | unlink hpc =>
    exact ⟨rfl, rfl, List.length_set .., rfl, key_update,
      fun b n hb => (of_update_owner hb (by simp)).2, fun _ _ => rfl, fun _ _ => rfl⟩
  | addToFreeList hpc =>
    exact ⟨rfl, rfl, rfl, rfl, fun _ => rfl, fun b n hb => (of_update_owner hb (by simp)).2,
      fun _ _ => rfl, fun _ _ => rfl⟩
  | _ =>
    exact ⟨rfl, rfl, rfl, rfl, fun _ => rfl, fun _ _ hb => hb, fun _ _ => rfl, fun _ _ => rfl⟩

/-- What the other threads know stays true. -/
theorem atConsumer_other (hmove : ConsumerMove T s c t) (c' : κ) :
    AtConsumer T t (s.consumers c') := by
  have hk := producerKept_consumer h hmove
  have hlength : s.segments.length ≤ t.segments.length := Nat.le_of_eq hk.length.symm
  have hat := h.atConsumer c'
  cases hmove with
  | @unlink i slot block e hpc =>
    obtain ⟨hclosing, hblock⟩ := closing_of_pc h hpc
    refine hat.mono c' hlength (fun _ _ he => he) hk.key fun b j x hx hdone hb => ?_
    have hne : b ≠ block := by
      rintro rfl
      -- the segment of an element that is not dequeued is not being closed
      obtain ⟨b', hb'⟩ := h.live_of_slot (h.slot_of_pc hx) hdone
      rw [Owner.segment.inj (hb.symm.trans hblock), hclosing] at hb'
      cases hb'
    exact (Function.update_of_ne hne _ _).trans hb
  | @addToFreeList i block e hpc =>
    have howner : s.owner block = .consumer c := (h.owners.consumer block c).mpr (by rw [hpc]; rfl)
    refine hat.mono c' hlength (fun _ _ he => he) hk.key fun b j x _ _ hb => ?_
    exact (Function.update_of_ne (ne_of_owner hb howner (by simp)) _ _).trans hb
  | _ => exact hat.mono c' hlength (fun _ _ he => he) hk.key fun _ _ _ _ _ hb => hb

omit [DecidableEq κ] in
theorem atLast_or_atNext : AtLast T s ∨ ∃ slot, BlockEnd T s slot ∧ AtNext s slot := by
  have hat := h.atProducer
  cases hpc : s.producer <;> rw [hpc] at hat
  case idle => exact .inl hat.2
  case insert => exact .inl hat.2
  case storeKey => exact .inl hat.2
  case storeTail => exact .inl hat.2.1
  case requisition => exact .inr ⟨_, hat⟩
  case rewind => exact .inr ⟨_, hat⟩
  case clear => exact .inl hat.2
  case resetEmpty => exact .inr ⟨_, hat⟩
  case link => exact .inr ⟨_, hat.1, hat.2.1⟩
  case construct => exact .inl hat.2
  case storeTailIndex => exact .inl hat.2.1

omit [DecidableEq κ] in
/-- From the tail of the index on, a thread finds the key of a segment that is not before its
own. -/
theorem key_of_loadIndexTail {i : ℕ} (hpc : s.consumers c = .loadIndexTail i) :
    ∃ k, i / T.blockSize ≤ k ∧ k ≤ s.segments.length ∧ s.blockIndexTail = k % T.indexSize ∧
      (s.blockIndex s.blockIndexTail).key = some (k * T.blockSize) := by
  have hslot := h.slot_of_pc (c := c) (i := i) (x := .reading c) (by rw [hpc]; rfl)
  obtain ⟨b, hb⟩ := h.live_of_slot hslot rfl
  have hb := h.owner_of_live hb
  have hlt := h.lt_length hb
  have hwindow := h.index.window b _ hb
  have hentry := h.index.entry b _ hb
  generalize i / T.blockSize = n at *
  rcases atLast_or_atNext h with hlast | ⟨slot, hend, hbit, hkey⟩
  · have hlast' : s.blockIndexTail = (s.segments.length - 1) % T.indexSize := by
      rw [hlast, Nat.sub_add_comm (by omega), Nat.add_mod_right]
    refine ⟨s.segments.length - 1, by omega, Nat.sub_le _ _, hlast', ?_⟩
    rw [hlast']
    by_cases hC : s.segments.length < s.segments.length - 1 + T.indexSize
    · exact h.index.key _ (by omega) hC
    · -- an index of one entry is that of the thread's own segment
      obtain rfl : n = s.segments.length - 1 := by omega
      rw [hentry]
  · refine ⟨s.segments.length, Nat.le_of_lt hlt, Nat.le_refl _, hbit.trans hend.2.1, ?_⟩
    rw [hbit, hkey, hend.1]

omit h [DecidableEq κ] in
/-- Counting from the tail of the index leads to the entry of a segment. -/
theorem indexSlot_eq (i k : ℕ) :
    indexSlot T i (k % T.indexSize) (k * T.blockSize) = i / T.blockSize % T.indexSize := by
  have hB : (T.blockSize : ℤ) ≠ 0 := by
    have := T.blockSize_pos
    omega
  have hdiff : ((i / T.blockSize * T.blockSize : ℕ) : ℤ) - ((k * T.blockSize : ℕ) : ℤ) =
      (((i / T.blockSize : ℕ) : ℤ) - k) * T.blockSize := by
    rw [Int.natCast_mul, Int.natCast_mul, ← Int.sub_mul]
  unfold indexSlot
  dsimp only
  rw [hdiff, Int.mul_tdiv_cancel _ hB, Int.natCast_emod, Int.emod_add_emod, add_sub_cancel,
    ← Int.natCast_emod, Int.toNat_natCast]

theorem atConsumer_self (hmove : ConsumerMove T s c t) : AtConsumer T t (t.consumers c) := by
  have hat := h.atConsumer c
  cases hmove with
  | @loadIndexTail i hpc =>
    have hkey := key_of_loadIndexTail h hpc
    simp only [State.setConsumer, Function.update_self]
    exact hkey
  | @loadKey i tail tailBase hpc hkey =>
    rw [hpc] at hat
    obtain ⟨k, -, -, rfl, hbase⟩ := hat
    obtain rfl := Option.some.inj (hkey.symm.trans hbase)
    simp only [State.setConsumer, Function.update_self]
    exact indexSlot_eq i k
  | @loadValue i slot block hpc hvalue =>
    have hslot := h.slot_of_pc (c := c) (i := i) (x := .reading c) (by rw [hpc]; rfl)
    obtain ⟨b, hb⟩ := h.live_of_slot hslot rfl
    have hb := h.owner_of_live hb
    rw [hpc] at hat
    obtain rfl := hat
    rw [h.index.entry b _ hb] at hvalue
    obtain rfl := Option.some.inj hvalue
    simp only [State.setConsumer, Function.update_self]
    exact ⟨rfl, hb⟩
  | @move i slot block e hpc he =>
    have hslot := h.slot_of_pc (c := c) (i := i) (x := .reading c) (by rw [hpc]; rfl)
    rw [hpc] at hat
    have helement := h.contents.element block i hat.2 (h.lt_tail hslot) fun x hx => by
      obtain rfl := Option.some.inj (hslot.symm.trans hx)
      rfl
    rw [he] at helement
    simp only [State.setConsumer, Function.update_self]
    exact ⟨hat.1, hat.2, helement.symm⟩
  | setLastEmpty hpc hlast =>
    rw [hpc] at hat
    simp only [State.setConsumer, Function.update_self]
    exact ⟨hat.1, hat.2.2⟩
  | unlink hpc =>
    rw [hpc] at hat
    simp only [State.setConsumer, Function.update_self]
    exact hat.2
  | _ =>
    simp only [State.setConsumer, State.return, Function.update_self]
    trivial

theorem inv_consumer (hmove : ConsumerMove T s c t) : Inv T t where
  counters := counters_consumer h.counters hmove
  held := held_consumer h hmove
  owners := owners_consumer h hmove
  phases := phases_consumer h hmove
  index := index_consumer h hmove
  contents := contents_consumer h hmove
  atProducer := producerKept_atProducer h (producerKept_consumer h hmove)
  atConsumer c' := by
    by_cases hc : c' = c
    · subst hc
      exact atConsumer_self h hmove
    · rw [hmove.consumers_ne hc]
      exact atConsumer_other h hmove c'

/-- A call of `try_dequeue` begins. -/
theorem inv_start (hidle : s.consumers c = .idle) {tail : ℕ} :
    Inv T (s.setConsumer c (.sizeHead tail)) where
  counters := h.counters.of_eq rfl rfl rfl rfl rfl rfl rfl rfl (by rw [hidle]; rfl) trivial
  held := held_of_eq h rfl rfl (by rw [hidle]; rfl)
  owners :=
    ⟨h.owners.pool, h.owners.poolSize, h.owners.freeList, h.owners.nodup, h.owners.producer,
      h.owners.segment, owner_consumer h.owners (by rw [hidle]; rfl)⟩
  phases := ⟨h.phases.live, closing_consumer h.phases (by rw [hidle]; rfl)⟩
  index := ⟨h.index.tail_le, h.index.le_tail, h.index.tailBlock, h.index.window, h.index.entry,
    h.index.value, h.index.key⟩
  contents := ⟨h.contents.counter, h.contents.element⟩
  atProducer := h.atProducer
  atConsumer c' := by
    by_cases hc : c' = c
    · subst hc
      simp only [State.setConsumer, Function.update_self]
      trivial
    · simp only [State.setConsumer, Function.update_of_ne hc]
      exact (h.atConsumer c').mono c' (Nat.le_refl _) (fun _ _ he => he) (fun _ => rfl)
        fun _ _ _ _ _ hb => hb

end

theorem inv_step [DecidableEq κ] {l : Label κ α} (h : Inv T s) (hstep : step T s l = some t) :
    Inv T t := by
  rcases step_cases hstep with ⟨c, hidle, rfl⟩ | hmove | ⟨c, hmove⟩
  · exact inv_start h hidle
  · exact inv_producer h hmove
  · exact inv_consumer h hmove

end ConcurrentQueue
end HVBench
