import HVBench.ConcurrentQueue.Blocks

/-! The steps of the thread that enqueues. -/
namespace HVBench
namespace ConcurrentQueue
open Counting Holding
variable {κ α : Type} {T : Traits} {s t : State κ α}

/-- A block of a segment is not the one whose owner changes. -/
theorem ne_of_owner {f : ℕ → Owner κ} {b b' n : ℕ} {o : Owner κ} (hb : f b = .segment n)
    (hb' : f b' = o) (ho : o ≠ .segment n) : b ≠ b' := by
  rintro rfl
  exact ho (hb'.symm.trans hb)

theorem of_update_owner {f : ℕ → Owner κ} {b b' n : ℕ} {o : Owner κ}
    (h : Function.update f b' o b = .segment n) (ho : o ≠ .segment n) :
    b ≠ b' ∧ f b = .segment n := by
  by_cases hb : b = b'
  · subst hb
    rw [Function.update_self] at h
    exact absurd h ho
  · rw [Function.update_of_ne hb] at h
    exact ⟨hb, h⟩

/-- The enqueuing thread takes a block that is in no segment. -/
theorem owners_take {b : ℕ} {o : Owner κ} (ho : Owners T s) (hb : s.owner b = o)
    (hfree : o = .pool ∨ o = .freeList) (hnone : s.producer.block = none) (pc : Producer α)
    (hpc : pc.block = some b) :
    (∀ b', Function.update s.owner b .producer b' = .producer ↔ pc.block = some b') ∧
    (∀ b' n, Function.update s.owner b .producer b' = .segment n ↔
      ∃ phase, s.segments[n]? = some ⟨b', phase⟩ ∧ phase ≠ .unlinked) ∧
    ∀ b' c, Function.update s.owner b .producer b' = .consumer c ↔
      (s.consumers c).block = some b' := by
  refine ⟨fun b' => ?_, fun b' n => ?_, fun b' c => ?_⟩
  · have hproducer := ho.producer b'
    rw [hnone] at hproducer
    rw [hpc, Function.update_apply]
    split_ifs with hb'
    · simp [hb']
    · simp [hproducer, Ne.symm hb']
  · rw [← ho.segment, Function.update_apply]
    split_ifs with hb'
    · subst hb'
      rcases hfree with rfl | rfl <;> simp [hb]
    · rfl
  · rw [← ho.consumer, Function.update_apply]
    split_ifs with hb'
    · subst hb'
      rcases hfree with rfl | rfl <;> simp [hb]
    · rfl

section
variable (h : Inv T s)
include h

theorem owners_producer (hmove : ProducerMove T s t) : Owners T t := by
  have ho := h.owners
  have hblock := ho.producer
  cases hmove with
  | startFull hpc hge =>
    exact ⟨ho.pool, ho.poolSize, ho.freeList, ho.nodup, hblock, ho.segment, ho.consumer⟩
  | @requisitionPool e slot hpc hlt =>
    have hpool : s.owner s.initialBlockPoolIndex = .pool := (ho.pool _).mpr (Nat.le_refl _)
    obtain ⟨hproducer, hsegment, hconsumer⟩ := owners_take ho hpool (.inl rfl)
      (by rw [hpc]; rfl) (.resetEmpty e slot s.initialBlockPoolIndex) rfl
    refine ⟨fun b => ?_, hlt, fun b => ?_, ho.nodup, hproducer, hsegment, hconsumer⟩
    · change Function.update s.owner _ _ b = .pool ↔ s.initialBlockPoolIndex + 1 ≤ b
      have hb := ho.pool b
      rw [Function.update_apply]
      split_ifs with heq
      · simp [heq]
      · rw [hb]
        omega
    · change Function.update s.owner _ _ b = .freeList ↔ b ∈ s.freeList
      rw [← ho.freeList, Function.update_apply]
      split_ifs with heq
      · simp [heq, hpool]
      · rfl
  | @requisitionFreeList e slot block rest hpc hpool hfree =>
    have hmem : s.owner block = .freeList := (ho.freeList _).mpr (by simp [hfree])
    obtain ⟨hproducer, hsegment, hconsumer⟩ := owners_take ho hmem (.inr rfl)
      (by rw [hpc]; rfl) (.resetEmpty e slot block) rfl
    have hnodup := ho.nodup
    rw [hfree, List.nodup_cons] at hnodup
    refine ⟨fun b => ?_, ho.poolSize, fun b => ?_, hnodup.2, hproducer, hsegment, hconsumer⟩
    · change Function.update s.owner _ _ b = .pool ↔ s.initialBlockPoolIndex ≤ b
      rw [← ho.pool, Function.update_apply]
      split_ifs with heq
      · simp [heq, hmem]
      · rfl
    · change Function.update s.owner _ _ b = .freeList ↔ b ∈ rest
      have hb := ho.freeList b
      rw [hfree] at hb
      rw [Function.update_apply]
      split_ifs with heq
      · simp [heq, hnodup.1]
      · rw [hb]
        simp [heq]
  | @link e slot block hpc =>
    have howner : s.owner block = .producer := (hblock block).mpr (by rw [hpc]; rfl)
    have hother : ∀ {o : Owner κ} {b}, o ≠ .producer → (∀ n, o ≠ .segment n) →
        (Function.update s.owner block (.segment s.segments.length) b = o ↔ s.owner b = o) := by
      intro o b hproducer hsegment
      rw [Function.update_apply]
      split_ifs with heq
      · rw [heq, howner]
        exact iff_of_false (Ne.symm (hsegment _)) (Ne.symm hproducer)
      · rfl
    refine ⟨fun b => (hother (by simp) (by simp)).trans (ho.pool b), ho.poolSize,
      fun b => (hother (by simp) (by simp)).trans (ho.freeList b), ho.nodup, fun b => ?_,
      fun b n => ?_, fun b c => (hother (by simp) (by simp)).trans (ho.consumer b c)⟩
    · change Function.update s.owner _ _ b = .producer ↔ none = some b
      have hb := hblock b
      rw [hpc] at hb
      rw [Function.update_apply]
      split_ifs with heq
      · simp
      · rw [hb]
        simpa [Producer.block] using Ne.symm heq
    · change Function.update s.owner _ _ b = .segment n ↔
        ∃ phase, (s.segments ++ [⟨block, .live⟩])[n]? = some ⟨b, phase⟩ ∧ phase ≠ .unlinked
      rw [Function.update_apply]
      split_ifs with heq
      · subst heq
        constructor
        · intro hn
          cases hn
          exact ⟨.live, by simp, by simp⟩
        · rintro ⟨phase, hn, hphase⟩
          rcases getElem?_snoc hn with hn | ⟨rfl, -⟩
          · have hsegment := (ho.segment b n).mpr ⟨phase, hn, hphase⟩
            rw [howner] at hsegment
            cases hsegment
          · rfl
      · rw [ho.segment]
        constructor
        · rintro ⟨phase, hn, hphase⟩
          exact ⟨phase, getElem?_snoc_of hn, hphase⟩
        · rintro ⟨phase, hn, hphase⟩
          rcases getElem?_snoc hn with hn | ⟨-, hsegment⟩
          · exact ⟨phase, hn, hphase⟩
          · cases hsegment
            exact absurd rfl heq
  | _ =>
    rw [‹s.producer = _›] at hblock
    exact ⟨ho.pool, ho.poolSize, ho.freeList, ho.nodup, hblock, ho.segment, ho.consumer⟩

theorem phases_producer (hmove : ProducerMove T s t) : Phases T t := by
  have hat := h.atProducer
  cases hmove with
  | @link e slot block hpc =>
    rw [hpc] at hat
    obtain ⟨⟨htail, -, -⟩, -, -⟩ := hat
    constructor
    · intro n segment hn
      rcases getElem?_snoc hn with hn | ⟨rfl, rfl⟩
      · exact h.phases.live n segment hn
      · have hzero : emptied T s s.segments.length = 0 := stretch_eq_zero (by
          rw [h.counters.slots, ← htail]
          exact h.counters.head_le)
        exact iff_of_true rfl (Nat.lt_of_le_of_lt (Nat.le_of_eq hzero) T.blockSize_pos)
    · intro n b c
      refine Iff.trans ⟨fun hn => ?_, getElem?_snoc_of⟩ (h.phases.closing n b c)
      rcases getElem?_snoc hn with hn | ⟨-, hsegment⟩
      · exact hn
      · cases hsegment
  | _ => exact ⟨h.phases.live, h.phases.closing⟩

/-- A store into the entry for the next segment. -/
theorem index_store {slot : ℕ} (hend : BlockEnd T s slot) (entry : BlockIndexEntry) :
    (∀ b n, s.owner b = .segment n →
      Function.update s.blockIndex slot entry (n % T.indexSize) =
        ⟨some (n * T.blockSize), some b⟩) ∧
    ∀ n, n < s.segments.length → s.segments.length < n + T.indexSize →
      (Function.update s.blockIndex slot entry (n % T.indexSize)).key =
        some (n * T.blockSize) := by
  constructor
  · intro b n hb
    rw [Function.update_of_ne (h.mod_ne hend hb)]
    exact h.index.entry b n hb
  · intro n hn hlt
    rw [Function.update_of_ne (by rw [hend.2.1]; exact mod_ne_of_lt hn hlt)]
    exact h.index.key n hn hlt

/-- The enqueuing thread takes a block. -/
theorem index_take {b : ℕ} {o : Owner κ} (hb : s.owner b = o) (ho : ∀ n, o ≠ .segment n)
    (ht : t.owner = Function.update s.owner b .producer) (htail : t.tailIndex = s.tailIndex)
    (hsegments : t.segments = s.segments) (hblock : t.tailBlock = s.tailBlock)
    (hindex : t.blockIndex = s.blockIndex) : Index T t := by
  have hi := h.index
  have hold : ∀ {b' n}, t.owner b' = .segment n → s.owner b' = .segment n := by
    intro b' n hb'
    rw [ht] at hb'
    exact (of_update_owner hb' (by simp)).2
  refine ⟨?_, ?_, ?_, fun b' n hb' => ?_, fun b' n hb' => ?_, fun k b' hk => ?_, fun n hn => ?_⟩
  · rw [htail, hsegments]
    exact hi.tail_le
  · rw [htail, hsegments]
    exact hi.le_tail
  · rw [hblock, hsegments]
    exact hi.tailBlock
  · rw [hsegments]
    exact hi.window b' n (hold hb')
  · rw [hindex]
    exact hi.entry b' n (hold hb')
  · rw [hindex] at hk
    obtain ⟨n, hn, hmod⟩ := hi.value k b' hk
    refine ⟨n, ?_, hmod⟩
    rw [ht, Function.update_of_ne (ne_of_owner hn hb (ho n))]
    exact hn
  · rw [hsegments] at hn ⊢
    rw [hindex]
    exact hi.key n hn

theorem index_producer (hmove : ProducerMove T s t) : Index T t := by
  have hi := h.index
  have hat := h.atProducer
  cases hmove with
  | @storeKey e slot hpc =>
    rw [hpc] at hat
    obtain ⟨hentry, hkey⟩ := index_store h hat.1 _
    refine ⟨hi.tail_le, hi.le_tail, hi.tailBlock, hi.window, hentry, fun k b hk => ?_, hkey⟩
    exact hi.value k b ((value_update k).symm.trans hk)
  | @clear e slot hpc =>
    rw [hpc] at hat
    obtain ⟨hentry, hkey⟩ := index_store h hat.1 _
    refine ⟨hi.tail_le, hi.le_tail, hi.tailBlock, hi.window, hentry, fun k b hk => ?_, hkey⟩
    simp only [Function.update_apply] at hk
    split_ifs at hk with heq
    exact hi.value k b hk
  | requisitionPool hpc hlt =>
    have hpool := (h.owners.pool s.initialBlockPoolIndex).mpr (Nat.le_refl _)
    exact index_take h hpool (by simp) rfl rfl rfl rfl rfl
  | @requisitionFreeList e slot block rest hpc hpool hfree =>
    have hmem := (h.owners.freeList block).mpr (by rw [hfree]; exact List.mem_cons_self)
    exact index_take h hmem (by simp) rfl rfl rfl rfl rfl
  | @link e slot block hpc =>
    have howner := (h.owners.producer block).mpr (by rw [hpc]; rfl)
    rw [hpc] at hat
    obtain ⟨hend, ⟨-, hslot⟩, -⟩ := hat
    obtain ⟨hentry, hkey⟩ := index_store h hend ⟨(s.blockIndex slot).key, some block⟩
    have hC := T.indexSize_pos
    have hlength : (s.segments ++ [Segment.mk block .live]).length = s.segments.length + 1 := by
      simp
    rw [hend.1] at hslot
    constructor
    · change s.tailIndex ≤ (s.segments ++ [Segment.mk block .live]).length * T.blockSize
      rw [hlength, Nat.succ_mul, ← hend.1]
      exact Nat.le_add_right _ _
    · change (s.segments ++ [Segment.mk block .live]).length * T.blockSize ≤
        s.tailIndex + T.blockSize
      rw [hlength, Nat.succ_mul, ← hend.1]
    · simp
    · intro b n hb
      change (s.segments ++ [Segment.mk block .live]).length ≤ n + T.indexSize
      rw [hlength]
      by_cases heq : b = block
      · subst heq
        simp only [Function.update_self] at hb
        cases hb
        omega
      · simp only [Function.update_of_ne heq] at hb
        exact hend.2.2 b n hb
    · intro b n hb
      by_cases heq : b = block
      · subst heq
        simp only [Function.update_self] at hb
        cases hb
        change Function.update s.blockIndex slot _ (s.segments.length % T.indexSize) = _
        rw [← hend.2.1, Function.update_self, hslot]
      · simp only [Function.update_of_ne heq] at hb
        exact hentry b n hb
    · intro k b hk
      by_cases heq : k = slot
      · subst heq
        simp only [Function.update_self] at hk
        obtain rfl := Option.some.inj hk
        exact ⟨s.segments.length, Function.update_self .., hend.2.1.symm⟩
      · simp only [Function.update_of_ne heq] at hk
        obtain ⟨n, hn, hmod⟩ := hi.value k b hk
        exact ⟨n, (Function.update_of_ne (ne_of_owner hn howner (by simp)) _ _).trans hn, hmod⟩
    · intro n hn hlt
      change n < (s.segments ++ [Segment.mk block .live]).length at hn
      change (s.segments ++ [Segment.mk block .live]).length < n + T.indexSize at hlt
      rw [hlength] at hn hlt
      rcases Nat.lt_or_ge n s.segments.length with hlt' | hge
      · exact hkey n hlt' (by omega)
      · obtain rfl : n = s.segments.length := by omega
        change (Function.update s.blockIndex slot _ (s.segments.length % T.indexSize)).key = _
        rw [← hend.2.1, Function.update_self, hslot]
  | @storeTailIndex e hpc =>
    rw [hpc] at hat
    refine ⟨hat.1, Nat.le_trans hi.le_tail ?_, hi.tailBlock, hi.window, hi.entry, hi.value, hi.key⟩
    exact Nat.add_le_add_right (Nat.le_succ _) _
  | _ => exact ⟨hi.tail_le, hi.le_tail, hi.tailBlock, hi.window, hi.entry, hi.value, hi.key⟩

theorem contents_producer (hmove : ProducerMove T s t) : Contents T t := by
  have hc := h.contents
  have hat := h.atProducer
  have hblock := h.owners.producer
  cases hmove with
  | requisitionPool hpc hlt =>
    exact ⟨fun b n hb => hc.counter b n (of_update_owner hb (by simp)).2,
      fun b i hb => hc.element b i (of_update_owner hb (by simp)).2⟩
  | requisitionFreeList hpc hpool hfree =>
    exact ⟨fun b n hb => hc.counter b n (of_update_owner hb (by simp)).2,
      fun b i hb => hc.element b i (of_update_owner hb (by simp)).2⟩
  | @resetEmpty e slot block hpc =>
    have howner : s.owner block = .producer := (hblock block).mpr (by rw [hpc]; rfl)
    constructor
    · intro b n hb
      simp only [Function.update_of_ne (ne_of_owner hb howner (by simp))]
      exact hc.counter b n hb
    · intro b i hb
      simp only [Function.update_of_ne (ne_of_owner hb howner (by simp))]
      exact hc.element b i hb
  | @link e slot block hpc =>
    rw [hpc] at hat
    obtain ⟨⟨htail, -, -⟩, -, hzero⟩ := hat
    constructor
    · intro b n hb
      by_cases heq : b = block
      · subst heq
        simp only [Function.update_self] at hb
        cases hb
        refine hzero.trans (stretch_eq_zero ?_).symm
        rw [← htail]
        exact Nat.le_trans (Nat.le_of_eq h.counters.slots) h.counters.head_le
      · simp only [Function.update_of_ne heq] at hb
        exact hc.counter b n hb
    · intro b i hb hi
      by_cases heq : b = block
      · subst heq
        simp only [Function.update_self] at hb
        exact absurd (Owner.segment.inj hb).symm (Nat.ne_of_lt (h.div_lt hi))
      · simp only [Function.update_of_ne heq] at hb
        exact hc.element b i hb hi
  | @construct e block hpc htailBlock =>
    rw [hpc] at hat
    obtain ⟨b', hb', howner, -⟩ := h.last hat.1
    obtain rfl := Option.some.inj (htailBlock.symm.trans hb')
    constructor
    · intro b n hb
      simp only [Function.update_apply]
      split_ifs with heq
      · rw [heq] at hb
        exact hc.counter block n hb
      · exact hc.counter b n hb
    · intro b i hb hi hreading
      rw [← hc.element b i hb hi hreading]
      by_cases heq : b = block
      · subst heq
        -- the place of the new element is not that of an older one
        have hmod : i % T.blockSize ≠ s.tailIndex % T.blockSize := by
          intro hmod
          have hdiv := Owner.segment.inj (hb.symm.trans howner)
          have hidiv := Nat.div_add_mod i T.blockSize
          rw [hdiv, hmod, Nat.div_add_mod] at hidiv
          exact Nat.ne_of_lt hi hidiv.symm
        simp only [Function.update_self, Function.update_of_ne hmod]
      · simp only [Function.update_of_ne heq]
  | @storeTailIndex e hpc =>
    rw [hpc] at hat
    refine ⟨hc.counter, fun b i hb hi hreading => ?_⟩
    rcases Nat.lt_succ_iff_lt_or_eq.mp hi with hlt | rfl
    · change (s.blocks b).elements (i % T.blockSize) = (s.enqueued ++ [e])[i]?
      rw [hc.element b i hb hlt hreading, List.getElem?_append_left (by
        rw [← h.counters.tail]; exact hlt)]
    · change (s.blocks b).elements (s.tailIndex % T.blockSize) = (s.enqueued ++ [e])[s.tailIndex]?
      rw [hat.2.2 b hb, h.counters.tail]
      simp
  | _ => exact ⟨hc.counter, hc.element⟩

/-- A full block ends where the next one begins. -/
theorem eq_of_idle (hlt : s.segments.length * T.blockSize < s.tailIndex + T.blockSize)
    (hmod : s.tailIndex % T.blockSize = 0) :
    s.tailIndex = s.segments.length * T.blockSize := by
  have hdivmod := Nat.div_add_mod' s.tailIndex T.blockSize
  rw [hmod, Nat.add_zero] at hdivmod
  have hle := h.index.tail_le
  rw [← hdivmod] at hle hlt ⊢
  rw [← Nat.succ_mul] at hlt
  have hle' := Nat.le_of_mul_le_mul_right hle T.blockSize_pos
  have hlt' := Nat.lt_of_mul_lt_mul_right hlt
  rw [Nat.le_antisymm hle' (Nat.le_of_lt_succ hlt')]

/-- The entry that the enqueuing thread finds free is that for the next segment. -/
theorem blockEnd_of_free (htail : s.tailIndex = s.segments.length * T.blockSize)
    (hlast : AtLast T s)
    (hfree : (s.blockIndex ((s.blockIndexTail + 1) % T.indexSize)).key = none ∨
      (s.blockIndex ((s.blockIndexTail + 1) % T.indexSize)).value = none) :
    BlockEnd T s ((s.blockIndexTail + 1) % T.indexSize) := by
  have hC := T.indexSize_pos
  have hslot : (s.blockIndexTail + 1) % T.indexSize = s.segments.length % T.indexSize := by
    rw [hlast, Nat.mod_add_mod, Nat.sub_add_cancel (by omega), Nat.add_mod_right]
  refine ⟨htail, hslot, fun b n hb => ?_⟩
  refine Nat.lt_of_le_of_ne (h.index.window b n hb) fun heq => ?_
  rw [hslot, heq, Nat.add_mod_right, h.index.entry b n hb] at hfree
  rcases hfree with hkey | hvalue
  · cases hkey
  · cases hvalue

theorem atProducer_producer (hmove : ProducerMove T s t) : AtProducer T t t.producer := by
  have hat := h.atProducer
  have hB := T.blockSize_pos
  have hC := T.indexSize_pos
  cases hmove with
  | startBlock hpc htail =>
    rw [hpc] at hat
    have heq := eq_of_idle h hat.1 htail
    exact ⟨heq, hat.2⟩
  | startFull hpc hge => exact hat
  | startConstruct hpc htail =>
    rw [hpc] at hat
    refine ⟨Nat.lt_of_le_of_ne h.index.tail_le fun heq => htail ?_, hat.2⟩
    rw [heq]
    exact Nat.mul_mod_left _ _
  | insert hpc hfree =>
    rw [hpc] at hat
    have hend := blockEnd_of_free h hat.1 hat.2 hfree
    exact ⟨hend, hat.2⟩
  | noEntry hpc hfull =>
    rw [hpc] at hat
    exact ⟨by rw [← hat.1]; exact Nat.lt_add_of_pos_right hB, hat.2⟩
  | storeKey hpc =>
    rw [hpc] at hat
    refine ⟨hat.1, hat.2, ?_⟩
    simp only [Function.update_self]
  | storeTail hpc =>
    rw [hpc] at hat
    exact ⟨hat.1, rfl, hat.2.2⟩
  | requisitionPool hpc hlt =>
    rw [hpc] at hat
    obtain ⟨⟨htail, hslot, hfree⟩, hnext⟩ := hat
    exact ⟨⟨htail, hslot, fun b n hb => hfree b n (of_update_owner hb (by simp)).2⟩, hnext⟩
  | requisitionFreeList hpc hpool hmem =>
    rw [hpc] at hat
    obtain ⟨⟨htail, hslot, hfree⟩, hnext⟩ := hat
    exact ⟨⟨htail, hslot, fun b n hb => hfree b n (of_update_owner hb (by simp)).2⟩, hnext⟩
  | noBlock hpc hpool hmem =>
    rw [hpc] at hat
    exact hat
  | rewind hpc =>
    rw [hpc] at hat
    refine ⟨hat.1, ?_⟩
    change (s.blockIndexTail + T.indexSize - 1) % T.indexSize = _
    rw [hat.2.1, hat.1.2.1, Nat.add_sub_assoc hC, Nat.add_sub_assoc hC, Nat.mod_add_mod]
  | clear hpc =>
    rw [hpc] at hat
    exact ⟨by rw [← hat.1.1]; exact Nat.lt_add_of_pos_right hB, hat.2⟩
  | resetEmpty hpc =>
    rw [hpc] at hat
    refine ⟨hat.1, hat.2, ?_⟩
    simp only [Function.update_self]
  | @link e slot block hpc =>
    rw [hpc] at hat
    obtain ⟨⟨htail, hslot, -⟩, ⟨hbit, -⟩, -⟩ := hat
    have hlength : (s.segments ++ [Segment.mk block .live]).length = s.segments.length + 1 := by
      simp
    constructor
    · change s.tailIndex < (s.segments ++ [Segment.mk block .live]).length * T.blockSize
      rw [hlength, htail]
      exact Nat.mul_lt_mul_of_pos_right (Nat.lt_succ_self _) hB
    · change s.blockIndexTail =
        ((s.segments ++ [Segment.mk block .live]).length + T.indexSize - 1) % T.indexSize
      rw [hlength, hbit, hslot, Nat.add_right_comm, Nat.add_sub_cancel, Nat.add_mod_right]
  | @construct e block hpc htailBlock =>
    rw [hpc] at hat
    refine ⟨hat.1, hat.2, fun b hb => ?_⟩
    obtain ⟨b', hb', howner, -⟩ := h.last hat.1
    obtain rfl := Option.some.inj (htailBlock.symm.trans hb')
    obtain rfl := h.owner_inj hb howner
    simp only [Function.update_self]
  | storeTailIndex hpc =>
    rw [hpc] at hat
    exact ⟨Nat.lt_of_le_of_lt h.index.le_tail (by
      rw [Nat.add_right_comm]; exact Nat.lt_succ_self _), hat.2.1⟩

/-- The key of the next segment is not stored where a thread still looks. -/
theorem atConsumer_storeKey {c : κ} {slot : ℕ} {pc : Consumer α} (hpc : s.consumers c = pc)
    (hend : BlockEnd T s slot) {t : State κ α} (hsegments : t.segments = s.segments)
    (hindex : t.blockIndex =
      Function.update s.blockIndex slot ⟨some s.tailIndex, (s.blockIndex slot).value⟩)
    (henqueued : t.enqueued = s.enqueued) (howner : t.owner = s.owner) :
    AtConsumer T t pc := by
  have hat := h.atConsumer c
  rw [hpc] at hat
  cases pc with
  | loadKey i tail =>
    obtain ⟨k, hik, hk, htail, hkey⟩ := hat
    refine ⟨k, hik, by rw [hsegments]; exact hk, htail, ?_⟩
    rw [hindex]
    by_cases heq : tail = slot
    · subst heq
      have hslot := h.slot_of_pc (c := c) (i := i) (x := .reading c) (by rw [hpc]; rfl)
      obtain ⟨b, hb⟩ := h.live_of_slot hslot rfl
      have hfree := hend.2.2 b _ (h.owner_of_live hb)
      have hkL : k = s.segments.length := by
        rcases Nat.lt_or_eq_of_le hk with hlt | heq
        · exact absurd (htail.symm.trans hend.2.1) (mod_ne_of_lt hlt (by omega))
        · exact heq
      rw [Function.update_self, hend.1, hkL]
    · rw [Function.update_of_ne heq]
      exact hkey
  | loadValue i slot => exact hat
  | move i slot b => exact ⟨hat.1, by rw [howner]; exact hat.2⟩
  | setEmpty i slot b e =>
    exact ⟨hat.1, by rw [howner]; exact hat.2.1, by rw [henqueued]; exact hat.2.2⟩
  | unlink i slot b e => exact ⟨hat.1, by rw [henqueued]; exact hat.2⟩
  | addToFreeList i b e => exact (congrArg (·[i]?) henqueued).trans hat
  | _ => trivial

theorem atConsumer_producer (hmove : ProducerMove T s t) (c : κ) :
    AtConsumer T t (t.consumers c) := by
  have hat := h.atProducer
  have hc := h.atConsumer c
  cases hmove with
  | storeKey hpc =>
    rw [hpc] at hat
    exact atConsumer_storeKey h rfl hat.1 rfl rfl rfl rfl
  | requisitionPool hpc hlt =>
    refine hc.mono c (Nat.le_refl _) (fun _ _ he => he) (fun _ => rfl) fun b _ _ _ _ hb => ?_
    have hpool := (h.owners.pool s.initialBlockPoolIndex).mpr (Nat.le_refl _)
    exact (Function.update_of_ne (ne_of_owner hb hpool (by simp)) _ _).trans hb
  | @requisitionFreeList e slot block rest hpc hpool hfree =>
    refine hc.mono c (Nat.le_refl _) (fun _ _ he => he) (fun _ => rfl) fun b _ _ _ _ hb => ?_
    have hmem := (h.owners.freeList block).mpr (by rw [hfree]; exact List.mem_cons_self)
    exact (Function.update_of_ne (ne_of_owner hb hmem (by simp)) _ _).trans hb
  | @clear e slot hpc =>
    exact hc.mono c (Nat.le_refl _) (fun _ _ he => he) key_update fun _ _ _ _ _ hb => hb
  | @link e slot block hpc =>
    refine hc.mono c ?_ (fun _ _ he => he) key_update fun b _ _ _ _ hb => ?_
    · exact List.length_append ▸ Nat.le_add_right _ _
    · have howner := (h.owners.producer block).mpr (by rw [hpc]; rfl)
      exact (Function.update_of_ne (ne_of_owner hb howner (by simp)) _ _).trans hb
  | storeTailIndex hpc =>
    exact hc.mono c (Nat.le_refl _) (fun _ _ he => getElem?_snoc_of he) (fun _ => rfl)
      fun _ _ _ _ _ hb => hb
  | _ =>
    exact hc.mono c (Nat.le_refl _) (fun _ _ he => he) (fun _ => rfl) fun _ _ _ _ _ hb => hb

theorem held_producer (hmove : ProducerMove T s t) :
    Held Slot.holder t.slots fun c => (t.consumers c).slot c := by
  cases hmove <;> exact h.held

end

theorem inv_producer (h : Inv T s) (hmove : ProducerMove T s t) : Inv T t where
  counters := counters_producer h.counters hmove
  held := held_producer h hmove
  owners := owners_producer h hmove
  phases := phases_producer h hmove
  index := index_producer h hmove
  contents := contents_producer h hmove
  atProducer := atProducer_producer h hmove
  atConsumer := atConsumer_producer h hmove

end ConcurrentQueue
end HVBench
