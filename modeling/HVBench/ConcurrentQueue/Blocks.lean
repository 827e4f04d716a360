import HVBench.ConcurrentQueue.Counters
import Mathlib.Order.Interval.Finset.Nat

/-! Where the blocks are. Each has one owner, the entries of the index lead to those with
elements, and a block counts the elements taken out of it. -/
namespace HVBench
namespace ConcurrentQueue
open Counting Holding
variable {κ α : Type}

namespace Slot

def isDone : Slot κ → Bool
  | emptied _ => true
  | returned => true
  | _ => false

def isReading : Slot κ → Bool
  | reading _ => true
  | _ => false

/-- The thread that dequeues the element. -/
def holder : Slot κ → Option κ
  | reading c => some c
  | moved c => some c
  | emptied c => some c
  | returned => none

end Slot

namespace Consumer

/-- The index a thread has claimed, and how far it is with the element. -/
def slot (c : κ) : Consumer α → Option (ℕ × Slot κ)
  | loadIndexTail index => some (index, .reading c)
  | loadKey index _ => some (index, .reading c)
  | loadValue index _ => some (index, .reading c)
  | move index _ _ => some (index, .reading c)
  | setEmpty index _ _ _ => some (index, .moved c)
  | unlink index _ _ _ => some (index, .emptied c)
  | addToFreeList index _ _ => some (index, .emptied c)
  | _ => none

/-- The segment a thread takes out of the index, with its block. -/
def closes (T : Traits) : Consumer α → Option (ℕ × ℕ)
  | unlink index _ block _ => some (index / T.blockSize, block)
  | _ => none

/-- The block a thread gives back. -/
def block : Consumer α → Option ℕ
  | addToFreeList _ block _ => some block
  | _ => none

end Consumer

/-- The block of a thread that has not put it into the index. -/
def Producer.block : Producer α → Option ℕ
  | resetEmpty _ _ block => some block
  | link _ _ block => some block
  | _ => none

structure Owners (T : Traits) (s : State κ α) : Prop where
  pool : ∀ b, s.owner b = .pool ↔ s.initialBlockPoolIndex ≤ b
  poolSize : s.initialBlockPoolIndex ≤ T.poolSize
  freeList : ∀ b, s.owner b = .freeList ↔ b ∈ s.freeList
  nodup : s.freeList.Nodup
  producer : ∀ b, s.owner b = .producer ↔ s.producer.block = some b
  segment : ∀ b n, s.owner b = .segment n ↔
    ∃ phase, s.segments[n]? = some ⟨b, phase⟩ ∧ phase ≠ .unlinked
  consumer : ∀ b c, s.owner b = .consumer c ↔ (s.consumers c).block = some b

/-- How many elements of a segment are dequeued. -/
def emptied (T : Traits) (s : State κ α) (n : ℕ) : ℕ := stretch Slot.isDone T.blockSize s.slots n

structure Phases (T : Traits) (s : State κ α) : Prop where
  live : ∀ n segment, s.segments[n]? = some segment →
    (segment.phase = .live ↔ emptied T s n < T.blockSize)
  closing : ∀ n b c, s.segments[n]? = some ⟨b, .closing c⟩ ↔
    (s.consumers c).closes T = some (n, b)

structure Index (T : Traits) (s : State κ α) : Prop where
  tail_le : s.tailIndex ≤ s.segments.length * T.blockSize
  le_tail : s.segments.length * T.blockSize ≤ s.tailIndex + T.blockSize
  tailBlock : s.tailBlock = s.segments.getLast?.map Segment.block
  /-- No more segments are in use than there are entries. -/
  window : ∀ b n, s.owner b = .segment n → s.segments.length ≤ n + T.indexSize
  entry : ∀ b n, s.owner b = .segment n →
    s.blockIndex (n % T.indexSize) = ⟨some (n * T.blockSize), some b⟩
  value : ∀ k b, (s.blockIndex k).value = some b →
    ∃ n, s.owner b = .segment n ∧ n % T.indexSize = k
  key : ∀ n, n < s.segments.length → s.segments.length < n + T.indexSize →
    (s.blockIndex (n % T.indexSize)).key = some (n * T.blockSize)

structure Contents (T : Traits) (s : State κ α) : Prop where
  counter : ∀ b n, s.owner b = .segment n →
    (s.blocks b).elementsCompletelyDequeued = emptied T s n
  element : ∀ b i, s.owner b = .segment (i / T.blockSize) → i < s.tailIndex →
    (∀ x, s.slots[i]? = some x → x.isReading = true) →
    (s.blocks b).elements (i % T.blockSize) = s.enqueued[i]?

/-- The last segment is full, and the entry for the next one is free. -/
def BlockEnd (T : Traits) (s : State κ α) (slot : ℕ) : Prop :=
  s.tailIndex = s.segments.length * T.blockSize ∧ slot = s.segments.length % T.indexSize ∧
    ∀ b n, s.owner b = .segment n → s.segments.length < n + T.indexSize

/-- The tail of the index is the entry of the last segment. -/
def AtLast (T : Traits) (s : State κ α) : Prop :=
  s.blockIndexTail = (s.segments.length + T.indexSize - 1) % T.indexSize

/-- The tail of the index is the entry for the next segment. -/
def AtNext (s : State κ α) (slot : ℕ) : Prop :=
  s.blockIndexTail = slot ∧ (s.blockIndex slot).key = some s.tailIndex

/-- What holds where the enqueuing thread is. -/
def AtProducer (T : Traits) (s : State κ α) : Producer α → Prop
  | .idle => s.segments.length * T.blockSize < s.tailIndex + T.blockSize ∧ AtLast T s
  | .insert _ => s.tailIndex = s.segments.length * T.blockSize ∧ AtLast T s
  | .storeKey _ slot => BlockEnd T s slot ∧ AtLast T s
  | .storeTail _ slot => BlockEnd T s slot ∧ AtLast T s ∧
      (s.blockIndex slot).key = some s.tailIndex
  | .requisition _ slot => BlockEnd T s slot ∧ AtNext s slot
  | .rewind _ slot => BlockEnd T s slot ∧ AtNext s slot
  | .clear _ slot => BlockEnd T s slot ∧ AtLast T s
  | .resetEmpty _ slot _ => BlockEnd T s slot ∧ AtNext s slot
  | .link _ slot b => BlockEnd T s slot ∧ AtNext s slot ∧
      (s.blocks b).elementsCompletelyDequeued = 0
  | .construct _ => s.tailIndex < s.segments.length * T.blockSize ∧ AtLast T s
  | .storeTailIndex e => s.tailIndex < s.segments.length * T.blockSize ∧ AtLast T s ∧
      ∀ b, s.owner b = .segment (s.tailIndex / T.blockSize) →
        (s.blocks b).elements (s.tailIndex % T.blockSize) = some e

/-- What holds where a dequeuing thread is. -/
def AtConsumer (T : Traits) (s : State κ α) : Consumer α → Prop
  | .loadKey i tail => ∃ k, i / T.blockSize ≤ k ∧ k ≤ s.segments.length ∧
      tail = k % T.indexSize ∧ (s.blockIndex tail).key = some (k * T.blockSize)
  | .loadValue i slot => slot = i / T.blockSize % T.indexSize
  | .move i slot b => slot = i / T.blockSize % T.indexSize ∧ s.owner b = .segment (i / T.blockSize)
  | .setEmpty i slot b e => slot = i / T.blockSize % T.indexSize ∧
      s.owner b = .segment (i / T.blockSize) ∧ s.enqueued[i]? = some e
  | .unlink i slot _ e => slot = i / T.blockSize % T.indexSize ∧ s.enqueued[i]? = some e
  | .addToFreeList i _ e => s.enqueued[i]? = some e
  | _ => True

structure Inv (T : Traits) (s : State κ α) : Prop where
  counters : Counters s
  /-- A claimed index is in the hands of its thread, until the call returns. -/
  held : Held Slot.holder s.slots fun c => (s.consumers c).slot c
  owners : Owners T s
  phases : Phases T s
  index : Index T s
  contents : Contents T s
  atProducer : AtProducer T s s.producer
  atConsumer : ∀ c, AtConsumer T s (s.consumers c)

variable {T : Traits}

theorem inv_init : Inv T (init T κ α) where
  counters := counters_init T
  held c i x := by simp [init, Consumer.slot]
  owners := by
    constructor <;> intros <;> simp [init, Producer.block, Consumer.block]
  phases := by
    constructor <;> intros <;> simp_all [init, Consumer.closes]
  index := by
    constructor <;> intros <;> simp_all [init]
  contents := by
    constructor <;> intros <;> simp_all [init]
  atProducer := by
    refine ⟨?_, ?_⟩
    · simp [init, T.blockSize_pos]
    · simp only [AtLast, init, List.length_nil, Nat.zero_add]
      exact (Nat.mod_eq_of_lt (Nat.sub_lt T.indexSize_pos Nat.one_pos)).symm
  atConsumer _ := trivial

/-- What a thread knows stays true while the keys do, and its element has its block. -/
theorem AtConsumer.mono {s t : State κ α} (c : κ) {pc : Consumer α} (h : AtConsumer T s pc)
    (hlength : s.segments.length ≤ t.segments.length)
    (henqueued : ∀ (i : ℕ) e, s.enqueued[i]? = some e → t.enqueued[i]? = some e)
    (hkey : ∀ k, (t.blockIndex k).key = (s.blockIndex k).key)
    (howner : ∀ b i x, pc.slot c = some (i, x) → x.isDone = false →
      s.owner b = .segment (i / T.blockSize) → t.owner b = .segment (i / T.blockSize)) :
    AtConsumer T t pc := by
  cases pc with
  | loadKey i tail =>
    obtain ⟨k, hik, hk, htail, hbase⟩ := h
    exact ⟨k, hik, Nat.le_trans hk hlength, htail, (hkey tail).trans hbase⟩
  | loadValue i slot => exact h
  | move i slot b => exact ⟨h.1, howner b i _ rfl rfl h.2⟩
  | setEmpty i slot b e => exact ⟨h.1, howner b i _ rfl rfl h.2.1, henqueued _ _ h.2.2⟩
  | unlink i slot b e => exact ⟨h.1, henqueued _ _ h.2⟩
  | addToFreeList i b e => exact henqueued _ _ h
  | _ => trivial

/-- A store of the value of an entry. -/
theorem key_update {f : ℕ → BlockIndexEntry} {slot : ℕ} {value : Option ℕ} (k : ℕ) :
    (Function.update f slot ⟨(f slot).key, value⟩ k).key = (f k).key := by
  rw [Function.update_apply]
  split_ifs with hk
  · rw [hk]
  · rfl

/-- A store of the key of an entry. -/
theorem value_update {f : ℕ → BlockIndexEntry} {slot : ℕ} {key : Option ℕ} (k : ℕ) :
    (Function.update f slot ⟨key, (f slot).value⟩ k).value = (f k).value := by
  rw [Function.update_apply]
  split_ifs with hk
  · rw [hk]
  · rfl

/-- Numbers closer than the size of the index have different places in it. -/
theorem mod_ne_of_lt {n k C : ℕ} (hlt : n < k) (hk : k < n + C) : n % C ≠ k % C := by
  intro hmod
  have heq : n = k := by
    apply Nat.mod_injOn_Ico n C _ _ hmod
    · exact Finset.mem_coe.mpr (Finset.mem_Ico.mpr ⟨Nat.le_refl _, by omega⟩)
    · exact Finset.mem_coe.mpr (Finset.mem_Ico.mpr ⟨by omega, by omega⟩)
  omega

section
variable {s : State κ α} (h : Inv T s)
include h

theorem Inv.slot_of_pc {c : κ} {i : ℕ} {x : Slot κ} (hpc : (s.consumers c).slot c = some (i, x)) :
    s.slots[i]? = some x :=
  h.held.get hpc

/-- A claimed element is in one of the segments. -/
theorem Inv.lt_tail {i : ℕ} {x : Slot κ} (hx : s.slots[i]? = some x) : i < s.tailIndex := by
  have hlt := (List.getElem?_eq_some_iff.mp hx).1
  rw [h.counters.slots] at hlt
  exact Nat.lt_of_lt_of_le hlt h.counters.head_le

theorem Inv.div_lt {i : ℕ} (hi : i < s.tailIndex) : i / T.blockSize < s.segments.length :=
  Nat.div_lt_of_lt_mul (by rw [Nat.mul_comm]; exact Nat.lt_of_lt_of_le hi h.index.tail_le)

theorem Inv.owner_of_live {n b : ℕ} (hn : s.segments[n]? = some ⟨b, .live⟩) :
    s.owner b = .segment n :=
  (h.owners.segment b n).mpr ⟨.live, hn, by simp⟩

/-- A segment that is not emptied has its block. -/
theorem Inv.live {n : ℕ} (hn : n < s.segments.length) (hlt : emptied T s n < T.blockSize) :
    ∃ b, s.segments[n]? = some ⟨b, .live⟩ := by
  have hget := List.getElem?_eq_getElem hn
  have hphase := (h.phases.live n _ hget).mpr hlt
  refine ⟨(s.segments[n]).block, ?_⟩
  rw [hget, ← hphase]

/-- So has the segment of an element that is not dequeued. -/
theorem Inv.live_of_slot {i : ℕ} {x : Slot κ} (hx : s.slots[i]? = some x)
    (hdone : x.isDone = false) : ∃ b, s.segments[i / T.blockSize]? = some ⟨b, .live⟩ := by
  apply h.live (h.div_lt (h.lt_tail hx))
  refine Nat.lt_of_le_of_ne stretch_le fun heq => ?_
  obtain ⟨y, hy, hyd⟩ := of_stretch_eq T.blockSize_pos heq (i := i) rfl
  obtain rfl := Option.some.inj (hx.symm.trans hy)
  rw [hdone] at hyd
  cases hyd

/-- A segment has one block, and a block has one segment. -/
theorem Inv.owner_inj {b b' n : ℕ} (hb : s.owner b = .segment n) (hb' : s.owner b' = .segment n) :
    b = b' := by
  obtain ⟨phase, hn, -⟩ := (h.owners.segment b n).mp hb
  obtain ⟨phase', hn', -⟩ := (h.owners.segment b' n).mp hb'
  rw [hn] at hn'
  cases hn'
  rfl

theorem Inv.lt_length {b n : ℕ} (hb : s.owner b = .segment n) : n < s.segments.length := by
  obtain ⟨phase, hn, -⟩ := (h.owners.segment b n).mp hb
  exact (List.getElem?_eq_some_iff.mp hn).1

/-- The segments in use have different entries. -/
theorem Inv.mod_inj {b b' n n' : ℕ} (hb : s.owner b = .segment n) (hb' : s.owner b' = .segment n')
    (hmod : n % T.indexSize = n' % T.indexSize) : n = n' := by
  have hn := h.lt_length hb
  have hn' := h.lt_length hb'
  have hw := h.index.window b n hb
  have hw' := h.index.window b' n' hb'
  rcases Nat.lt_trichotomy n n' with hlt | heq | hgt
  · exact absurd hmod (mod_ne_of_lt hlt (by omega))
  · exact heq
  · exact absurd hmod.symm (mod_ne_of_lt hgt (by omega))

/-- The entry for the next segment is none of theirs. -/
theorem Inv.mod_ne {b n slot : ℕ} (hend : BlockEnd T s slot) (hb : s.owner b = .segment n) :
    n % T.indexSize ≠ slot := by
  rw [hend.2.1]
  exact mod_ne_of_lt (h.lt_length hb) (hend.2.2 b n hb)

/-- The last segment, while there is room in it. -/
theorem Inv.last (hroom : s.tailIndex < s.segments.length * T.blockSize) :
    ∃ b, s.tailBlock = some b ∧ s.owner b = .segment (s.tailIndex / T.blockSize) ∧
      s.tailIndex / T.blockSize + 1 = s.segments.length := by
  have hlt : s.tailIndex / T.blockSize < s.segments.length :=
    Nat.div_lt_of_lt_mul (by rw [Nat.mul_comm]; exact hroom)
  have hle : s.segments.length ≤ (s.tailIndex + T.blockSize) / T.blockSize :=
    (Nat.le_div_iff_mul_le T.blockSize_pos).mpr h.index.le_tail
  rw [Nat.add_div_right _ T.blockSize_pos] at hle
  -- the element at the tail is not there yet, so the segment is not emptied
  have hemptied : emptied T s (s.tailIndex / T.blockSize) < T.blockSize := by
    refine Nat.lt_of_le_of_ne stretch_le fun heq => ?_
    obtain ⟨x, hx, -⟩ := of_stretch_eq T.blockSize_pos heq (i := s.tailIndex) rfl
    exact Nat.lt_irrefl _ (h.lt_tail hx)
  obtain ⟨b, hb⟩ := h.live hlt hemptied
  have hlast : s.tailIndex / T.blockSize + 1 = s.segments.length := Nat.le_antisymm hlt hle
  refine ⟨b, ?_, h.owner_of_live hb, hlast⟩
  rw [h.index.tailBlock, List.getLast?_eq_getElem?, ← hlast, Nat.add_sub_cancel, hb]
  rfl

end
end ConcurrentQueue
end HVBench
