import HVBench.Library.Transition
import Mathlib.Data.Finset.Card
import Mathlib.Logic.Function.Basic

/-! `moodycamel::ConcurrentQueue` as the waiting list uses it: one thread enqueues without
allocating, and any number of threads dequeue. A step is one access to the shared memory.
Loads and stores take effect in the order of the program, and the counters do not wrap. -/
namespace HVBench
namespace ConcurrentQueue

/-- `BLOCK_SIZE`, `IMPLICIT_INITIAL_INDEX_SIZE` and `initialBlockPoolSize`. -/
structure Traits where
  blockSize : ℕ
  indexSize : ℕ
  poolSize : ℕ
  blockSize_pos : 0 < blockSize
  indexSize_pos : 0 < indexSize

/-- `ConcurrentQueueDefaultTraits`, and the blocks of a default-constructed queue. -/
def Traits.default : Traits := ⟨32, 32, 6, by decide, by decide⟩

structure Block (α : Type) where
  elements : ℕ → Option α
  elementsCompletelyDequeued : ℕ

/-- The key is the first index of the block. A key of `none` is `INVALID_BLOCK_BASE`. -/
structure BlockIndexEntry where
  key : Option ℕ
  value : Option ℕ
  deriving DecidableEq, Repr

/-- What the threads share: the producer, its block index, and the pool of blocks. -/
structure Memory (α : Type) where
  tailIndex : ℕ
  headIndex : ℕ
  dequeueOptimisticCount : ℕ
  dequeueOvercommit : ℕ
  tailBlock : Option ℕ
  blockIndex : ℕ → BlockIndexEntry
  blockIndexTail : ℕ
  blocks : ℕ → Block α
  initialBlockPoolIndex : ℕ
  freeList : List ℕ

/-- What became of an increment of `dequeueOptimisticCount`. -/
inductive Ticket (κ : Type)
  | pending (c : κ)
  | granted (c : κ)
  /-- Its thread has incremented `headIndex`. -/
  | claimed
  | refused (c : κ)
  /-- Its thread has incremented `dequeueOvercommit`. -/
  | counted
  deriving DecidableEq, Repr

/-- How far the dequeue of an element is. -/
inductive Slot (κ : Type)
  | reading (c : κ)
  | moved (c : κ)
  /-- The element was the last one of its block, which its thread gives back. -/
  | emptied (c : κ)
  | returned
  deriving DecidableEq, Repr

inductive Phase (κ : Type)
  | live
  | closing (c : κ)
  | unlinked
  deriving DecidableEq, Repr

/-- A block in use for the elements of one stretch of indices. -/
structure Segment (κ : Type) where
  block : ℕ
  phase : Phase κ
  deriving DecidableEq, Repr

inductive Owner (κ : Type)
  | pool
  | freeList
  | producer
  | segment (n : ℕ)
  | consumer (c : κ)
  deriving DecidableEq, Repr

/-- What the code does not keep: the elements enqueued, what became of each increment and
each element, which blocks were used one after the other, who has a block, and what the
calls of `try_dequeue` and `try_enqueue` returned. -/
structure History (κ α : Type) where
  enqueued : List α
  tickets : List (Ticket κ)
  slots : List (Slot κ)
  segments : List (Segment κ)
  owner : ℕ → Owner κ
  dequeued : List (κ × ℕ × α)
  refused : List α

/-- Where the enqueuing thread is. `slot` is the place of `idxEntry`. -/
inductive Producer (α : Type)
  | idle
  /-- `insert_block_index_entry`: the test of the entry, and the stores of its key and of
  the tail of the index. -/
  | insert (e : α)
  | storeKey (e : α) (slot : ℕ)
  | storeTail (e : α) (slot : ℕ)
  | requisition (e : α) (slot : ℕ)
  /-- No block: `rewind_block_index_tail`, and the store into the entry. -/
  | rewind (e : α) (slot : ℕ)
  | clear (e : α) (slot : ℕ)
  | resetEmpty (e : α) (slot block : ℕ)
  | link (e : α) (slot block : ℕ)
  | construct (e : α)
  | storeTailIndex (e : α)
  deriving DecidableEq, Repr

/-- Where a dequeuing thread is, with the local variables it still uses. -/
inductive Consumer (α : Type)
  | idle
  /-- `size_approx`, which has read the tail. -/
  | sizeHead (tail : ℕ)
  /-- `dequeue`: before each of its accesses. -/
  | loadTail
  | loadOvercommit (tail : ℕ)
  | loadOptimistic (tail overcommit : ℕ)
  | addOptimistic (overcommit : ℕ)
  | reloadTail (overcommit myDequeueCount : ℕ)
  | addOvercommit (myDequeueCount : ℕ)
  | addHead (myDequeueCount : ℕ)
  /-- `get_block_index_index_for_index`. -/
  | loadIndexTail (index : ℕ)
  | loadKey (index tail : ℕ)
  | loadValue (index slot : ℕ)
  | move (index slot block : ℕ)
  | setEmpty (index slot block : ℕ) (e : α)
  | unlink (index slot block : ℕ) (e : α)
  | addToFreeList (index block : ℕ) (e : α)
  deriving DecidableEq, Repr

structure State (κ α : Type) extends Memory α, History κ α where
  producer : Producer α
  consumers : κ → Consumer α

inductive Label (κ α : Type)
  /-- `try_enqueue(e)` and `try_dequeue` are called. -/
  | enqueue (e : α)
  | dequeue (c : κ)
  /-- The call in progress goes on. -/
  | producer
  | consumer (c : κ)
  deriving DecidableEq, Repr

/-- The constructor. No block is in use yet. -/
def init (T : Traits) (κ α : Type) : State κ α where
  tailIndex := 0
  headIndex := 0
  dequeueOptimisticCount := 0
  dequeueOvercommit := 0
  tailBlock := none
  blockIndex := fun _ => ⟨none, none⟩
  blockIndexTail := T.indexSize - 1
  blocks := fun _ => ⟨fun _ => none, 0⟩
  initialBlockPoolIndex := 0
  freeList := []
  enqueued := []
  tickets := []
  slots := []
  segments := []
  owner := fun _ => .pool
  dequeued := []
  refused := []
  producer := .idle
  consumers := fun _ => .idle

section Steps
variable {κ α : Type} [DecidableEq κ] (T : Traits) (s : State κ α)

/-- The beginning of `enqueue`, with the loads of both indices. -/
def startEnqueue (e : α) : State κ α :=
  if s.tailIndex % T.blockSize = 0 then
    if s.headIndex < s.tailIndex + T.blockSize then { s with producer := .insert e }
    else { s with refused := s.refused ++ [e] }
  else { s with producer := .construct e }

/-- `requisition_block`, where no other thread takes blocks. -/
def requisitionBlock (e : α) (slot : ℕ) : State κ α :=
  if s.initialBlockPoolIndex < T.poolSize then
    { s with
      initialBlockPoolIndex := s.initialBlockPoolIndex + 1
      owner := Function.update s.owner s.initialBlockPoolIndex .producer
      producer := .resetEmpty e slot s.initialBlockPoolIndex }
  else
    match s.freeList with
    | block :: rest =>
      { s with
        freeList := rest
        owner := Function.update s.owner block .producer
        producer := .resetEmpty e slot block }
    | [] => { s with producer := .rewind e slot }

/-- A step of `enqueue`. `none` where no call is in progress, and for a null pointer. -/
def producerStep : Option (State κ α) :=
  match s.producer with
  | .idle => none
  | .insert e =>
    let newTail := (s.blockIndexTail + 1) % T.indexSize
    if (s.blockIndex newTail).key = none ∨ (s.blockIndex newTail).value = none then
      some { s with producer := .storeKey e newTail }
    else some { s with producer := .idle, refused := s.refused ++ [e] }
  | .storeKey e slot => some
    { s with
      blockIndex :=
        Function.update s.blockIndex slot ⟨some s.tailIndex, (s.blockIndex slot).value⟩
      producer := .storeTail e slot }
  | .storeTail e slot => some { s with blockIndexTail := slot, producer := .requisition e slot }
  | .requisition e slot => some (requisitionBlock T s e slot)
  | .rewind e slot => some
    { s with
      blockIndexTail := (s.blockIndexTail + T.indexSize - 1) % T.indexSize
      producer := .clear e slot }
  | .clear e slot => some
    { s with
      blockIndex := Function.update s.blockIndex slot ⟨(s.blockIndex slot).key, none⟩
      producer := .idle
      refused := s.refused ++ [e] }
  | .resetEmpty e slot block => some
    { s with
      blocks := Function.update s.blocks block ⟨(s.blocks block).elements, 0⟩
      producer := .link e slot block }
  | .link e slot block => some
    { s with
      blockIndex := Function.update s.blockIndex slot ⟨(s.blockIndex slot).key, some block⟩
      tailBlock := some block
      segments := s.segments ++ [⟨block, .live⟩]
      owner := Function.update s.owner block (.segment s.segments.length)
      producer := .construct e }
  | .construct e => s.tailBlock.map fun block =>
    { s with
      blocks := Function.update s.blocks block
        ⟨Function.update (s.blocks block).elements (s.tailIndex % T.blockSize) (some e),
          (s.blocks block).elementsCompletelyDequeued⟩
      producer := .storeTailIndex e }
  | .storeTailIndex e => some
    { s with
      tailIndex := s.tailIndex + 1
      enqueued := s.enqueued ++ [e]
      producer := .idle }

def State.setConsumer (c : κ) (pc : Consumer α) : State κ α :=
  { s with consumers := Function.update s.consumers c pc }

def State.setTicket (m : ℕ) (t : Ticket κ) : State κ α := { s with tickets := s.tickets.set m t }

def State.setSlot (i : ℕ) (x : Slot κ) : State κ α := { s with slots := s.slots.set i x }

/-- The call of `c` returns the element at an index. -/
def State.return (c : κ) (index : ℕ) (e : α) : State κ α :=
  ({ s with dequeued := s.dequeued ++ [(c, index, e)] } : State κ α).setConsumer c .idle

/-- The place of the block of an index, counted from a tail with a known key. -/
def indexSlot (index tail tailBase : ℕ) : ℕ :=
  let base := index / T.blockSize * T.blockSize
  (((tail : ℤ) + ((base : ℤ) - tailBase).tdiv T.blockSize) % T.indexSize).toNat

/-- The increment of `set_empty`. -/
def countEmpty (block : ℕ) : State κ α :=
  { s with
    blocks := Function.update s.blocks block
      ⟨(s.blocks block).elements, (s.blocks block).elementsCompletelyDequeued + 1⟩ }

/-- A step of `try_dequeue`. `none` where no call is in progress, for a null pointer and for
a failed assertion. -/
def consumerStep (c : κ) : Option (State κ α) :=
  match s.consumers c with
  | .idle => none
  | .sizeHead tail =>
    if s.headIndex < tail then some (s.setConsumer c .loadTail) else some (s.setConsumer c .idle)
  | .loadTail => some (s.setConsumer c (.loadOvercommit s.tailIndex))
  | .loadOvercommit tail => some (s.setConsumer c (.loadOptimistic tail s.dequeueOvercommit))
  | .loadOptimistic tail overcommit =>
    if s.dequeueOptimisticCount - overcommit < tail then
      some (s.setConsumer c (.addOptimistic overcommit))
    else some (s.setConsumer c .idle)
  | .addOptimistic overcommit => some
    (({ s with
        dequeueOptimisticCount := s.dequeueOptimisticCount + 1
        tickets := s.tickets ++ [.pending c] } : State κ α).setConsumer c
      (.reloadTail overcommit s.dequeueOptimisticCount))
  | .reloadTail overcommit my =>
    if my - overcommit < s.tailIndex then
      some ((s.setTicket my (.granted c)).setConsumer c (.addHead my))
    else some ((s.setTicket my (.refused c)).setConsumer c (.addOvercommit my))
  | .addOvercommit my => some
    ((({ s with dequeueOvercommit := s.dequeueOvercommit + 1 } : State κ α).setTicket my
      .counted).setConsumer c .idle)
  | .addHead my => some
    ((({ s with
        headIndex := s.headIndex + 1
        slots := s.slots ++ [.reading c] } : State κ α).setTicket my .claimed).setConsumer c
      (.loadIndexTail s.headIndex))
  | .loadIndexTail index => some (s.setConsumer c (.loadKey index s.blockIndexTail))
  | .loadKey index tail =>
    (s.blockIndex tail).key.map fun tailBase =>
      s.setConsumer c (.loadValue index (indexSlot T index tail tailBase))
  | .loadValue index slot =>
    (s.blockIndex slot).value.map fun block => s.setConsumer c (.move index slot block)
  | .move index slot block =>
    ((s.blocks block).elements (index % T.blockSize)).map fun e =>
      (({ s with
          blocks := Function.update s.blocks block
            ⟨Function.update (s.blocks block).elements (index % T.blockSize) none,
              (s.blocks block).elementsCompletelyDequeued⟩ } : State κ α).setSlot index
        (.moved c)).setConsumer c (.setEmpty index slot block e)
  | .setEmpty index slot block e =>
    if (s.blocks block).elementsCompletelyDequeued = T.blockSize - 1 then some
      ((({ countEmpty s block with
          segments := s.segments.set (index / T.blockSize) ⟨block, .closing c⟩ }
        : State κ α).setSlot index (.emptied c)).setConsumer c (.unlink index slot block e))
    else some (((countEmpty s block).setSlot index .returned).return c index e)
  | .unlink index slot block e => some
    (({ s with
        blockIndex := Function.update s.blockIndex slot ⟨(s.blockIndex slot).key, none⟩
        segments := s.segments.set (index / T.blockSize) ⟨block, .unlinked⟩
        owner := Function.update s.owner block (.consumer c) } : State κ α).setConsumer c
      (.addToFreeList index block e))
  | .addToFreeList index block e => some
    ((({ s with
        freeList := block :: s.freeList
        owner := Function.update s.owner block .freeList } : State κ α).setSlot index
      .returned).return c index e)

def step : Label κ α → Option (State κ α)
  | .enqueue e =>
    match s.producer with
    | .idle => some (startEnqueue T s e)
    | _ => none
  | .dequeue c =>
    match s.consumers c with
    | .idle => some (s.setConsumer c (.sizeHead s.tailIndex))
    | _ => none
  | .producer => producerStep T s
  | .consumer c => consumerStep T s c

/-- The steps of a thread that dequeues. -/
inductive ConsumerMove (c : κ) : State κ α → Prop
  | sizeZero {tail : ℕ} (hpc : s.consumers c = .sizeHead tail) (hge : tail ≤ s.headIndex) :
    ConsumerMove c (s.setConsumer c .idle)
  | sizePositive {tail : ℕ} (hpc : s.consumers c = .sizeHead tail) (hlt : s.headIndex < tail) :
    ConsumerMove c (s.setConsumer c .loadTail)
  | loadTail (hpc : s.consumers c = .loadTail) :
    ConsumerMove c (s.setConsumer c (.loadOvercommit s.tailIndex))
  | loadOvercommit {tail : ℕ} (hpc : s.consumers c = .loadOvercommit tail) :
    ConsumerMove c (s.setConsumer c (.loadOptimistic tail s.dequeueOvercommit))
  | loadOptimistic {tail overcommit : ℕ} (hpc : s.consumers c = .loadOptimistic tail overcommit) :
    ConsumerMove c (s.setConsumer c (.addOptimistic overcommit))
  | giveUp {tail overcommit : ℕ} (hpc : s.consumers c = .loadOptimistic tail overcommit)
      (hge : tail ≤ s.dequeueOptimisticCount - overcommit) :
    ConsumerMove c (s.setConsumer c .idle)
  | addOptimistic {overcommit : ℕ} (hpc : s.consumers c = .addOptimistic overcommit) :
    ConsumerMove c (({ s with
        dequeueOptimisticCount := s.dequeueOptimisticCount + 1
        tickets := s.tickets ++ [.pending c] } : State κ α).setConsumer c
      (.reloadTail overcommit s.dequeueOptimisticCount))
  | grant {overcommit my : ℕ} (hpc : s.consumers c = .reloadTail overcommit my)
      (hlt : my - overcommit < s.tailIndex) :
    ConsumerMove c ((s.setTicket my (.granted c)).setConsumer c (.addHead my))
  | refuse {overcommit my : ℕ} (hpc : s.consumers c = .reloadTail overcommit my)
      (hge : s.tailIndex ≤ my - overcommit) :
    ConsumerMove c ((s.setTicket my (.refused c)).setConsumer c (.addOvercommit my))
  | addOvercommit {my : ℕ} (hpc : s.consumers c = .addOvercommit my) :
    ConsumerMove c ((({ s with
        dequeueOvercommit := s.dequeueOvercommit + 1 } : State κ α).setTicket my
      .counted).setConsumer c .idle)
  | addHead {my : ℕ} (hpc : s.consumers c = .addHead my) :
    ConsumerMove c ((({ s with
        headIndex := s.headIndex + 1
        slots := s.slots ++ [.reading c] } : State κ α).setTicket my .claimed).setConsumer c
      (.loadIndexTail s.headIndex))
  | loadIndexTail {index : ℕ} (hpc : s.consumers c = .loadIndexTail index) :
    ConsumerMove c (s.setConsumer c (.loadKey index s.blockIndexTail))
  | loadKey {index tail tailBase : ℕ} (hpc : s.consumers c = .loadKey index tail)
      (hkey : (s.blockIndex tail).key = some tailBase) :
    ConsumerMove c (s.setConsumer c (.loadValue index (indexSlot T index tail tailBase)))
  | loadValue {index slot block : ℕ} (hpc : s.consumers c = .loadValue index slot)
      (hvalue : (s.blockIndex slot).value = some block) :
    ConsumerMove c (s.setConsumer c (.move index slot block))
  | move {index slot block : ℕ} {e : α} (hpc : s.consumers c = .move index slot block)
      (he : (s.blocks block).elements (index % T.blockSize) = some e) :
    ConsumerMove c ((({ s with
          blocks := Function.update s.blocks block
            ⟨Function.update (s.blocks block).elements (index % T.blockSize) none,
              (s.blocks block).elementsCompletelyDequeued⟩ } : State κ α).setSlot index
        (.moved c)).setConsumer c (.setEmpty index slot block e))
  | setEmpty {index slot block : ℕ} {e : α} (hpc : s.consumers c = .setEmpty index slot block e)
      (hne : (s.blocks block).elementsCompletelyDequeued ≠ T.blockSize - 1) :
    ConsumerMove c (((countEmpty s block).setSlot index .returned).return c index e)
  | setLastEmpty {index slot block : ℕ} {e : α}
      (hpc : s.consumers c = .setEmpty index slot block e)
      (hlast : (s.blocks block).elementsCompletelyDequeued = T.blockSize - 1) :
    ConsumerMove c ((({ countEmpty s block with
          segments := s.segments.set (index / T.blockSize) ⟨block, .closing c⟩ }
        : State κ α).setSlot index (.emptied c)).setConsumer c (.unlink index slot block e))
  | unlink {index slot block : ℕ} {e : α} (hpc : s.consumers c = .unlink index slot block e) :
    ConsumerMove c (({ s with
        blockIndex := Function.update s.blockIndex slot ⟨(s.blockIndex slot).key, none⟩
        segments := s.segments.set (index / T.blockSize) ⟨block, .unlinked⟩
        owner := Function.update s.owner block (.consumer c) } : State κ α).setConsumer c
      (.addToFreeList index block e))
  | addToFreeList {index block : ℕ} {e : α} (hpc : s.consumers c = .addToFreeList index block e) :
    ConsumerMove c ((({ s with
        freeList := block :: s.freeList
        owner := Function.update s.owner block .freeList } : State κ α).setSlot index
      .returned).return c index e)

/-- The steps of the thread that enqueues. -/
inductive ProducerMove : State κ α → Prop
  | startBlock {e : α} (hpc : s.producer = .idle) (htail : s.tailIndex % T.blockSize = 0) :
    ProducerMove { s with producer := .insert e }
  | startFull {e : α} (hpc : s.producer = .idle)
      (hge : s.tailIndex + T.blockSize ≤ s.headIndex) :
    ProducerMove { s with refused := s.refused ++ [e] }
  | startConstruct {e : α} (hpc : s.producer = .idle) (htail : s.tailIndex % T.blockSize ≠ 0) :
    ProducerMove { s with producer := .construct e }
  | insert {e : α} (hpc : s.producer = .insert e)
      (hfree : (s.blockIndex ((s.blockIndexTail + 1) % T.indexSize)).key = none ∨
        (s.blockIndex ((s.blockIndexTail + 1) % T.indexSize)).value = none) :
    ProducerMove { s with producer := .storeKey e ((s.blockIndexTail + 1) % T.indexSize) }
  | noEntry {e : α} (hpc : s.producer = .insert e)
      (hfull : ¬((s.blockIndex ((s.blockIndexTail + 1) % T.indexSize)).key = none ∨
        (s.blockIndex ((s.blockIndexTail + 1) % T.indexSize)).value = none)) :
    ProducerMove { s with producer := .idle, refused := s.refused ++ [e] }
  | storeKey {e : α} {slot : ℕ} (hpc : s.producer = .storeKey e slot) :
    ProducerMove { s with
      blockIndex :=
        Function.update s.blockIndex slot ⟨some s.tailIndex, (s.blockIndex slot).value⟩
      producer := .storeTail e slot }
  | storeTail {e : α} {slot : ℕ} (hpc : s.producer = .storeTail e slot) :
    ProducerMove { s with blockIndexTail := slot, producer := .requisition e slot }
  | requisitionPool {e : α} {slot : ℕ} (hpc : s.producer = .requisition e slot)
      (hlt : s.initialBlockPoolIndex < T.poolSize) :
    ProducerMove { s with
      initialBlockPoolIndex := s.initialBlockPoolIndex + 1
      owner := Function.update s.owner s.initialBlockPoolIndex .producer
      producer := .resetEmpty e slot s.initialBlockPoolIndex }
  | requisitionFreeList {e : α} {slot block : ℕ} {rest : List ℕ}
      (hpc : s.producer = .requisition e slot) (hpool : T.poolSize ≤ s.initialBlockPoolIndex)
      (hfree : s.freeList = block :: rest) :
    ProducerMove { s with
      freeList := rest
      owner := Function.update s.owner block .producer
      producer := .resetEmpty e slot block }
  | noBlock {e : α} {slot : ℕ} (hpc : s.producer = .requisition e slot)
      (hpool : T.poolSize ≤ s.initialBlockPoolIndex) (hfree : s.freeList = []) :
    ProducerMove { s with producer := .rewind e slot }
  | rewind {e : α} {slot : ℕ} (hpc : s.producer = .rewind e slot) :
    ProducerMove { s with
      blockIndexTail := (s.blockIndexTail + T.indexSize - 1) % T.indexSize
      producer := .clear e slot }
  | clear {e : α} {slot : ℕ} (hpc : s.producer = .clear e slot) :
    ProducerMove { s with
      blockIndex := Function.update s.blockIndex slot ⟨(s.blockIndex slot).key, none⟩
      producer := .idle
      refused := s.refused ++ [e] }
  | resetEmpty {e : α} {slot block : ℕ} (hpc : s.producer = .resetEmpty e slot block) :
    ProducerMove { s with
      blocks := Function.update s.blocks block ⟨(s.blocks block).elements, 0⟩
      producer := .link e slot block }
  | link {e : α} {slot block : ℕ} (hpc : s.producer = .link e slot block) :
    ProducerMove { s with
      blockIndex := Function.update s.blockIndex slot ⟨(s.blockIndex slot).key, some block⟩
      tailBlock := some block
      segments := s.segments ++ [⟨block, .live⟩]
      owner := Function.update s.owner block (.segment s.segments.length)
      producer := .construct e }
  | construct {e : α} {block : ℕ} (hpc : s.producer = .construct e)
      (hblock : s.tailBlock = some block) :
    ProducerMove { s with
      blocks := Function.update s.blocks block
        ⟨Function.update (s.blocks block).elements (s.tailIndex % T.blockSize) (some e),
          (s.blocks block).elementsCompletelyDequeued⟩
      producer := .storeTailIndex e }
  | storeTailIndex {e : α} (hpc : s.producer = .storeTailIndex e) :
    ProducerMove { s with
      tailIndex := s.tailIndex + 1
      enqueued := s.enqueued ++ [e]
      producer := .idle }

variable {T s}

omit [DecidableEq κ] in
theorem ProducerMove.of_start (hpc : s.producer = .idle) (e : α) :
    ProducerMove T s (startEnqueue T s e) := by
  unfold startEnqueue
  split_ifs with htail hlt
  · exact .startBlock hpc htail
  · exact .startFull hpc (Nat.not_lt.mp hlt)
  · exact .startConstruct hpc htail

omit [DecidableEq κ] in
theorem ProducerMove.of_requisition {e : α} {slot : ℕ} (hpc : s.producer = .requisition e slot) :
    ProducerMove T s (requisitionBlock T s e slot) := by
  unfold requisitionBlock
  split_ifs with hlt
  · exact .requisitionPool hpc hlt
  · split
    · exact .requisitionFreeList hpc (Nat.not_lt.mp hlt) (by assumption)
    · exact .noBlock hpc (Nat.not_lt.mp hlt) (by assumption)

omit [DecidableEq κ] in
theorem ProducerMove.of_step {t : State κ α} (h : producerStep T s = some t) :
    ProducerMove T s t := by
  unfold producerStep at h
  split at h
  case h_1 => cases h
  case h_2 e hpc =>
    dsimp only at h
    split_ifs at h with hfree <;> obtain rfl := Option.some.inj h
    · exact .insert hpc hfree
    · exact .noEntry hpc hfree
  case h_3 e slot hpc => obtain rfl := Option.some.inj h; exact .storeKey hpc
  case h_4 e slot hpc => obtain rfl := Option.some.inj h; exact .storeTail hpc
  case h_5 e slot hpc => obtain rfl := Option.some.inj h; exact .of_requisition hpc
  case h_6 e slot hpc => obtain rfl := Option.some.inj h; exact .rewind hpc
  case h_7 e slot hpc => obtain rfl := Option.some.inj h; exact .clear hpc
  case h_8 e slot block hpc => obtain rfl := Option.some.inj h; exact .resetEmpty hpc
  case h_9 e slot block hpc => obtain rfl := Option.some.inj h; exact .link hpc
  case h_10 e hpc =>
    obtain ⟨block, hblock, rfl⟩ := Option.map_eq_some_iff.mp h
    exact .construct hpc hblock
  case h_11 e hpc => obtain rfl := Option.some.inj h; exact .storeTailIndex hpc

theorem ConsumerMove.of_step {c : κ} {t : State κ α} (h : consumerStep T s c = some t) :
    ConsumerMove T s c t := by
  unfold consumerStep at h
  split at h
  case h_1 => cases h
  case h_2 tail hpc =>
    split_ifs at h with hlt <;> obtain rfl := Option.some.inj h
    · exact .sizePositive hpc hlt
    · exact .sizeZero hpc (Nat.not_lt.mp hlt)
  case h_3 hpc => obtain rfl := Option.some.inj h; exact .loadTail hpc
  case h_4 tail hpc => obtain rfl := Option.some.inj h; exact .loadOvercommit hpc
  case h_5 tail overcommit hpc =>
    split_ifs at h with hlt <;> obtain rfl := Option.some.inj h
    · exact .loadOptimistic hpc
    · exact .giveUp hpc (Nat.not_lt.mp hlt)
  case h_6 overcommit hpc => obtain rfl := Option.some.inj h; exact .addOptimistic hpc
  case h_7 overcommit my hpc =>
    split_ifs at h with hlt <;> obtain rfl := Option.some.inj h
    · exact .grant hpc hlt
    · exact .refuse hpc (Nat.not_lt.mp hlt)
  case h_8 my hpc => obtain rfl := Option.some.inj h; exact .addOvercommit hpc
  case h_9 my hpc => obtain rfl := Option.some.inj h; exact .addHead hpc
  case h_10 index hpc => obtain rfl := Option.some.inj h; exact .loadIndexTail hpc
  case h_11 index tail hpc =>
    obtain ⟨tailBase, hkey, rfl⟩ := Option.map_eq_some_iff.mp h
    exact .loadKey hpc hkey
  case h_12 index slot hpc =>
    obtain ⟨block, hvalue, rfl⟩ := Option.map_eq_some_iff.mp h
    exact .loadValue hpc hvalue
  case h_13 index slot block hpc =>
    obtain ⟨e, he, rfl⟩ := Option.map_eq_some_iff.mp h
    exact .move hpc he
  case h_14 index slot block e hpc =>
    dsimp only at h
    split_ifs at h with hlast <;> obtain rfl := Option.some.inj h
    · exact .setLastEmpty hpc hlast
    · exact .setEmpty hpc hlast
  case h_15 index slot block e hpc => obtain rfl := Option.some.inj h; exact .unlink hpc
  case h_16 index block e hpc => obtain rfl := Option.some.inj h; exact .addToFreeList hpc

/-- The other threads stay where they are. -/
theorem ConsumerMove.consumers_ne {c c' : κ} {t : State κ α} (h : ConsumerMove T s c t)
    (hne : c' ≠ c) : t.consumers c' = s.consumers c' := by
  cases h <;> exact Function.update_of_ne hne _ _

/-- A step is the beginning of `try_dequeue`, or a step of one of the threads. -/
theorem step_cases {l : Label κ α} {t : State κ α} (h : step T s l = some t) :
    (∃ c, s.consumers c = .idle ∧ t = s.setConsumer c (.sizeHead s.tailIndex)) ∨
    ProducerMove T s t ∨ ∃ c, ConsumerMove T s c t := by
  cases l with
  | enqueue e =>
    simp only [step] at h
    split at h
    · obtain rfl := Option.some.inj h
      exact .inr (.inl (.of_start (by assumption) e))
    · cases h
  | dequeue c =>
    simp only [step] at h
    split at h
    · obtain rfl := Option.some.inj h
      exact .inl ⟨c, by assumption, rfl⟩
    · cases h
  | producer => exact .inr (.inl (.of_step h))
  | consumer c => exact .inr (.inr ⟨c, .of_step h⟩)

end Steps

end ConcurrentQueue
end HVBench
