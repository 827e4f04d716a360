import HVBench.Kafka.ConnectionService
import HVBench.Kafka.Primitives

/-! Message sets, as they are written into a request and read from a response. -/
namespace HVBench
namespace Kafka
open ByteStream

inductive Compression
  | none
  | gzip
  | snappy
  | lz4
  deriving DecidableEq, Repr

/-- A message and its offset. The magic byte is always zero. -/
structure MessageAndOffset where
  offset : Int64
  attributes : Int8
  key : Bytes
  value : Bytes
  nestedMessageSet : List MessageAndOffset

abbrev MessageSet := List MessageAndOffset

/-- `Message::compression`, of the attributes. -/
def compression (attributes : Int8) : Compression :=
  match (attributes &&& 3).toNat with
  | 0 => .none
  | 1 => .gzip
  | 2 => .snappy
  | _ => .lz4

def messageWireSize (message : MessageAndOffset) : Int32 :=
  4 + 1 + 1 + bytesWireSize message.key + bytesWireSize message.value

def messageSetWireSize (messageSet : MessageSet) : Int32 :=
  messageSet.foldl (fun size message => size + (8 + 4 + messageWireSize message)) 0

/-- `boost::crc_32_type`, bit by bit. -/
def crcBit (crc : BitVec 32) : BitVec 32 :=
  if crc.getLsbD 0 then (crc >>> 1) ^^^ 0xEDB88320#32 else crc >>> 1

def crcByte (crc : BitVec 32) (b : Byte) : BitVec 32 :=
  crcBit^[8] (crc ^^^ b.toBitVec.setWidth 32)

def checksum (bytes : List Byte) : Int32 := ~~~(bytes.foldl crcByte 0xFFFFFFFF#32)

example : checksum [0x31, 0x32, 0x33, 0x34, 0x35, 0x36, 0x37, 0x38, 0x39] = 0xCBF43926 := by
  decide +kernel

section
variable (crc32 : List Byte → Int32)

def writeMessage (value : MessageAndOffset) : List Byte :=
  let intermediate :=
    writeInt8 0 ++ (writeInt8 value.attributes ++ (writeBytes value.key ++ writeBytes value.value))
  writeInt32 (crc32 intermediate) ++ intermediate

def writeMessageSet (value : MessageSet) : List Byte :=
  value.flatMap fun message =>
    writeInt64 message.offset ++
      (writeInt32 (messageWireSize message) ++ writeMessage crc32 message)

end

/-- `FallbackCompressionAlgorithm::Decompress`, of an algorithm that is not compiled in. -/
def fallback (_ : Compression) (_ : Bytes) : Except ErrorCode (List Byte) :=
  .error .compressionNotAvailable

section
variable (codec : Compression → Bytes → Except ErrorCode (List Byte))

/-- `Decompress`, over the algorithms that are compiled in. -/
def decompress (data : Bytes) (c : Compression) : Except ErrorCode Bytes :=
  if c = .none then .ok none else (codec c data).map some

mutual

/-- Read a message. The checksum and the magic byte are read and ignored. A compressed message
is a message set. `fuel` bounds the number of messages and their nesting. -/
def readMessage (fuel : ℕ) (is : Istream) (offset : Int64) :
    Option (MessageAndOffset × Option ErrorCode × Istream) :=
  match fuel with
  | 0 => none
  | fuel + 1 =>
    let (_, is) := readInt32 is
    let (_, is) := readInt8 is
    let (attributes, is) := readInt8 is
    let (key, is) := readBytes is none
    let (value, is) := readBytes is none
    match decompress codec value (compression attributes) with
    | .error e => some (⟨offset, attributes, key, value, []⟩, some e, is)
    | .ok none => some (⟨offset, attributes, key, value, []⟩, none, is)
    | .ok (some data) =>
      if data = [] then some (⟨offset, attributes, key, value, []⟩, none, is)
      else
        (readMessageSet fuel (.ofBytes data) (.ofNat 64 data.length) 0 [] none).map
          fun (nested, ec, _) => (⟨offset, attributes, key, value, nested⟩, ec, is)

/-- The loop of `ReadMessageSet`, from `readCount` on. Of a message that is too long for the
rest, the rest is left out. None of the buffers the streams are on can seek, so that this fails
the stream. -/
def readMessageSet (fuel : ℕ) (is : Istream) (size readCount : Int64) (messageSet : MessageSet)
    (ec : Option ErrorCode) : Option (MessageSet × Option ErrorCode × Istream) :=
  match fuel with
  | 0 => none
  | fuel + 1 =>
    if readCount.ult size then
      let (offset, is) := readInt64 is
      let (messageSize, is) := readInt32 is
      if ((size - readCount).setWidth 32).slt messageSize then
        some (messageSet, ec, { is with good := false })
      else
        match readMessage fuel is offset with
        | none => none
        | some (message, ec, is) =>
          readMessageSet fuel is size (readCount + (8 + 4 + messageSize.signExtend 64))
            (messageSet ++ [message]) ec
    else some (messageSet, ec, is)

end
end

/-- What is read of a message that is not compressed. -/
def MessageAndOffset.plain (message : MessageAndOffset) : MessageAndOffset :=
  { message with
    key := message.key.nonEmpty, value := message.value.nonEmpty, nestedMessageSet := [] }

variable {crc32 : List Byte → Int32} {codec : Compression → Bytes → Except ErrorCode (List Byte)}

theorem length_writeMessage (message : MessageAndOffset) :
    (writeMessage crc32 message).length =
      6 + ((writeBytes message.key).length + (writeBytes message.value).length) := by
  simp only [writeMessage, List.length_append, length_writeInt8, length_writeInt32]
  omega

variable (crc32) in
theorem messageWireSize_eq (message : MessageAndOffset) :
    messageWireSize message = .ofNat 32 (writeMessage crc32 message).length := by
  rw [length_writeMessage, BitVec.ofNat_add, BitVec.ofNat_add, ← bytesWireSize_eq,
    ← bytesWireSize_eq, messageWireSize, BitVec.add_assoc]
  rfl

theorem writeMessageSet_cons (message : MessageAndOffset) (messageSet : MessageSet) :
    writeMessageSet crc32 (message :: messageSet) =
      writeInt64 message.offset ++ (writeInt32 (messageWireSize message) ++
        (writeMessage crc32 message ++ writeMessageSet crc32 messageSet)) := by
  rw [writeMessageSet, List.flatMap_cons, List.append_assoc, List.append_assoc]
  rfl

theorem length_writeMessageSet_cons (message : MessageAndOffset) (messageSet : MessageSet) :
    (writeMessageSet crc32 (message :: messageSet)).length =
      12 + (writeMessage crc32 message).length + (writeMessageSet crc32 messageSet).length := by
  rw [writeMessageSet_cons]
  simp only [List.length_append, length_writeInt64, length_writeInt32]
  omega

variable (crc32) in
/-- The size of a set is that of its messages, as far as 32 bits hold it. -/
theorem messageSetWireSize_eq (messageSet : MessageSet) :
    messageSetWireSize messageSet = .ofNat 32 (writeMessageSet crc32 messageSet).length := by
  have hfold : ∀ size : Int32,
      messageSet.foldl (fun size message => size + (8 + 4 + messageWireSize message)) size =
        size + .ofNat 32 (writeMessageSet crc32 messageSet).length := by
    induction messageSet with
    | nil =>
      intro size
      exact (BitVec.add_zero size).symm
    | cons message messageSet ih =>
      intro size
      rw [List.foldl_cons, ih, length_writeMessageSet_cons, BitVec.ofNat_add, BitVec.ofNat_add,
        ← messageWireSize_eq, BitVec.add_assoc]
      rfl
  exact (hfold 0).trans (BitVec.zero_add _)

/-- The counters of the loop do not wrap on a set that fits into 31 bits. -/
theorem ult_ofNat {a b : ℕ} (ha : a < 2 ^ 64) (hb : b < 2 ^ 64) :
    (BitVec.ofNat 64 a).ult (.ofNat 64 b) = decide (a < b) := by
  rw [BitVec.ult, toNat_ofNat_of_lt ha, toNat_ofNat_of_lt hb]

theorem slt_rest {a b n : ℕ} (hb : b < 2 ^ 31) (h : a ≤ b) (hn : n < 2 ^ 31) :
    ((BitVec.ofNat 64 b - .ofNat 64 a).setWidth 32).slt (.ofNat 32 n) = decide (b - a < n) := by
  rw [BitVec.ofNat_sub_ofNat_of_le _ _ (by omega) h, BitVec.setWidth_ofNat_of_le (by decide),
    BitVec.slt, toInt_ofNat_of_lt (by omega), toInt_ofNat_of_lt (by omega)]
  exact decide_eq_decide.mpr Int.ofNat_lt

theorem signExtend_ofNat {n : ℕ} (hn : n < 2 ^ 31) :
    (BitVec.ofNat 32 n).signExtend 64 = .ofNat 64 n := by
  have hmsb : (BitVec.ofNat 32 n).msb = false := by
    rw [BitVec.msb_eq_false_iff_two_mul_lt, toNat_ofNat_of_lt (by omega)]
    omega
  rw [BitVec.signExtend_eq_setWidth_of_msb_false hmsb,
    BitVec.setWidth_ofNat_of_le_of_lt (by decide) (by omega)]

theorem add_size {a n : ℕ} (hn : n < 2 ^ 31) :
    BitVec.ofNat 64 a + (8 + 4 + (BitVec.ofNat 32 n).signExtend 64) = .ofNat 64 (a + 12 + n) := by
  rw [signExtend_ofNat hn, BitVec.ofNat_add, BitVec.ofNat_add, BitVec.add_assoc (.ofNat 64 a)]
  rfl

/-- A message that is not compressed. -/
def MessageAndOffset.Plain (message : MessageAndOffset) : Prop :=
  compression message.attributes = .none

variable (codec) in
/-- A message that is not compressed is read back. -/
theorem readMessage_writeMessage {message : MessageAndOffset} (hplain : message.Plain)
    (hlength : (writeMessage crc32 message).length < 2 ^ 31) (fuel : ℕ) (rest : List Byte) :
    readMessage codec (fuel + 1) (.ofBytes (writeMessage crc32 message ++ rest)) message.offset =
      some (message.plain, none, .ofBytes rest) := by
  rw [length_writeMessage] at hlength
  have hsize : ∀ {bytes : Bytes}, (writeBytes bytes).length < 2 ^ 31 →
      (bytes.getD []).length < 2 ^ 31 := by
    intro bytes h
    cases bytes with
    | none => decide
    | some value =>
      rw [writeBytes, List.length_append] at h
      rw [Option.getD_some]
      omega
  unfold readMessage writeMessage
  dsimp only
  rw [List.append_assoc, readInt32_writeInt32]
  dsimp only
  rw [List.append_assoc, readInt8_writeInt8]
  dsimp only
  rw [List.append_assoc, readInt8_writeInt8]
  dsimp only
  rw [List.append_assoc, readBytes_writeBytes (hsize (by omega))]
  dsimp only
  rw [readBytes_writeBytes (hsize (by omega))]
  dsimp only
  rw [hplain]
  rfl

/-- One turn of the loop. -/
theorem readMessageSet_message {message : MessageAndOffset} (hplain : message.Plain)
    {size readCount fuel : ℕ} (hsize : size < 2 ^ 31)
    (hfits : readCount + 12 + (writeMessage crc32 message).length ≤ size)
    (messageSet : MessageSet) (ec : Option ErrorCode) (rest : List Byte) :
    readMessageSet codec (fuel + 2)
        (.ofBytes (writeInt64 message.offset ++ (writeInt32 (messageWireSize message) ++
          (writeMessage crc32 message ++ rest)))) (.ofNat 64 size) (.ofNat 64 readCount)
        messageSet ec =
      readMessageSet codec (fuel + 1) (.ofBytes rest) (.ofNat 64 size)
        (.ofNat 64 (readCount + 12 + (writeMessage crc32 message).length))
        (messageSet ++ [message.plain]) none := by
  have hult : (BitVec.ofNat 64 readCount).ult (.ofNat 64 size) = true := by
    rw [ult_ofNat (by omega) (by omega)]
    exact decide_eq_true (by omega)
  rw [readMessageSet, if_pos hult, readInt64_writeInt64]
  dsimp only
  rw [readInt32_writeInt32]
  dsimp only
  rw [messageWireSize_eq crc32, slt_rest hsize (by omega) (by omega),
    if_neg (by rw [decide_eq_true_eq]; omega), readMessage_writeMessage codec hplain (by omega)]
  dsimp only
  rw [add_size (by omega)]

variable (codec) in
/-- Whole messages are read one after the other, and then what comes behind them. -/
theorem readMessageSet_append (messages : List MessageAndOffset) (hplain : ∀ m ∈ messages, m.Plain)
    {size readCount : ℕ} (fuel : ℕ) (hsize : size < 2 ^ 31)
    (hfits : readCount + (writeMessageSet crc32 messages).length ≤ size)
    (hfuel : messages ≠ [] → fuel ≠ 0) (messageSet : MessageSet) (rest : List Byte) :
    readMessageSet codec (messages.length + fuel)
        (.ofBytes (writeMessageSet crc32 messages ++ rest)) (.ofNat 64 size)
        (.ofNat 64 readCount) messageSet none =
      readMessageSet codec fuel (.ofBytes rest) (.ofNat 64 size)
        (.ofNat 64 (readCount + (writeMessageSet crc32 messages).length))
        (messageSet ++ messages.map MessageAndOffset.plain) none := by
  induction messages generalizing readCount messageSet with
  | nil =>
    rw [List.map_nil, List.append_nil, List.length_nil, Nat.zero_add]
    rfl
  | cons m messages ih =>
    obtain ⟨fuel, rfl⟩ := Nat.exists_eq_succ_of_ne_zero (hfuel (List.cons_ne_nil _ _))
    rw [length_writeMessageSet_cons] at hfits ⊢
    have hlength : (m :: messages).length + fuel.succ = messages.length + fuel + 2 := by
      rw [List.length_cons]
      omega
    rw [writeMessageSet_cons, List.append_assoc, List.append_assoc, List.append_assoc, hlength,
      readMessageSet_message (hplain m List.mem_cons_self) hsize (by omega),
      Nat.add_assoc messages.length fuel 1,
      ih (fun m hm => hplain m (List.mem_cons_of_mem _ hm)) (by omega)
        (fun _ => Nat.succ_ne_zero _)]
    have hcount : readCount + 12 + (writeMessage crc32 m).length +
        (writeMessageSet crc32 messages).length =
          readCount + (12 + (writeMessage crc32 m).length +
            (writeMessageSet crc32 messages).length) := by omega
    rw [hcount, List.map_cons, List.append_assoc, List.singleton_append]

/-- A message set that is not compressed is read as it was written, but for an empty key or
value, which is read as none. -/
theorem readMessageSet_writeMessageSet {messages : MessageSet} (hplain : ∀ m ∈ messages, m.Plain)
    (hsize : (writeMessageSet crc32 messages).length < 2 ^ 31) {fuel : ℕ}
    (hfuel : messages.length < fuel) (rest : List Byte) :
    readMessageSet codec fuel (.ofBytes (writeMessageSet crc32 messages ++ rest))
        (.ofNat 64 (writeMessageSet crc32 messages).length) 0 [] none =
      some (messages.map MessageAndOffset.plain, none, .ofBytes rest) := by
  obtain ⟨more, rfl⟩ := Nat.exists_eq_add_of_le hfuel
  have hfits : 0 + (writeMessageSet crc32 messages).length ≤
      (writeMessageSet crc32 messages).length := by omega
  have hread := readMessageSet_append codec messages hplain (more + 1) hsize hfits
    (fun _ => Nat.succ_ne_zero _) [] rest
  rw [Nat.zero_add, List.nil_append] at hread
  have hlength : messages.length.succ + more = messages.length + (more + 1) := by omega
  rw [hlength]
  refine hread.trans ?_
  rw [readMessageSet, ult_ofNat (by omega) (by omega), if_neg (by simp)]

variable (codec) in
/-- A message is read from any stream, be it cut short, whose attributes name no algorithm. -/
theorem exists_readMessage {is : Istream}
    (h : compression (readInt8 (readInt8 (readInt32 is).2).2).1 = .none) (offset : Int64) :
    ∃ message is', ∀ fuel, readMessage codec (fuel + 1) is offset = some (message, none, is') := by
  have hread : ∀ fuel, readMessage codec (fuel + 1) is offset = some (⟨offset,
      (readInt8 (readInt8 (readInt32 is).2).2).1,
      (readBytes (readInt8 (readInt8 (readInt32 is).2).2).2 none).1,
      (readBytes (readBytes (readInt8 (readInt8 (readInt32 is).2).2).2 none).2 none).1, []⟩, none,
      (readBytes (readBytes (readInt8 (readInt8 (readInt32 is).2).2).2 none).2 none).2) := by
    intro fuel
    unfold readMessage
    dsimp only
    rw [h]
    rfl
  exact ⟨_, _, hread⟩

variable (codec) in
/-- The message of one entry of a set, which is an offset, a size and a message. -/
def readEntry (is : Istream) : Option (MessageAndOffset × Option ErrorCode) :=
  (readMessage codec 1 (readInt32 (readInt64 is).2).2 (readInt64 is).1).map
    fun (message, ec, _) => (message, ec)

variable (codec) in
/-- A message whose bytes end is read as if zeros went on behind them. -/
theorem readMessage_padded {is padded : Istream} {most more : ℕ} (hmost : 2 ^ 31 ≤ most)
    (h : Istream.Padded (4 + (1 + (1 + (4 + (most + (4 + (most + more))))))) is padded)
    (fuel : ℕ) (offset : Int64) :
    (readMessage codec fuel padded offset).map (fun (message, ec, _) => (message, ec)) =
      (readMessage codec fuel is offset).map fun (message, ec, _) => (message, ec) := by
  cases fuel with
  | zero => rfl
  | succ fuel =>
    have hattributes := readInt_padded (n := 1)
      (readInt_padded (n := 1) (readInt_padded (n := 4) h).2).2
    have hkey := readBytes_padded hmost hattributes.2 none
    have hvalue := readBytes_padded hmost hkey.2 none
    unfold readMessage readInt32 readInt8
    dsimp only
    rw [hattributes.1, hkey.1, hvalue.1]
    split
    · simp only [Option.map_some]
    · simp only [Option.map_some]
    · split_ifs
      · simp only [Option.map_some]
      · simp only [Option.map_map, Function.comp_def]

variable (codec) in
theorem readEntry_padded (bytes : List Byte) {zeros : ℕ} (hzeros : 2 ^ 33 ≤ zeros) :
    readEntry codec (.ofBytes (bytes ++ .replicate zeros 0)) =
      readEntry codec (.ofBytes bytes) := by
  obtain ⟨most, hmost⟩ : ∃ most, most = 2 ^ 31 := ⟨_, rfl⟩
  have h : Istream.Padded (8 + (4 + (4 + (1 + (1 + (4 + (most + (4 + (most + 0)))))))))
      (.ofBytes bytes) (.ofBytes (bytes ++ .replicate zeros 0)) :=
    ⟨Istream.spent_ofBytes bytes, zeros, by omega, rfl⟩
  have hoffset := readInt_padded (n := 8) h
  have hsize := readInt_padded (n := 4) hoffset.2
  have hread := readMessage_padded codec (Nat.le_of_eq hmost.symm) hsize.2 1
    (readInt64 (.ofBytes bytes)).1
  unfold readEntry
  refine Eq.trans ?_ hread
  unfold readInt64
  rw [hoffset.1]
  rfl

/-- The size that is read in front of a message of `length` bytes, when `kept` bytes of its entry
are left: those of the eight bytes of the offset and the four of the size that are missing are
zero. -/
def sizeKept (length kept : ℕ) : ℕ := 256 ^ (12 - kept) * (length / 256 ^ (12 - kept))

theorem sizeKept_le (length kept : ℕ) : sizeKept length kept ≤ length :=
  Nat.mul_div_le length _

theorem sizeKept_of_le {length kept : ℕ} (h : 12 ≤ kept) : sizeKept length kept = length := by
  rw [sizeKept, Nat.sub_eq_zero_of_le h, Nat.pow_zero, Nat.div_one, Nat.one_mul]

theorem sizeKept_of_lt {length kept : ℕ} (h : length < 256 ^ (12 - kept)) :
    sizeKept length kept = 0 := by
  rw [sizeKept, Nat.div_eq_of_lt h, Nat.mul_zero]

/-- The last entry seems longer than what is left of it. -/
theorem lt_sizeKept_iff {length kept : ℕ} (hlength : length < 2 ^ 31) :
    kept < sizeKept length kept ↔
      8 < kept ∧ kept < 12 ∧ 256 ^ (12 - kept) ≤ length ∨ 12 ≤ kept ∧ kept < length := by
  rcases Nat.lt_or_ge kept 12 with hkept | hkept
  · rcases Nat.lt_or_ge length (256 ^ (12 - kept)) with hlt | hge
    · rw [sizeKept_of_lt hlt]
      omega
    · have hbytes : 256 ^ 1 ≤ 256 ^ (12 - kept) := Nat.pow_le_pow_right (by decide) (by omega)
      have hfirst : 8 < kept := by
        by_contra hle
        have hpow : 256 ^ 4 ≤ 256 ^ (12 - kept) := Nat.pow_le_pow_right (by decide) (by omega)
        omega
      have hsize : 256 ^ (12 - kept) ≤ sizeKept length kept :=
        Nat.le_mul_of_pos_right _ (Nat.div_pos hge (Nat.pow_pos (by decide)))
      omega
  · rw [sizeKept_of_le hkept]
    omega

/-- The bytes of the last message of a set that are left where it was cut. -/
theorem take_cut (messages : MessageSet) (message : MessageAndOffset) (kept : ℕ) :
    (writeMessageSet crc32 (messages ++ [message])).take
        ((writeMessageSet crc32 messages).length + kept) =
      writeMessageSet crc32 messages ++ (writeMessageSet crc32 [message]).take kept := by
  have hlast : writeMessageSet crc32 (messages ++ [message]) =
      writeMessageSet crc32 messages ++ writeMessageSet crc32 [message] := List.flatMap_append
  rw [hlast]
  exact List.take_length_add_append kept

section
variable {message : MessageAndOffset} {kept : ℕ}

theorem take_entry (hkept : 8 ≤ kept) : (writeMessageSet crc32 [message]).take kept =
    writeInt64 message.offset ++
      (writeInt32 (messageWireSize message) ++ writeMessage crc32 message).take (kept - 8) := by
  rw [writeMessageSet, List.flatMap_singleton, List.take_append,
    List.take_of_length_le (by rw [length_writeInt64]; exact hkept), length_writeInt64]

theorem take_message (hkept : 12 ≤ kept) : (writeMessageSet crc32 [message]).take kept =
    writeInt64 message.offset ++ (writeInt32 (messageWireSize message) ++
      (writeMessage crc32 message).take (kept - 12)) := by
  rw [take_entry (by omega), List.take_append,
    List.take_of_length_le (by rw [length_writeInt32]; omega), length_writeInt32, Nat.sub_sub]

/-- What is left of a stream when the first bytes were read. -/
theorem length_data_le (n : ℕ) {is : Istream} {most : ℕ}
    (h : is.Spent ∧ is.data.length ≤ n + most) :
    (readInt n is).2.Spent ∧ (readInt n is).2.data.length ≤ most := by
  have hfill := Istream.spent_fill h.1 n
  refine ⟨hfill.1, ?_⟩
  show (is.fill n).2.data.length ≤ most
  rw [hfill.2]
  omega

variable (crc32 message) in
theorem spent_cut {most : ℕ} (hkept : kept ≤ most) :
    (Istream.ofBytes ((writeMessageSet crc32 [message]).take kept)).Spent ∧
      (Istream.ofBytes ((writeMessageSet crc32 [message]).take kept)).data.length ≤ most :=
  ⟨Istream.spent_ofBytes _, (List.length_take_le _ _).trans hkept⟩

theorem readSize_cut (hlength : (writeMessage crc32 message).length < 2 ^ 31) :
    (readInt32 (readInt64 (.ofBytes ((writeMessageSet crc32 [message]).take kept))).2).1 =
      .ofNat 32 (sizeKept (writeMessage crc32 message).length kept) := by
  rcases Nat.lt_or_ge kept 9 with hkept | hkept
  · have hdata := length_data_le 8 (spent_cut crc32 message
      (Nat.le_of_lt_succ hkept : kept ≤ 8 + 0))
    have hpow : 256 ^ 4 ≤ 256 ^ (12 - kept) := Nat.pow_le_pow_right (by decide) (by omega)
    rw [sizeKept_of_lt (by omega)]
    exact readInt_nil (List.eq_nil_of_length_eq_zero (Nat.le_zero.mp hdata.2)) 4
  rcases Nat.lt_or_ge kept 12 with hlt | hge
  · rw [take_entry (by omega), readInt64_writeInt64, List.take_append_of_le_length
      (by rw [length_writeInt32]; omega)]
    have hshort := readInt_short (n := 4) (by omega : kept - 8 < 4) (messageWireSize message)
    have hmissing : 4 - (kept - 8) = 12 - kept := by omega
    rw [messageWireSize_eq crc32, toNat_ofNat_of_lt (by omega), hmissing] at hshort
    rw [messageWireSize_eq crc32]
    exact hshort
  · rw [take_message hge, readInt64_writeInt64, readInt32_writeInt32, sizeKept_of_le hge,
      messageWireSize_eq crc32]

variable (crc32) in
/-- Where a message was cut, the attributes are read as they were or as zero. -/
theorem compression_cut (hplain : message.Plain) :
    compression (readInt8 (readInt8 (readInt32 (readInt32 (readInt64
      (.ofBytes ((writeMessageSet crc32 [message]).take kept))).2).2).2).2).1 = .none := by
  rcases Nat.lt_or_ge kept 18 with hkept | hkept
  · have hoffset := length_data_le 8 (spent_cut crc32 message
      (Nat.le_of_lt_succ hkept : kept ≤ 8 + (4 + (4 + (1 + 0)))))
    have hmagic := length_data_le 1 (length_data_le 4 (length_data_le 4 hoffset))
    have hattributes : (readInt8 (readInt8 (readInt32 (readInt32 (readInt64
        (.ofBytes ((writeMessageSet crc32 [message]).take kept))).2).2).2).2).1 = 0 :=
      readInt_nil (List.eq_nil_of_length_eq_zero (Nat.le_zero.mp hmagic.2)) 1
    rw [hattributes]
    rfl
  · obtain ⟨more, rfl⟩ := Nat.exists_eq_add_of_le hkept
    have hsplit : ∀ (a b c d : List Byte), a.length = 4 → b.length = 1 → c.length = 1 →
        (a ++ (b ++ (c ++ d))).take (6 + more) = a ++ (b ++ (c ++ d.take more)) := by
      intro a b c d ha hb hc
      rw [List.take_append, List.take_append, List.take_append, ha, hb, hc,
        List.take_of_length_le (by omega), List.take_of_length_le (by omega),
        List.take_of_length_le (by omega)]
      congr 4
      omega
    have hmore : 18 + more - 12 = 6 + more := by omega
    rw [take_message (by omega), readInt64_writeInt64, readInt32_writeInt32, hmore]
    unfold writeMessage
    dsimp only
    rw [hsplit _ _ _ _ (length_writeInt32 _) (length_writeInt8 _) (length_writeInt8 _),
      readInt32_writeInt32, readInt8_writeInt8, readInt8_writeInt8]
    exact hplain

end

variable (codec) in
theorem readEntry_whole {message : MessageAndOffset} (hplain : message.Plain)
    (hsize : (writeMessage crc32 message).length < 2 ^ 31) :
    readEntry codec (.ofBytes (writeMessageSet crc32 [message])) = some (message.plain, none) := by
  have hmessage := readMessage_writeMessage codec hplain hsize 0 []
  rw [List.append_nil] at hmessage
  rw [readEntry, writeMessageSet, List.flatMap_singleton, readInt64_writeInt64,
    readInt32_writeInt32, hmessage]
  rfl

variable (codec) in
/-- What the loop makes of the last entry of a set, of which `kept` bytes are left. -/
theorem readMessageSet_cut {message : MessageAndOffset} (hplain : message.Plain)
    {whole kept : ℕ} (hsize : whole + 12 + (writeMessage crc32 message).length < 2 ^ 31)
    (hkept : kept ≤ 12 + (writeMessage crc32 message).length) (fuel : ℕ)
    (messageSet : MessageSet) :
    ∃ more is, readMessageSet codec (fuel + 2)
        (.ofBytes ((writeMessageSet crc32 [message]).take kept)) (.ofNat 64 (whole + kept))
        (.ofNat 64 whole) messageSet none = some (messageSet ++ more, none, is) ∧
      (more = [] ↔ kept = 0 ∨ kept < sizeKept (writeMessage crc32 message).length kept) ∧
      (more ≠ [] → ∃ m, more = [m] ∧
        readEntry codec (.ofBytes ((writeMessageSet crc32 [message]).take kept)) =
          some (m, none)) := by
  rcases Nat.eq_zero_or_pos kept with rfl | hpos
  · refine ⟨[], .ofBytes [], ?_, by simp, fun h => absurd rfl h⟩
    rw [readMessageSet, ult_ofNat (by omega) (by omega), if_neg (by simp), List.append_nil]
    rfl
  have hle := sizeKept_le (writeMessage crc32 message).length kept
  rw [readMessageSet, ult_ofNat (by omega) (by omega), if_pos (by rw [decide_eq_true_eq]; omega)]
  dsimp only
  rw [readSize_cut (by omega), slt_rest (by omega) (by omega) (by omega), Nat.add_sub_cancel_left]
  by_cases hshort : kept < sizeKept (writeMessage crc32 message).length kept
  · rw [if_pos (decide_eq_true hshort)]
    exact ⟨[], _, by rw [List.append_nil], by simp [hshort], fun h => absurd rfl h⟩
  rw [if_neg (by rwa [decide_eq_true_eq])]
  obtain ⟨m, is, hm⟩ := exists_readMessage codec (compression_cut crc32 hplain)
    (readInt64 (.ofBytes ((writeMessageSet crc32 [message]).take kept))).1
  have hpast : kept ≤ 12 + sizeKept (writeMessage crc32 message).length kept := by
    rcases Nat.lt_or_ge kept 12 with hlt | hge
    · omega
    · rw [sizeKept_of_le hge]
      exact hkept
  rw [hm]
  dsimp only
  rw [add_size (by omega), readMessageSet, ult_ofNat (by omega) (by omega),
    if_neg (by rw [decide_eq_true_eq]; omega)]
  refine ⟨[m], is, rfl, by simp [hshort]; omega, fun _ => ⟨m, rfl, ?_⟩⟩
  rw [readEntry, hm]
  rfl

variable (codec) in
/-- A message set that is not compressed is read as it was written, but for an empty key or
value, which is read as none. Of a set that was cut, `kept` bytes of its last entry being left,
the whole messages are read. The last one is left out where nothing of it is left, and where what
is left is less than the size that is read in front of it: that does not count the twelve bytes
of offset and size, and bytes of it that are missing are zero. Otherwise a message is read, as if
zeros went on behind the set. -/
theorem message_set_read_back {messages : MessageSet} (hmessages : ∀ m ∈ messages, m.Plain)
    {message : MessageAndOffset} (hplain : message.Plain)
    (hsize : (writeMessageSet crc32 messages).length + 12 +
      (writeMessage crc32 message).length < 2 ^ 31) {kept : ℕ}
    (hkept : kept ≤ 12 + (writeMessage crc32 message).length) {fuel : ℕ}
    (hfuel : messages.length + 1 < fuel) {bytes : List Byte}
    (hbytes : bytes = (writeMessageSet crc32 (messages ++ [message])).take
      ((writeMessageSet crc32 messages).length + kept)) :
    ∃ more is, readMessageSet codec fuel (.ofBytes bytes) (.ofNat 64 bytes.length) 0 [] none =
        some (messages.map MessageAndOffset.plain ++ more, none, is) ∧
      (more = [] ↔ kept = 0 ∨
        8 < kept ∧ kept < 12 ∧ 256 ^ (12 - kept) ≤ (writeMessage crc32 message).length ∨
        12 ≤ kept ∧ kept < (writeMessage crc32 message).length) ∧
      (more ≠ [] → ∃ m, more = [m] ∧ ∀ zeros, 2 ^ 33 ≤ zeros →
        readEntry codec (.ofBytes (bytes.drop (writeMessageSet crc32 messages).length ++
          .replicate zeros 0)) = some (m, none)) ∧
      (kept = 12 + (writeMessage crc32 message).length → more = [message.plain]) := by
  rw [take_cut] at hbytes
  have hlast : (writeMessageSet crc32 [message]).length =
      12 + (writeMessage crc32 message).length := by
    rw [length_writeMessageSet_cons]
    rfl
  have hlength : bytes.length = (writeMessageSet crc32 messages).length + kept := by
    rw [hbytes, List.length_append, List.length_take, hlast, Nat.min_eq_left hkept]
  obtain ⟨fuel, rfl⟩ := Nat.exists_eq_add_of_le hfuel
  have hturns : (messages.length + 1).succ + fuel = messages.length + (fuel + 2) := by omega
  have hwhole := readMessageSet_append codec messages hmessages (fuel + 2) (by omega)
    (by omega : 0 + (writeMessageSet crc32 messages).length ≤ bytes.length)
    (fun _ => Nat.succ_ne_zero _) [] ((writeMessageSet crc32 [message]).take kept)
  rw [← hbytes, Nat.zero_add, List.nil_append, hlength] at hwhole
  obtain ⟨more, is, hread, hnil, hsome⟩ := readMessageSet_cut codec hplain hsize hkept fuel
    (messages.map MessageAndOffset.plain)
  refine ⟨more, is, ?_, ?_, ?_, ?_⟩
  · rw [hturns, hlength]
    exact hwhole.trans hread
  · rw [hnil, lt_sizeKept_iff (by omega)]
  · intro hmore
    obtain ⟨m, rfl, hm⟩ := hsome hmore
    refine ⟨m, rfl, fun zeros hzeros => ?_⟩
    rw [readEntry_padded codec _ hzeros, hbytes, List.drop_left]
    exact hm
  · intro hall
    have hmore : more ≠ [] := by
      rw [Ne, hnil, hall, sizeKept_of_le (by omega)]
      omega
    obtain ⟨m, rfl, hm⟩ := hsome hmore
    rw [hall, ← hlast, List.take_length, readEntry_whole codec hplain (by omega)] at hm
    rw [← (Prod.mk.inj (Option.some.inj hm)).1]

def firstMessage : MessageAndOffset := ⟨0, 0, none, some [1, 2, 3], []⟩

def secondMessage : MessageAndOffset := ⟨1, 0, none, some [4], []⟩

/-- The bytes of two messages, 29 and 27. -/
def twoMessages : List Byte := writeMessageSet checksum [firstMessage, secondMessage]

/-- Where only the first byte of the second message is left, or all but the last twelve, there is
a second message. Where one more of these is missing there is none. -/
theorem message_set_read_back_damaged :
    (∃ m is, readMessageSet fallback 3 (.ofBytes (twoMessages.take 30)) 30 0 [] none =
      some ([firstMessage, m], none, is)) ∧
    (∃ m is, readMessageSet fallback 3 (.ofBytes (twoMessages.take 44)) 44 0 [] none =
      some ([firstMessage, m], none, is)) ∧
    ∃ is, readMessageSet fallback 3 (.ofBytes (twoMessages.take 43)) 43 0 [] none =
      some ([firstMessage], none, is) := by
  have hfirst : (writeMessage checksum firstMessage).length = 17 := length_writeMessage _
  have hsecond : (writeMessage checksum secondMessage).length = 15 := length_writeMessage _
  have hset : (writeMessageSet checksum [firstMessage]).length = 29 := by
    rw [length_writeMessageSet_cons, hfirst]
    rfl
  have hlength : twoMessages.length = 56 := by
    rw [twoMessages, length_writeMessageSet_cons, length_writeMessageSet_cons, hfirst, hsecond]
    rfl
  have hplain : ∀ m ∈ [firstMessage], m.Plain := by
    intro m hm
    rw [List.mem_singleton.mp hm]
    rfl
  have hread := fun kept (hkept : kept ≤ 27) => message_set_read_back fallback hplain
    (rfl : secondMessage.Plain) (by rw [hset, hsecond]; omega)
    (by rw [hsecond]; exact hkept : kept ≤ 12 + (writeMessage checksum secondMessage).length)
    (by decide : 1 + 1 < 3) rfl
  simp only [hset, hsecond] at hread
  refine ⟨?_, ?_, ?_⟩
  · obtain ⟨more, is, hcut, hnil, hsome, -⟩ := hread 1 (by omega)
    obtain ⟨m, rfl, -⟩ := hsome (by rw [Ne, hnil]; omega)
    exact ⟨m, is, hcut⟩
  · obtain ⟨more, is, hcut, hnil, hsome, -⟩ := hread 15 (by omega)
    obtain ⟨m, rfl, -⟩ := hsome (by rw [Ne, hnil]; omega)
    exact ⟨m, is, hcut⟩
  · obtain ⟨more, is, hcut, hnil, -⟩ := hread 14 (by omega)
    obtain rfl := hnil.mpr (by omega)
    exact ⟨is, hcut⟩

variable (crc32) in
theorem length_le_writeMessageSet (messages : MessageSet) :
    messages.length ≤ (writeMessageSet crc32 messages).length := by
  apply length_le_length_flatMap
  intro message _
  simp only [List.length_append, length_writeInt64]
  omega

end Kafka
end HVBench
