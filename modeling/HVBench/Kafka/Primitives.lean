import HVBench.Library.ByteStream

/-! The primitives of the Kafka protocol, as `libkafka_asio` writes and reads them. A string
and a byte array are the bytes that they hold. -/
namespace HVBench
namespace Kafka
open ByteStream

abbrev Int8 := BitVec 8
abbrev Int16 := BitVec 16
abbrev Int32 := BitVec 32
abbrev Int64 := BitVec 64
abbrev Byte := UInt8

/-- A shared pointer to a byte array, which may be null. -/
abbrev Bytes := Option (List Byte)

def stringWireSize (str : List Byte) : Int32 := .ofNat 32 (2 + str.length)

def bytesWireSize : Bytes → Int32
  | none => 4
  | some bytes => 4 + .ofNat 32 bytes.length

/-- A number of `n` bytes, in network order. -/
def writeInt (n : ℕ) (value : BitVec (8 * n)) : List Byte := encode n value.toNat

def writeInt8 (value : Int8) : List Byte := writeInt 1 value
def writeInt16 (value : Int16) : List Byte := writeInt 2 value
def writeInt32 (value : Int32) : List Byte := writeInt 4 value
def writeInt64 (value : Int64) : List Byte := writeInt 8 value

def writeString (value : List Byte) : List Byte := writeInt16 (.ofNat 16 value.length) ++ value

def writeBytes : Bytes → List Byte
  | none => writeInt32 (-1)
  | some value => writeInt32 (.ofNat 32 value.length) ++ value

/-- A number of `n` bytes, of which those that cannot be read are zero. -/
def readInt (n : ℕ) (is : Istream) : BitVec (8 * n) × Istream :=
  (.ofNat (8 * n) (decode (is.fill n).1), (is.fill n).2)

def readInt8 (is : Istream) : Int8 × Istream := readInt 1 is
def readInt16 (is : Istream) : Int16 × Istream := readInt 2 is
def readInt32 (is : Istream) : Int32 × Istream := readInt 4 is
def readInt64 (is : Istream) : Int64 × Istream := readInt 8 is

def readString (is : Istream) : List Byte × Istream :=
  let (length, is) := readInt16 is
  if 0 < length.toInt then is.fill length.toNat else ([], is)

/-- `bytes` is set only where there are any. -/
def readBytes (is : Istream) (bytes : Bytes) : Bytes × Istream :=
  let (length, is) := readInt32 is
  if 0 < length.toInt then (some (is.fill length.toNat).1, (is.fill length.toNat).2)
  else (bytes, is)

/-- What is read of an array: an empty one as none. -/
def Bytes.nonEmpty : Bytes → Bytes
  | some (b :: bs) => some (b :: bs)
  | _ => none

theorem length_writeInt (n : ℕ) (value : BitVec (8 * n)) : (writeInt n value).length = n :=
  length_encode n _

@[simp] theorem length_writeInt8 (value : Int8) : (writeInt8 value).length = 1 :=
  length_writeInt 1 value

@[simp] theorem length_writeInt16 (value : Int16) : (writeInt16 value).length = 2 :=
  length_writeInt 2 value

@[simp] theorem length_writeInt32 (value : Int32) : (writeInt32 value).length = 4 :=
  length_writeInt 4 value

@[simp] theorem length_writeInt64 (value : Int64) : (writeInt64 value).length = 8 :=
  length_writeInt 8 value

@[simp] theorem length_writeString (value : List Byte) :
    (writeString value).length = 2 + value.length := by
  rw [writeString, List.length_append, length_writeInt16]

/-- The sizes that are declared are those that are written. -/
theorem stringWireSize_eq (str : List Byte) :
    stringWireSize str = .ofNat 32 (writeString str).length := by
  rw [length_writeString, stringWireSize]

theorem bytesWireSize_eq (bytes : Bytes) :
    bytesWireSize bytes = .ofNat 32 (writeBytes bytes).length := by
  cases bytes with
  | none => rfl
  | some value =>
    rw [writeBytes, List.length_append, length_writeInt32, bytesWireSize, BitVec.ofNat_add]
    rfl

theorem readInt_writeInt (n : ℕ) (value : BitVec (8 * n)) (rest : List Byte) :
    readInt n (.ofBytes (writeInt n value ++ rest)) = (value, .ofBytes rest) := by
  have hpow : 256 ^ n = 2 ^ (8 * n) := by
    rw [Nat.pow_mul]
  unfold readInt writeInt
  rw [Istream.fill_encode, decode_encode, hpow, Nat.mod_eq_of_lt value.isLt, BitVec.ofNat_toNat,
    BitVec.setWidth_eq]

theorem readInt8_writeInt8 (value : Int8) (rest : List Byte) :
    readInt8 (.ofBytes (writeInt8 value ++ rest)) = (value, .ofBytes rest) :=
  readInt_writeInt 1 value rest

theorem readInt16_writeInt16 (value : Int16) (rest : List Byte) :
    readInt16 (.ofBytes (writeInt16 value ++ rest)) = (value, .ofBytes rest) :=
  readInt_writeInt 2 value rest

theorem readInt32_writeInt32 (value : Int32) (rest : List Byte) :
    readInt32 (.ofBytes (writeInt32 value ++ rest)) = (value, .ofBytes rest) :=
  readInt_writeInt 4 value rest

theorem readInt64_writeInt64 (value : Int64) (rest : List Byte) :
    readInt64 (.ofBytes (writeInt64 value ++ rest)) = (value, .ofBytes rest) :=
  readInt_writeInt 8 value rest

/-- Where nothing is left a zero is read. -/
theorem readInt_nil {is : Istream} (h : is.data = []) (n : ℕ) : (readInt n is).1 = 0 := by
  unfold readInt
  dsimp only
  rw [Istream.fill_nil h, ← List.nil_append (List.replicate n 0), decode_append_zeros]
  rfl

/-- Of a number that was cut the bytes that are left are read, and zeros for the others. -/
theorem readInt_short {n kept : ℕ} (hkept : kept < n) (value : BitVec (8 * n)) :
    (readInt n (.ofBytes ((writeInt n value).take kept))).1 =
      .ofNat (8 * n) (256 ^ (n - kept) * (value.toNat / 256 ^ (n - kept))) := by
  obtain ⟨missing, rfl⟩ := Nat.exists_eq_add_of_le (Nat.le_of_lt hkept)
  have hlt : value.toNat / 256 ^ missing < 256 ^ kept := by
    have hpow : 256 ^ kept * 256 ^ missing = 2 ^ (8 * (kept + missing)) := by
      rw [← Nat.pow_add, Nat.pow_mul]
    rw [Nat.div_lt_iff_lt_mul (Nat.pow_pos (by decide)), hpow]
    exact value.isLt
  unfold readInt writeInt
  rw [take_encode, Istream.fill_short (by rw [length_encode]; exact hkept), List.rightpad,
    length_encode, Nat.add_sub_cancel_left, decode_append_zeros, decode_encode,
    Nat.mod_eq_of_lt hlt]

section
open Istream
variable {is padded : Istream} {more : ℕ}

/-- Numbers and arrays are read from a stream that ends as from one that goes on with zeros. -/
theorem readInt_padded {n : ℕ} (h : Padded (n + more) is padded) :
    (readInt n padded).1 = (readInt n is).1 ∧
      Padded more (readInt n is).2 (readInt n padded).2 := by
  unfold readInt
  dsimp only
  rw [h.fill.1]
  exact ⟨rfl, h.fill.2⟩

theorem readBytes_padded {most : ℕ} (hmost : 2 ^ 31 ≤ most)
    (h : Padded (4 + (most + more)) is padded) (bytes : Bytes) :
    (readBytes padded bytes).1 = (readBytes is bytes).1 ∧
      Padded more (readBytes is bytes).2 (readBytes padded bytes).2 := by
  obtain ⟨hlength, hrest⟩ := readInt_padded (n := 4) h
  unfold readBytes readInt32
  dsimp only
  rw [hlength]
  split_ifs with hpos
  · have hlt : (readInt 4 is).1.toNat < 2 ^ 31 := by
      rw [BitVec.toInt_eq_toNat_cond] at hpos
      have := (readInt 4 is).1.isLt
      split_ifs at hpos <;> omega
    have hfill := (hrest.mono (by omega : (readInt 4 is).1.toNat + more ≤ _)).fill
    exact ⟨congrArg some hfill.1, hfill.2⟩
  · exact ⟨rfl, hrest.mono (Nat.le_add_left more _)⟩

end

/-- A length that a signed number can hold. -/
theorem toInt_ofNat_of_lt {w n : ℕ} (h : 2 * n < 2 ^ w) : (BitVec.ofNat w n).toInt = n := by
  rw [BitVec.toInt_eq_toNat_of_lt, BitVec.toNat_ofNat, Nat.mod_eq_of_lt (by omega)]
  rw [BitVec.toNat_ofNat, Nat.mod_eq_of_lt (by omega)]
  exact h

theorem toNat_ofNat_of_lt {w n : ℕ} (h : n < 2 ^ w) : (BitVec.ofNat w n).toNat = n := by
  rw [BitVec.toNat_ofNat, Nat.mod_eq_of_lt h]

theorem readString_writeString {value : List Byte} (h : value.length < 2 ^ 15) (rest : List Byte) :
    readString (.ofBytes (writeString value ++ rest)) = (value, .ofBytes rest) := by
  unfold readString writeString
  rw [List.append_assoc, readInt16_writeInt16]
  dsimp only
  rw [toInt_ofNat_of_lt (by omega), toNat_ofNat_of_lt (by omega)]
  split_ifs with hpos
  · exact Istream.fill_append value rest
  · have hempty : value = [] := List.eq_nil_of_length_eq_zero (by omega)
    rw [hempty, List.nil_append]

theorem readBytes_writeBytes {value : Bytes} (h : (value.getD []).length < 2 ^ 31)
    (rest : List Byte) :
    readBytes (.ofBytes (writeBytes value ++ rest)) none = (value.nonEmpty, .ofBytes rest) := by
  unfold readBytes
  cases value with
  | none =>
    rw [writeBytes, readInt32_writeInt32]
    rfl
  | some value =>
    rw [Option.getD_some] at h
    rw [writeBytes, List.append_assoc, readInt32_writeInt32]
    dsimp only
    rw [toInt_ofNat_of_lt (by omega), toNat_ofNat_of_lt (by omega), Istream.fill_append]
    cases value with
    | nil => rfl
    | cons b bs => rw [if_pos (by rw [List.length_cons]; omega), Bytes.nonEmpty]

end Kafka
end HVBench
