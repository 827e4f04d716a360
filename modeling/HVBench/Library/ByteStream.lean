import Mathlib.Algebra.Group.Nat.Defs
import Mathlib.Data.List.Basic
import Mathlib.Tactic.Common

/-! Numbers as bytes in network order, and input streams of bytes, which fail at their end. -/
namespace ByteStream

/-- The low `n` bytes of a number, the highest first. -/
def encode : ℕ → ℕ → List UInt8
  | 0, _ => []
  | n + 1, v => encode n (v / 256) ++ [.ofNat v]

def decode (bs : List UInt8) : ℕ := bs.foldl (fun v b => 256 * v + b.toNat) 0

@[simp] theorem length_encode (n v : ℕ) : (encode n v).length = n := by
  induction n generalizing v with
  | zero => rfl
  | succ n ih => rw [encode, List.length_append, ih, List.length_singleton]

theorem decode_snoc (bs : List UInt8) (b : UInt8) :
    decode (bs ++ [b]) = 256 * decode bs + b.toNat := by
  unfold decode
  rw [List.foldl_append]
  rfl

theorem decode_encode (n v : ℕ) : decode (encode n v) = v % 256 ^ n := by
  induction n generalizing v with
  | zero => rw [Nat.pow_zero, Nat.mod_one]; rfl
  | succ n ih =>
    have hlow : (UInt8.ofNat v).toNat = v % 256 := UInt8.toNat_ofNat'
    rw [encode, decode_snoc, ih, hlow, Nat.pow_succ', Nat.mod_mul]
    omega

theorem decode_append_zeros (bs : List UInt8) (n : ℕ) :
    decode (bs ++ .replicate n 0) = 256 ^ n * decode bs := by
  induction n with
  | zero => rw [List.replicate_zero, List.append_nil, Nat.pow_zero, Nat.one_mul]
  | succ n ih =>
    rw [List.replicate_succ', ← List.append_assoc, decode_snoc, ih, Nat.pow_succ']
    exact (Nat.mul_assoc 256 _ _).symm

/-- The first bytes of a number are those of what is left when the others are dropped. -/
theorem take_encode (n more v : ℕ) : (encode (n + more) v).take n = encode n (v / 256 ^ more) := by
  induction more generalizing v with
  | zero =>
    rw [Nat.add_zero, Nat.pow_zero, Nat.div_one,
      List.take_of_length_le (Nat.le_of_eq (length_encode n v))]
  | succ more ih =>
    rw [← Nat.add_assoc, encode, List.take_append_of_le_length, ih, Nat.div_div_eq_div_mul,
      Nat.pow_succ']
    rw [length_encode]
    exact Nat.le_add_right n more

/-- A stream with the bytes that are left, as long as no read went beyond their end. -/
structure Istream where
  data : List UInt8
  good : Bool
  deriving DecidableEq, Repr

namespace Istream

def ofBytes (data : List UInt8) : Istream := ⟨data, true⟩

/-- Extract `n` bytes. Where there are fewer, those are extracted and the stream fails. From a
stream that failed nothing is extracted. -/
def read (is : Istream) (n : ℕ) : List UInt8 × Istream :=
  if is.good then
    if n ≤ is.data.length then (is.data.take n, ⟨is.data.drop n, true⟩)
    else (is.data, ⟨[], false⟩)
  else ([], is)

/-- Read into a buffer of `n` zeros. -/
def fill (is : Istream) (n : ℕ) : List UInt8 × Istream :=
  ((is.read n).1.rightpad n 0, (is.read n).2)

theorem read_append (bs rest : List UInt8) :
    (ofBytes (bs ++ rest)).read bs.length = (bs, ofBytes rest) := by
  unfold read ofBytes
  dsimp only
  rw [if_pos rfl, List.length_append, if_pos (Nat.le_add_right _ _), List.take_left,
    List.drop_left]

theorem read_short {bs : List UInt8} {n : ℕ} (h : bs.length < n) :
    (ofBytes bs).read n = (bs, ⟨[], false⟩) := by
  unfold read ofBytes
  dsimp only
  rw [if_pos rfl, if_neg (by omega)]

@[simp] theorem length_fill (is : Istream) (n : ℕ) : (is.fill n).1.length = n := by
  unfold fill read
  rw [List.length_rightpad]
  split_ifs
  · rw [List.length_take]
    omega
  · dsimp only
    omega
  · exact Nat.max_eq_left (Nat.zero_le n)

theorem fill_append (bs rest : List UInt8) :
    (ofBytes (bs ++ rest)).fill bs.length = (bs, ofBytes rest) := by
  unfold fill
  rw [read_append]
  simp [List.rightpad]

theorem fill_short {bs : List UInt8} {n : ℕ} (h : bs.length < n) :
    (ofBytes bs).fill n = (bs.rightpad n 0, ⟨[], false⟩) := by
  unfold fill
  rw [read_short h]

theorem fill_encode (n v : ℕ) (rest : List UInt8) :
    (ofBytes (encode n v ++ rest)).fill n = (encode n v, ofBytes rest) := by
  have hfill := fill_append (encode n v) rest
  rw [length_encode] at hfill
  exact hfill

/-- From a stream that failed nothing is read even where bytes are left. Here none are. -/
def Spent (is : Istream) : Prop := is.good = false → is.data = []

theorem spent_ofBytes (bs : List UInt8) : (ofBytes bs).Spent :=
  fun h => absurd h (by simp [ofBytes])

theorem spent_fill {is : Istream} (h : is.Spent) (n : ℕ) :
    (is.fill n).2.Spent ∧ (is.fill n).2.data.length = is.data.length - n := by
  unfold fill read
  dsimp only
  split_ifs with hgood hle
  · exact ⟨fun hfalse => absurd hfalse (by simp), List.length_drop⟩
  · refine ⟨fun _ => rfl, ?_⟩
    rw [List.length_nil]
    omega
  · refine ⟨h, ?_⟩
    rw [h (by simpa using hgood), List.length_nil, Nat.zero_sub]

theorem fill_nil {is : Istream} (h : is.data = []) (n : ℕ) : (is.fill n).1 = .replicate n 0 := by
  unfold fill read
  rw [h]
  split_ifs <;> simp [List.rightpad]

/-- A stream with the bytes of another one, and at least `n` zeros behind them. -/
def Padded (n : ℕ) (is padded : Istream) : Prop :=
  is.Spent ∧ ∃ zeros, n ≤ zeros ∧ padded = ofBytes (is.data ++ .replicate zeros 0)

theorem Padded.mono {n m : ℕ} {is padded : Istream} (h : Padded n is padded) (hle : m ≤ n) :
    Padded m is padded := by
  obtain ⟨hspent, zeros, hzeros, hpadded⟩ := h
  exact ⟨hspent, zeros, Nat.le_trans hle hzeros, hpadded⟩

/-- Where a stream ends, what is read of it is what zeros behind it would give. -/
theorem Padded.fill {n m : ℕ} {is padded : Istream} (h : Padded (n + m) is padded) :
    (padded.fill n).1 = (is.fill n).1 ∧ Padded m (is.fill n).2 (padded.fill n).2 := by
  obtain ⟨hspent, zeros, hzeros, rfl⟩ := h
  have hsplit : (is.fill n).1 ++ ((is.fill n).2.data ++
      .replicate (zeros - (n - is.data.length)) 0) = is.data ++ .replicate zeros 0 := by
    unfold Istream.fill read
    split_ifs with hgood hle
    · dsimp only
      rw [List.rightpad, List.length_take, Nat.min_eq_left hle, Nat.sub_self, List.replicate_zero,
        List.append_nil, Nat.sub_eq_zero_of_le hle, Nat.sub_zero, ← List.append_assoc,
        List.take_append_drop]
    · dsimp only
      rw [List.rightpad, List.nil_append, List.append_assoc, List.replicate_append_replicate]
      congr 2
      omega
    · dsimp only
      rw [hspent (by simpa using hgood), List.rightpad, List.nil_append, List.nil_append,
        List.nil_append, List.replicate_append_replicate]
      congr 1
      rw [List.length_nil]
      omega
  have hread := fill_append (is.fill n).1 ((is.fill n).2.data ++
    .replicate (zeros - (n - is.data.length)) 0)
  rw [hsplit, length_fill] at hread
  rw [hread]
  exact ⟨rfl, (spent_fill hspent n).1, _, by omega, rfl⟩

/-- Read as many times as there are items, each from where the last one ended. -/
def readMany {α : Type*} (readOne : Istream → Option (α × Istream)) :
    ℕ → Istream → Option (List α × Istream)
  | 0, is => some ([], is)
  | n + 1, is =>
    match readOne is with
    | none => none
    | some (x, is) => (readMany readOne n is).map fun (xs, is) => (x :: xs, is)

/-- What was written one item after the other is read so. -/
theorem readMany_flatMap {α β : Type*} {readOne : Istream → Option (β × Istream)}
    {write : α → List UInt8} {norm : α → β} {items : List α}
    (h : ∀ x ∈ items, ∀ rest, readOne (ofBytes (write x ++ rest)) = some (norm x, ofBytes rest))
    (rest : List UInt8) :
    readMany readOne items.length (ofBytes (items.flatMap write ++ rest)) =
      some (items.map norm, ofBytes rest) := by
  induction items with
  | nil => rfl
  | cons x items ih =>
    rw [List.flatMap_cons, List.append_assoc, List.length_cons, readMany,
      h x List.mem_cons_self]
    dsimp only
    rw [ih fun y hy => h y (List.mem_cons_of_mem _ hy)]
    rfl

end Istream

/-- The beginning of what was written is that of some items, and a part of the next one. -/
theorem split_of_prefix {α : Type*} {write : α → List UInt8} {items : List α}
    {bytes : List UInt8} (h : bytes <+: items.flatMap write) :
    ∃ whole rest cut, items = whole ++ rest ∧ bytes = whole.flatMap write ++ cut ∧
      (cut = [] ∨ ∃ x more, rest = x :: more ∧ cut <+: write x ∧ cut ≠ write x) := by
  induction items generalizing bytes with
  | nil => exact ⟨[], [], [], rfl, List.prefix_nil.mp h, .inl rfl⟩
  | cons x items ih =>
    rw [List.flatMap_cons] at h
    rcases List.prefix_or_prefix_of_prefix h (List.prefix_append _ _) with hcut | ⟨behind, rfl⟩
    · by_cases hall : bytes = write x
      · refine ⟨[x], items, [], rfl, ?_, .inl rfl⟩
        rw [List.flatMap_singleton, List.append_nil]
        exact hall
      · exact ⟨[], x :: items, bytes, rfl, rfl, .inr ⟨x, items, rfl, hcut, hall⟩⟩
    · obtain ⟨whole, rest, cut, rfl, rfl, hcut⟩ := ih ((List.prefix_append_right_inj _).mp h)
      refine ⟨x :: whole, rest, cut, rfl, ?_, hcut⟩
      rw [List.flatMap_cons, List.append_assoc]

/-- An item is no longer than all of them. -/
theorem length_le_flatMap {α : Type*} {write : α → List UInt8} {items : List α} {x : α}
    (hx : x ∈ items) : (write x).length ≤ (items.flatMap write).length := by
  obtain ⟨before, after, rfl⟩ := List.append_of_mem hx
  simp only [List.flatMap_append, List.flatMap_cons, List.length_append]
  omega

/-- There are no more items than bytes. -/
theorem length_le_length_flatMap {α : Type*} {write : α → List UInt8} {items : List α}
    (h : ∀ x ∈ items, 1 ≤ (write x).length) : items.length ≤ (items.flatMap write).length := by
  induction items with
  | nil => exact Nat.le_refl _
  | cons x items ih =>
    have hfirst := h x List.mem_cons_self
    have hrest := ih fun y hy => h y (List.mem_cons_of_mem _ hy)
    rw [List.flatMap_cons, List.length_append, List.length_cons]
    omega

end ByteStream
