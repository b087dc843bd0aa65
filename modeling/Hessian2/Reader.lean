import Hessian2.Hash
import Hessian2.Parsing.Laws
import Mathlib.Tactic.Ring
import Mathlib.Tactic.Zify
import Mathlib.Tactic.Positivity
import Mathlib.Tactic.NormNum

/-!
# The reader

`Reader` and `StringReader`: integers of any width, signedness and byte order, read from the
buffer on a little-endian host.

* `Reader.rawReadNBytes` : `StringReader::rawReadNBytes`, the only access to the buffer.
* `Reader.peek`, `Reader.read`, `Reader.readBE` : the templates of `Reader`; `Reader.peekBy` is
  `Reader.peek` with any virtual `rawReadNBytes`.
* `Reader.peekByte`, `Reader.readByte` : the specialisation for `uint8_t`.

The guarded reads of the decoders are then brought into the form of the general parsers
(`Parser.next`, `Parser.take`, `Parser.ahead`): a read after a check that covers it never leaves
the buffer.
-/

namespace Hessian2

open Parsing Parsing.Parser

/-- How a decoder stops other than by returning. -/
inductive Fault where
  /-- An access outside the buffer. -/
  | outOfBounds
  /-- An `ABSL_ASSERT` that fails. -/
  | assertFailed
  /-- `std::vector::reserve` with more than `max_size()`. -/
  | lengthError
  /-- An allocation for which there is no memory. -/
  | badAlloc
  /-- The hash of an instance without definition, or of a destroyed object. -/
  | undefinedHash
deriving DecidableEq

/-- `ByteOrderType`. -/
inductive ByteOrder where
  | host
  | littleEndian
  | bigEndian
deriving DecidableEq

/-- An integral type. -/
structure IntegralType where
  /-- `sizeof(T)`. -/
  size : ℕ
  /-- `std::is_signed<T>`. -/
  signed : Bool
deriving DecidableEq

namespace IntegralType

/-- `uint8_t`. -/
def uint8 : IntegralType := ⟨1, false⟩
/-- `int8_t`. -/
def int8 : IntegralType := ⟨1, true⟩
/-- `uint16_t`. -/
def uint16 : IntegralType := ⟨2, false⟩
/-- `int16_t`. -/
def int16 : IntegralType := ⟨2, true⟩
/-- `int32_t`. -/
def int32 : IntegralType := ⟨4, true⟩
/-- `int64_t`. -/
def int64 : IntegralType := ⟨8, true⟩
/-- `uint64_t`. -/
def uint64 : IntegralType := ⟨8, false⟩

/-- The value of an object representation. -/
def ofBits (T : IntegralType) (bits : ℕ) : ℤ :=
  if T.signed ∧ 2 ^ (8 * T.size - 1) ≤ bits then (bits : ℤ) - 2 ^ (8 * T.size) else bits

/-- Conversion to an integral type. -/
def cast (T : IntegralType) (value : ℤ) : ℤ := T.ofBits (value % 2 ^ (8 * T.size)).toNat

/-- The values of an integral type. -/
def Holds (T : IntegralType) (value : ℤ) : Prop :=
  if T.signed then -2 ^ (8 * T.size - 1) ≤ value ∧ value < 2 ^ (8 * T.size - 1)
  else 0 ≤ value ∧ value < 2 ^ (8 * T.size)

@[simp] theorem holds_uint8 {z : ℤ} : uint8.Holds z ↔ 0 ≤ z ∧ z < 256 := by
  norm_num [Holds, uint8]

@[simp] theorem holds_int8 {z : ℤ} : int8.Holds z ↔ -128 ≤ z ∧ z < 128 := by
  norm_num [Holds, int8]

@[simp] theorem holds_uint16 {z : ℤ} : uint16.Holds z ↔ 0 ≤ z ∧ z < 65536 := by
  norm_num [Holds, uint16]

@[simp] theorem holds_int16 {z : ℤ} : int16.Holds z ↔ -32768 ≤ z ∧ z < 32768 := by
  norm_num [Holds, int16]

@[simp] theorem holds_int32 {z : ℤ} : int32.Holds z ↔ -2 ^ 31 ≤ z ∧ z < 2 ^ 31 := by
  norm_num [Holds, int32]

@[simp] theorem holds_int64 {z : ℤ} : int64.Holds z ↔ -2 ^ 63 ≤ z ∧ z < 2 ^ 63 := by
  norm_num [Holds, int64]

@[simp] theorem holds_uint64 {z : ℤ} : uint64.Holds z ↔ 0 ≤ z ∧ z < 2 ^ 64 := by
  norm_num [Holds, uint64]

/-- An object representation stands for a value of the type. -/
theorem holds_ofBits {T : IntegralType} (hT : 0 < T.size) {bits : ℕ} (h : bits < 2 ^ (8 * T.size)) :
    T.Holds (T.ofBits bits) := by
  have hpow : 2 ^ (8 * T.size) = 2 * 2 ^ (8 * T.size - 1) := by
    rw [← pow_succ']; congr 1; omega
  have hpow' : (2 : ℤ) ^ (8 * T.size) = 2 * 2 ^ (8 * T.size - 1) := by exact_mod_cast hpow
  zify at h
  rw [hpow'] at h
  simp only [Holds, ofBits]
  zify
  rw [hpow']
  cases T.signed with
  | false => simpa using h
  | true =>
    simp only [true_and, ↓reduceIte]
    split <;> omega

/-- The conversion of a value that the type has is the value. -/
theorem cast_eq {T : IntegralType} (hT : 0 < T.size) {value : ℤ} (h : T.Holds value) :
    T.cast value = value := by
  have hpow : (2 : ℤ) ^ (8 * T.size) = 2 * 2 ^ (8 * T.size - 1) := by
    rw [← pow_succ']; congr 1; omega
  have hbits : ((value % 2 ^ (8 * T.size)).toNat : ℤ) = value % 2 ^ (8 * T.size) :=
    Int.toNat_of_nonneg (Int.emod_nonneg _ (by positivity))
  have hsplit : 2 ^ (8 * T.size - 1) ≤ (value % 2 ^ (8 * T.size)).toNat ↔
      (2 : ℤ) ^ (8 * T.size - 1) ≤ value % 2 ^ (8 * T.size) := by rw [← hbits]; norm_cast
  simp only [Holds] at h
  simp only [cast, ofBits, hsplit, hbits]
  have hpos : (0 : ℤ) < 2 ^ (8 * T.size - 1) := by positivity
  generalize (2 : ℤ) ^ (8 * T.size) = M at *
  generalize (2 : ℤ) ^ (8 * T.size - 1) = H at *
  subst hpow
  cases hs : T.signed with
  | false =>
    simp only [hs, Bool.false_eq_true, ↓reduceIte] at h
    simp [Int.emod_eq_of_lt h.1 h.2]
  | true =>
    simp only [hs, ↓reduceIte] at h
    rcases lt_or_ge value 0 with hn | hn
    · have hm : value % (2 * H) = value + 2 * H := by
        rw [← Int.add_emod_right, Int.emod_eq_of_lt (by omega) (by omega)]
      rw [hm, if_pos ⟨rfl, by omega⟩]
      omega
    · rw [Int.emod_eq_of_lt hn (by omega), if_neg (by omega)]

theorem toNat_emod_lt (value : ℤ) (n : ℕ) : (value % 2 ^ n).toNat < 2 ^ n := by
  have hlt := Int.emod_lt_of_pos value (b := 2 ^ n) (by positivity)
  zify
  rwa [Int.toNat_of_nonneg (Int.emod_nonneg _ (by positivity))]

/-- A conversion gives a value of the type. -/
theorem holds_cast {T : IntegralType} (hT : 0 < T.size) (value : ℤ) : T.Holds (T.cast value) :=
  holds_ofBits hT (toNat_emod_lt value _)

/-- A conversion keeps the low bits. -/
theorem cast_emod (T : IntegralType) (value : ℤ) :
    T.cast value % 2 ^ (8 * T.size) = value % 2 ^ (8 * T.size) := by
  have hbits : ((value % 2 ^ (8 * T.size)).toNat : ℤ) = value % 2 ^ (8 * T.size) :=
    Int.toNat_of_nonneg (Int.emod_nonneg _ (by positivity))
  rw [cast, ofBits, hbits]
  split
  · rw [Int.sub_emod_right, Int.emod_emod_of_dvd _ (dvd_refl _)]
  · exact Int.emod_emod_of_dvd _ (dvd_refl _)

end IntegralType

/-- What holds of the 256 bytes holds of every byte. -/
theorem forall_byte {p : UInt8 → Prop} (h : ∀ n < 256, p (.ofNat n)) (b : UInt8) : p b := by
  have hb := h b.toNat b.toNat_lt
  rwa [UInt8.ofNat_toNat] at hb

/-- The number with the given bytes, the least significant first. -/
def littleEndian : Bytes → ℕ
  | [] => 0
  | b :: bs => b.toNat + 256 * littleEndian bs

/-- The number with the given bytes, the most significant first. -/
def bigEndian (bs : Bytes) : ℕ := littleEndian bs.reverse

theorem littleEndian_lt : ∀ bs, littleEndian bs < 2 ^ (8 * bs.length)
  | [] => Nat.one_pos
  | b :: bs => by
    have ih := littleEndian_lt bs
    have hb := b.toNat_lt
    rw [littleEndian, List.length_cons, Nat.mul_succ, pow_add]
    omega

theorem bigEndian_lt (bs : Bytes) : bigEndian bs < 2 ^ (8 * bs.length) := by
  simpa [bigEndian] using littleEndian_lt bs.reverse

theorem bigEndian_singleton (b : UInt8) : bigEndian [b] = b.toNat := by
  simp [bigEndian, littleEndian]

theorem bigEndian_pair (b c : UInt8) : bigEndian [b, c] = 256 * b.toNat + c.toNat := by
  simp [bigEndian, littleEndian, Nat.add_comm]

/-- `fromEndian`, applied to an object representation on a little-endian host. -/
def fromEndian (order : ByteOrder) (representation : Bytes) : ℕ :=
  match order with
  | .bigEndian => bigEndian representation
  | .host | .littleEndian => littleEndian representation

/-- Addition of `uint64_t`.  Nothing is added to lists longer than any buffer either. -/
def add64 (a b : ℕ) : ℕ := if b = 0 then a else (a + b) % 2 ^ 64

/-- Subtraction of `uint64_t`. -/
def sub64 (a b : ℕ) : ℕ := if b ≤ a then a - b else a + 2 ^ 64 - b

namespace Reader

variable {σ α : Type} (P : Platform)

/-- `offset`. -/
def offset : Parser UInt8 σ Fault ℕ := fun s => .ok s.cursor.offset s

/-- `byteAvailable`. -/
def byteAvailable : Parser UInt8 σ Fault ℕ := fun s =>
  .ok (s.cursor.buffer.length - s.cursor.offset) s

/-- `StringReader::rawReadNBytes`. -/
def rawReadNBytes (len peekOffset : ℕ) : Parser UInt8 σ Fault Bytes := fun s =>
  let available := s.cursor.buffer.length - s.cursor.offset
  let start := add64 s.cursor.offset peekOffset
  if ¬ P.ndebug ∧ ¬ len ≤ add64 available peekOffset then .fault .assertFailed s
  else if start + len ≤ s.cursor.buffer.length then .ok ((s.cursor.buffer.drop start).take len) s
  else .fault .outOfBounds s

/-- `initial_offset_ += len`, after bytes that were there have been read. -/
def skip (len : ℕ) : Parser UInt8 σ Fault Unit := fun s =>
  if h : len ≤ s.cursor.unread.length then .ok () ⟨s.cursor.advance len h, s.aux⟩
  else .fault .outOfBounds s

/-- `readNBytes`. -/
def readNBytes (len : ℕ) : Parser UInt8 σ Fault Bytes := do
  let data ← rawReadNBytes P len 0
  skip len
  pure data

/-- `peek<T, Endianness, Size>` of a reader with the given `rawReadNBytes`. -/
def peekBy (rawReadNBytes : ℕ → ℕ → Parser UInt8 σ Fault Bytes) (T : IntegralType)
    (order : ByteOrder) (size peekOffset : ℕ) : Parser UInt8 σ Fault (Bool × ℤ) := do
  let available ← byteAvailable
  if sub64 available peekOffset < size then pure (false, 0)
  else
    let displacement := if order = .bigEndian then T.size - size else 0
    let data ← rawReadNBytes size peekOffset
    let bytes := List.replicate displacement 0 ++ data ++
      List.replicate (T.size - size - displacement) 0
    let mostSignificantReadByte := if order = .bigEndian then displacement else sub64 size 1
    -- without a byte to look at, the code looks at one outside of `bytes`
    if T.signed ∧ size < T.size ∧ bytes.length ≤ mostSignificantReadByte then fault .outOfBounds
    else
      let signExtensionBits :=
        if T.signed ∧ size < T.size ∧ 0x80 ≤ bytes.getD mostSignificantReadByte 0 then
          (2 ^ (8 * T.size) - 1) * 2 ^ (size % T.size * 8) % 2 ^ (8 * T.size)
        else 0
      pure (true, T.ofBits (fromEndian order bytes ||| signExtensionBits))

/-- `peek<T, Endianness, Size>`. -/
def peek (T : IntegralType) (order : ByteOrder) (size peekOffset : ℕ) :
    Parser UInt8 σ Fault (Bool × ℤ) := peekBy (rawReadNBytes P) T order size peekOffset

/-- `read<T, Endianness, Size>`. -/
def read (T : IntegralType) (order : ByteOrder) (size : ℕ) :
    Parser UInt8 σ Fault (Bool × ℤ) := do
  let result ← peek P T order size 0
  if result.1 then skip size
  pure result

/-- `readBE<T>`. -/
def readBE (T : IntegralType) : Parser UInt8 σ Fault (Bool × ℤ) := read P T .bigEndian T.size

/-- `peek<uint8_t>` of a reader with the given `rawReadNBytes`. -/
def peekByteBy (rawReadNBytes : ℕ → ℕ → Parser UInt8 σ Fault Bytes) (peekOffset : ℕ) :
    Parser UInt8 σ Fault (Bool × UInt8) := do
  let available ← byteAvailable
  if sub64 available peekOffset < 1 then pure (false, 0)
  else
    let data ← rawReadNBytes 1 peekOffset
    pure (true, data.getD 0 0)

/-- `peek<uint8_t>`. -/
def peekByte (peekOffset : ℕ) : Parser UInt8 σ Fault (Bool × UInt8) :=
  peekByteBy (rawReadNBytes P) peekOffset

/-- `read<uint8_t>`. -/
def readByte : Parser UInt8 σ Fault (Bool × UInt8) := do
  let result ← peekByte P 0
  if result.1 then skip 1
  pure result

/-! ### Reads that are covered by a check -/

theorem byteAvailable_apply (s : State UInt8 σ) :
    (byteAvailable : Parser UInt8 σ Fault ℕ) s = .ok s.cursor.unread.length s := by
  rw [byteAvailable, Cursor.length_unread]

theorem rawReadNBytes_of_le {len : ℕ} {s : State UInt8 σ} (h : len ≤ s.cursor.unread.length) :
    rawReadNBytes P len 0 s = .ok (s.cursor.unread.take len) s := by
  have hl := s.cursor.length_unread
  have hle := s.cursor.offset_le
  have hbound : s.cursor.offset + len ≤ s.cursor.buffer.length := by omega
  simp only [rawReadNBytes, add64, ↓reduceIte]
  rw [if_neg (by omega), if_pos hbound, Cursor.unread]

theorem skip_of_le {len : ℕ} {s : State UInt8 σ} (h : len ≤ s.cursor.unread.length) :
    (skip len : Parser UInt8 σ Fault Unit) s = .ok () ⟨s.cursor.advance len h, s.aux⟩ := dif_pos h

theorem readNBytes_of_le {len : ℕ} {s : State UInt8 σ} (h : len ≤ s.cursor.unread.length) :
    readNBytes P len s = (take len : Parser UInt8 σ Fault Bytes) s := by
  simp only [readNBytes, bind_apply, rawReadNBytes_of_le P h, Outcome.ok_andThen, skip_of_le h,
    pure_apply, take_of_le h]

/-- A check for `len` bytes covers a read of `len` bytes. -/
theorem readNBytes_guarded (len : ℕ) (f : Bytes → Parser UInt8 σ Fault α) :
    (do let available ← byteAvailable
        if available < len then fail else
          let data ← readNBytes P len
          f data) = take len >>= f := by
  funext s
  rw [bind_apply, byteAvailable_apply, Outcome.ok_andThen]
  by_cases h : len ≤ s.cursor.unread.length
  · rw [if_neg (by omega), bind_apply, readNBytes_of_le P h, bind_apply]
  · rw [if_pos (by omega), bind_apply, take_of_lt (by omega)]
    rfl

theorem peekByte_of_nil {s : State UInt8 σ} (h : s.cursor.unread = []) :
    peekByte P 0 s = .ok (false, 0) s := by
  simp [peekByte, peekByteBy, byteAvailable_apply, h, sub64]

theorem peekByte_of_cons {s : State UInt8 σ} {b : UInt8} {bs : Bytes}
    (h : s.cursor.unread = b :: bs) : peekByte P 0 s = .ok (true, b) s := by
  have hl : 1 ≤ s.cursor.unread.length := by simp [h]
  simp [peekByte, peekByteBy, byteAvailable_apply, sub64, rawReadNBytes_of_le P hl, h]

theorem readByte_of_nil {s : State UInt8 σ} (h : s.cursor.unread = []) :
    readByte P s = .ok (false, 0) s := by
  simp [readByte, peekByte_of_nil P h]

theorem readByte_of_cons {s : State UInt8 σ} {b : UInt8} {bs : Bytes}
    (h : s.cursor.unread = b :: bs) :
    readByte P s = .ok (true, b) ⟨s.cursor.advance 1 (by simp [h]), s.aux⟩ := by
  have hl : 1 ≤ s.cursor.unread.length := by simp [h]
  simp [readByte, peekByte_of_cons P h, skip_of_le hl]

/-- A checked read of a byte. -/
theorem readByte_checked (f : UInt8 → Parser UInt8 σ Fault α) :
    (do let ret ← readByte P
        if ret.1 then f ret.2 else fail) = next >>= f := by
  funext s
  rcases h : s.cursor.unread with _ | ⟨b, bs⟩
  · simp [bind_apply, readByte_of_nil P h, next_of_nil h]
  · simp [bind_apply, readByte_of_cons P h, next_of_cons h]

/-- An unchecked read of a byte, where the byte 0 that a failed read gives is refused. -/
theorem readByte_unchecked (f : UInt8 → Parser UInt8 σ Fault α) (hf : f 0 = fail) :
    (do let ret ← readByte P
        f ret.2) = next >>= f := by
  funext s
  rcases h : s.cursor.unread with _ | ⟨b, bs⟩
  · simp [bind_apply, readByte_of_nil P h, next_of_nil h, hf]
  · simp [bind_apply, readByte_of_cons P h, next_of_cons h]

/-- A checked look at a byte. -/
theorem peekByte_checked (f : UInt8 → Parser UInt8 σ Fault α) :
    (do let ret ← peekByte P 0
        if ret.1 then f ret.2 else fail) = ahead f := by
  funext s
  rcases h : s.cursor.unread with _ | ⟨b, bs⟩
  · simp [bind_apply, peekByte_of_nil P h, ahead_of_nil h]
  · simp [bind_apply, peekByte_of_cons P h, ahead_of_cons h]

theorem readBE_of_le {T : IntegralType} {s : State UInt8 σ} (h : T.size ≤ s.cursor.unread.length) :
    readBE P T s = .ok (true, T.ofBits (bigEndian (s.cursor.unread.take T.size)))
      ⟨s.cursor.advance T.size h, s.aux⟩ := by
  have hn : ¬ s.cursor.unread.length < T.size := by omega
  simp [readBE, read, peek, peekBy, byteAvailable_apply, sub64, hn, rawReadNBytes_of_le P h, skip_of_le h,
    fromEndian]

theorem readBE_of_lt {T : IntegralType} {s : State UInt8 σ} (h : s.cursor.unread.length < T.size) :
    readBE P T s = .ok (false, 0) s := by
  simp [readBE, read, peek, peekBy, byteAvailable_apply, sub64, h]

/-- A checked read of an integer. -/
theorem readBE_checked (T : IntegralType) (f : ℤ → Parser UInt8 σ Fault α) :
    (do let ret ← readBE P T
        if ret.1 then f ret.2 else fail) = take T.size >>= fun bs => f (T.ofBits (bigEndian bs)) := by
  funext s
  by_cases h : T.size ≤ s.cursor.unread.length
  · simp [bind_apply, readBE_of_le P h, take_of_le h]
  · simp [bind_apply, readBE_of_lt P (Nat.lt_of_not_le h), take_of_lt (Nat.lt_of_not_le h)]

/-- A read of an integer after a check for its bytes. -/
theorem readBE_guarded (T : IntegralType) (f : ℤ → Parser UInt8 σ Fault α) :
    (do let available ← byteAvailable
        if available < T.size then fail else
          let ret ← readBE P T
          f ret.2) = take T.size >>= fun bs => f (T.ofBits (bigEndian bs)) := by
  funext s
  rw [bind_apply, byteAvailable_apply, Outcome.ok_andThen]
  by_cases h : T.size ≤ s.cursor.unread.length
  · rw [if_neg (by omega), bind_apply, readBE_of_le P h, bind_apply, take_of_le h]
    rfl
  · rw [if_pos (by omega), bind_apply, take_of_lt (by omega)]
    rfl

end Reader

end Hessian2
