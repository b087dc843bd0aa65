import Hessian2.Encoder
import Hessian2.Peeking

/-!
# Integers behind each other in a buffer

`Writer::write` and `Reader::read`, of any integral types in any byte orders.

* `toEndian`, `Enc.write`, `Enc.writeLE` : `Writer`, on a little-endian host.
* `Field` : an integer with the type that it is written as and the one that it is read as.
* `writeFields`, `readFields` : a sequence of writes, and the matching reads.
* `tape_round_trip` : **what is written is read in the same order, and found at its place by looks
  ahead.**
-/

namespace Hessian2

open Parsing Parsing.Parser

/-! ### Writing -/

/-- `toEndian`, as the object representation of the result on a little-endian host. -/
def toEndian (order : ByteOrder) (T : IntegralType) (value : ℤ) : Bytes :=
  match order with
  | .bigEndian => bigEndianBytes T value
  | .host | .littleEndian => bytesOf T.size (value % 2 ^ (8 * T.size)).toNat

/-- `write<Endianness, T>`. -/
def Enc.write (order : ByteOrder) (T : IntegralType) (value : ℤ) : Enc Unit :=
  Enc.rawWrite (toEndian order T value)

/-- `writeLE<T>`. -/
def Enc.writeLE (T : IntegralType) (value : ℤ) : Enc Unit := Enc.write .littleEndian T value

/-- `writeBE<T>` is `write<BigEndian, T>`. -/
theorem Enc.writeBE_eq (T : IntegralType) (value : ℤ) : Enc.writeBE T value = Enc.write .bigEndian T value :=
  rfl

@[simp] theorem length_toEndian (order : ByteOrder) (T : IntegralType) (value : ℤ) :
    (toEndian order T value).length = T.size := by
  cases order <;> simp [toEndian]

/-- `fromEndian` undoes `toEndian`. -/
theorem fromEndian_toEndian (order : ByteOrder) (T : IntegralType) (value : ℤ) :
    fromEndian order (toEndian order T value) = (value % 2 ^ (8 * T.size)).toNat := by
  have hlt := IntegralType.toNat_emod_lt value (8 * T.size)
  cases order with
  | bigEndian =>
    rw [fromEndian, toEndian, bigEndian, bigEndianBytes, List.reverse_reverse, littleEndian_bytesOf,
      Nat.mod_eq_of_lt hlt]
  | host => rw [fromEndian, toEndian, littleEndian_bytesOf, Nat.mod_eq_of_lt hlt]
  | littleEndian => rw [fromEndian, toEndian, littleEndian_bytesOf, Nat.mod_eq_of_lt hlt]

namespace Reader

variable {σ : Type} {P : Platform} {s : State UInt8 σ}

/-- An integer in a buffer. -/
structure Field where
  /-- The type that it is written as. -/
  type : IntegralType
  order : ByteOrder
  value : ℤ
  /-- The type that it is read as. -/
  readAs : IntegralType
  convertible : Convertible type
  holds : type.Holds value
  wide : type.size ≤ readAs.size
  signed : readAs.signed = type.signed

namespace Field

/-- The bytes of an integer. -/
def bytes (i : Field) : Bytes := toEndian i.order i.type i.value

/-- The call of `read`, of as many bytes as have been written. -/
def read (P : Platform) (i : Field) : Parser UInt8 σ Fault (Bool × ℤ) :=
  callRead P i.readAs i.order i.type.size

/-- The call of `peek`. -/
def peek (P : Platform) (i : Field) (peekOffset : ℕ) : Parser UInt8 σ Fault (Bool × ℤ) :=
  callPeek (rawReadNBytes P) i.readAs i.order i.type.size peekOffset

@[simp] theorem length_bytes (i : Field) : i.bytes.length = i.type.size := length_toEndian _ _ _

theorem size_pos (i : Field) : 0 < i.type.size := by
  have h := i.convertible
  unfold Convertible at h
  omega

/-- The bytes stand for the integer in the wider type as well. -/
theorem valueOf_bytes (i : Field) : valueOf i.readAs i.order i.bytes = i.value := by
  have htype : i.readAs.withSize i.type.size = i.type := by rw [IntegralType.withSize, i.signed]
  rw [valueOf, length_bytes, htype, bytes, fromEndian_toEndian]
  exact IntegralType.cast_eq i.size_pos i.holds

/-- A look at the place of an integer finds it. -/
theorem peek_eq (i : Field) (before after : Bytes) (hs : s.cursor.buffer.length < 2 ^ 63)
    (hu : s.cursor.unread = before ++ i.bytes ++ after) :
    i.peek P before.length s = .ok (true, i.value) s := by
  have hle : before.length + i.type.size ≤ s.cursor.unread.length := by
    rw [hu, List.length_append, List.length_append, length_bytes]
    omega
  have hpeek := callPeek_of_le P i.order hs i.wide (fun _ => i.size_pos) hle
  have hdata : (s.cursor.unread.drop before.length).take i.type.size = i.bytes := by
    rw [hu, List.append_assoc, List.drop_left, List.take_left' i.length_bytes]
  rw [peek, hpeek, hdata, valueOf_bytes]

/-- A read returns the integer that comes next and moves behind it. -/
theorem read_eq (i : Field) {after : Bytes} (hs : s.cursor.buffer.length < 2 ^ 63)
    (hu : s.cursor.unread = i.bytes ++ after) : ∃ h : i.type.size ≤ s.cursor.unread.length,
      i.read P s = .ok (true, i.value) ⟨s.cursor.advance i.type.size h, s.aux⟩ := by
  have hle : i.type.size ≤ s.cursor.unread.length := by
    rw [hu, List.length_append, length_bytes]
    omega
  have hpeek : i.peek P 0 s = .ok (true, i.value) s := i.peek_eq [] after hs hu
  refine ⟨hle, ?_⟩
  rw [read, callRead, bind_apply]
  rw [peek] at hpeek
  simp [hpeek, skip_of_le hle]

end Field

/-! ### Sequences -/

/-- The bytes of integers behind each other. -/
def bytesOfFields (fields : List Field) : Bytes := fields.flatMap Field.bytes

/-- One write after the other. -/
def writeFields : List Field → Enc Unit
  | [] => pure ()
  | i :: fields => do
    Enc.write i.order i.type i.value
    writeFields fields

/-- The matching reads. -/
def readFields (P : Platform) : List Field → Parser UInt8 σ Fault (List (Bool × ℤ))
  | [] => pure []
  | i :: fields => i.read P >>= fun r => readFields P fields >>= fun rs => pure (r :: rs)

theorem writeFields_eq : ∀ (fields : List Field) (e : Encoder),
    writeFields fields e = .ok ((), e.write (bytesOfFields fields))
  | [], e => by rw [bytesOfFields, List.flatMap_nil, Encoder.write_nil]; rfl
  | i :: fields, e => by
    have hrest := writeFields_eq fields (e.write i.bytes)
    rw [Encoder.write_write] at hrest
    exact hrest

theorem readFields_eq : ∀ (fields : List Field) {s : State UInt8 σ} {after : Bytes},
    s.cursor.buffer.length < 2 ^ 63 → s.cursor.unread = bytesOfFields fields ++ after →
      ∃ s', readFields P fields s = .ok (fields.map fun i => (true, i.value)) s' ∧
        s'.cursor.buffer = s.cursor.buffer ∧ s'.aux = s.aux ∧
        s'.cursor.offset = s.cursor.offset + (bytesOfFields fields).length
  | [], s, _, _, _ => ⟨s, rfl, rfl, rfl, rfl⟩
  | i :: fields, s, after, hs, hu => by
    rw [bytesOfFields, List.flatMap_cons, List.append_assoc] at hu
    obtain ⟨hle, hread⟩ := i.read_eq (P := P) hs hu
    have hunread : (s.cursor.advance i.type.size hle).unread = bytesOfFields fields ++ after := by
      rw [Cursor.unread_advance, hu, List.drop_left' i.length_bytes, bytesOfFields]
    obtain ⟨s', hrest, hbuffer, haux, hoffset⟩ :=
      readFields_eq fields (s := ⟨s.cursor.advance i.type.size hle, s.aux⟩) hs hunread
    refine ⟨s', ?_, hbuffer, haux, ?_⟩
    · simp [readFields, bind_apply, hread, hrest]
    · rw [hoffset, Cursor.advance_offset]
      simp [bytesOfFields, Nat.add_assoc]

/-- **Integers of any types and byte orders survive the buffer.**  What a sequence of writes appends to
an output is read back by the matching reads, also as wider types of the same signedness, whatever
stands before and behind it, and every integer is found at its place by a look ahead. -/
theorem tape_round_trip (P : Platform) (fields : List Field) (e e' : Encoder) (after : Bytes)
    (hw : writeFields fields e = .ok ((), e')) (hbuffer : s.cursor.buffer = e'.output ++ after)
    (hoffset : s.cursor.offset = e.output.length) (hlen : s.cursor.buffer.length < 2 ^ 63) :
    (∃ s', readFields P fields s = .ok (fields.map fun i => (true, i.value)) s' ∧
      s'.cursor.buffer = s.cursor.buffer ∧ s'.aux = s.aux ∧ s'.cursor.offset = e'.output.length) ∧
    ∀ before i rest, fields = before ++ i :: rest →
      i.peek P (bytesOfFields before).length s = .ok (true, i.value) s := by
  rw [writeFields_eq] at hw
  cases hw
  rw [Encoder.write_output] at hbuffer ⊢
  have hu : s.cursor.unread = bytesOfFields fields ++ after := by
    rw [Cursor.unread, hbuffer, hoffset, List.append_assoc, List.drop_left]
  constructor
  · obtain ⟨s', hread, hbuffer', haux, hoffset'⟩ := readFields_eq fields hlen hu
    refine ⟨s', hread, hbuffer', haux, ?_⟩
    rw [hoffset', hoffset, List.length_append]
  · rintro before i rest rfl
    refine i.peek_eq _ (bytesOfFields rest ++ after) hlen ?_
    rw [hu]
    simp [bytesOfFields]

/-- -2 as an `int16_t` in both byte orders, read as an `int32_t`, between other bytes. -/
def negatives : List Field :=
  [⟨.int16, .bigEndian, -2, .int32, .inr (.inl rfl), by simp, by decide, rfl⟩,
    ⟨.int16, .littleEndian, -2, .int32, .inr (.inl rfl), by simp, by decide, rfl⟩]

theorem tape_round_trip_negatives :
    (∃ s', readFields .simple negatives
        ⟨⟨[0x4e, 0xff, 0xfe, 0xfe, 0xff, 0x4e], 1, by decide⟩, ()⟩ = .ok [(true, -2), (true, -2)] s' ∧
      s'.cursor.buffer = [0x4e, 0xff, 0xfe, 0xfe, 0xff, 0x4e] ∧ s'.aux = () ∧ s'.cursor.offset = 5) ∧
    ∀ before i rest, negatives = before ++ i :: rest →
      i.peek .simple (bytesOfFields before).length
          ⟨⟨[0x4e, 0xff, 0xfe, 0xfe, 0xff, 0x4e], 1, by decide⟩, ()⟩ =
        .ok (true, i.value) ⟨⟨[0x4e, 0xff, 0xfe, 0xfe, 0xff, 0x4e], 1, by decide⟩, ()⟩ :=
  tape_round_trip .simple negatives (.write .empty [0x4e]) (.write .empty [0x4e, 0xff, 0xfe, 0xfe, 0xff])
    [0x4e] rfl rfl rfl (by decide)

end Reader

end Hessian2
