import Hessian2.Reader

/-!
# Looking ahead in the buffer

`Reader::peek` at any offset, for every integral type, byte order and width.

* `valueOf` : the number that some bytes stand for.
* `callPeek`, `callRead` : a call of `peek` or `read`, with the specialisation for `uint8_t`.
* `PeeksExactly` : a call finds exactly what lies in the buffer.
* `peeksExactly_iff` : **it does exactly where the bound check does not wrap around.**
-/

namespace Hessian2

open Parsing Parsing.Parser

/-! ### Numbers in a wider type -/

theorem littleEndian_append_singleton (bs : Bytes) (b : UInt8) :
    littleEndian (bs ++ [b]) = littleEndian bs + 2 ^ (8 * bs.length) * b.toNat := by
  induction bs with
  | nil => simp [littleEndian]
  | cons a bs ih =>
    rw [List.cons_append, littleEndian, littleEndian, ih, List.length_cons, Nat.mul_succ, pow_add]
    ring

/-- More bytes of zeros at the most significant end change nothing. -/
theorem littleEndian_append_zeros (bs : Bytes) (n : ℕ) :
    littleEndian (bs ++ List.replicate n 0) = littleEndian bs := by
  induction n with
  | zero => simp
  | succ n ih =>
    rw [List.replicate_succ', ← List.append_assoc, littleEndian_append_singleton, ih]
    simp

/-- The most significant bit of a number is that of its last byte. -/
theorem two_pow_le_littleEndian_iff (bs : Bytes) (b : UInt8) :
    2 ^ (8 * (bs ++ [b]).length - 1) ≤ littleEndian (bs ++ [b]) ↔ 0x80 ≤ b := by
  have hlt := littleEndian_lt bs
  have hexp : 8 * (bs ++ [b]).length - 1 = 8 * bs.length + 7 := by
    rw [List.length_append, List.length_singleton]
    omega
  rw [hexp, pow_add, littleEndian_append_singleton, UInt8.le_iff_toNat_le]
  have hmsb : (0x80 : UInt8).toNat = 128 := rfl
  rw [hmsb]
  generalize 2 ^ (8 * bs.length) = M at *
  constructor
  · intro h
    by_contra hb
    have hle : M * b.toNat ≤ M * 127 := Nat.mul_le_mul_left M (by omega)
    omega
  · intro h
    have hle : M * 128 ≤ M * b.toNat := Nat.mul_le_mul_left M h
    omega

/-- All bits enabled, shifted out of `m` bits by `k`. -/
theorem shifted_ones {k m : ℕ} (h : k ≤ m) :
    (2 ^ m - 1) * 2 ^ k % 2 ^ m = 2 ^ m - 2 ^ k := by
  have hle : 2 ^ k ≤ 2 ^ m := Nat.pow_le_pow_right (by decide) h
  have hpos : 0 < 2 ^ k := by positivity
  have hmul : (2 ^ m - 1) * 2 ^ k = 2 ^ m - 2 ^ k + 2 ^ m * (2 ^ k - 1) := by
    have hcast : (((2 ^ m - 1) * 2 ^ k : ℕ) : ℤ) = ((2 ^ m - 2 ^ k + 2 ^ m * (2 ^ k - 1) : ℕ) : ℤ) := by
      push_cast [Nat.cast_sub hle, Nat.cast_sub (hpos.trans_le hle), Nat.cast_sub hpos]
      ring
    exact_mod_cast hcast
  rw [hmul, Nat.add_mul_mod_self_left, Nat.mod_eq_of_lt]
  omega

/-- Bits above a number are added to it. -/
theorem or_upper_bits {k m n : ℕ} (h : k ≤ m) (hn : n < 2 ^ k) :
    n ||| (2 ^ m - 2 ^ k) = n + (2 ^ m - 2 ^ k) := by
  have hmul : 2 ^ m - 2 ^ k = 2 ^ k * (2 ^ (m - k) - 1) := by
    rw [Nat.mul_sub, Nat.mul_one, ← pow_add, Nat.add_sub_cancel' h]
  rw [hmul, Nat.or_comm, ← Nat.two_pow_add_eq_or_of_lt hn, Nat.add_comm]

namespace IntegralType

/-- The type of the same signedness and another width. -/
def withSize (T : IntegralType) (size : ℕ) : IntegralType := ⟨size, T.signed⟩

/-- The sign of a narrower number is extended by the bits above it. -/
theorem ofBits_extended {T : IntegralType} {size n : ℕ} (hsize : size ≤ T.size) (hpos : 0 < size)
    (hn : n < 2 ^ (8 * size)) :
    T.ofBits (n ||| if T.signed ∧ size < T.size ∧ 2 ^ (8 * size - 1) ≤ n then
      (2 ^ (8 * T.size) - 1) * 2 ^ (size % T.size * 8) % 2 ^ (8 * T.size) else 0) =
      (T.withSize size).ofBits n := by
  by_cases hext : T.signed ∧ size < T.size ∧ 2 ^ (8 * size - 1) ≤ n
  -- a negative number: ones are put in front of it
  · obtain ⟨hsigned, hlt, hneg⟩ := hext
    have hexp : 8 * size ≤ 8 * T.size := by omega
    rw [if_pos ⟨hsigned, hlt, hneg⟩, Nat.mod_eq_of_lt hlt, Nat.mul_comm size 8, shifted_ones hexp,
      or_upper_bits hexp hn]
    have hle : 2 ^ (8 * size) ≤ 2 ^ (8 * T.size - 1) :=
      Nat.pow_le_pow_right (by decide) (by omega)
    have hhalf : 2 ^ (8 * T.size) = 2 * 2 ^ (8 * T.size - 1) := by
      rw [← pow_succ']
      congr 1
      omega
    have hbig : 2 ^ (8 * T.size - 1) ≤ n + (2 ^ (8 * T.size) - 2 ^ (8 * size)) := by omega
    have hle' : 2 ^ (8 * size) ≤ 2 ^ (8 * T.size) := by omega
    rw [ofBits, if_pos ⟨hsigned, hbig⟩, ofBits, withSize, if_pos ⟨hsigned, hneg⟩]
    push_cast [Nat.cast_sub hle']
    ring
  · rw [if_neg hext, Nat.or_zero]
    rcases Nat.eq_or_lt_of_le hsize with rfl | hlt
    · rfl
    -- a number that is not negative, or has no sign
    cases hs : T.signed with
    | false => simp [ofBits, withSize, hs]
    | true =>
      have hn' : n < 2 ^ (8 * size - 1) := by
        by_contra hle
        exact hext ⟨hs, hlt, Nat.le_of_not_lt hle⟩
      have hpow : 2 ^ (8 * size - 1) ≤ 2 ^ (8 * T.size - 1) :=
        Nat.pow_le_pow_right (by decide) (by omega)
      rw [ofBits, if_neg (by omega), ofBits, withSize, if_neg (by dsimp only; omega)]

end IntegralType

/-- The number that bytes in the given order stand for: in two's complement for a signed type. -/
def valueOf (T : IntegralType) (order : ByteOrder) (bs : Bytes) : ℤ :=
  (T.withSize bs.length).ofBits (fromEndian order bs)

namespace Reader

variable {σ : Type} {P : Platform} {T : IntegralType} {order : ByteOrder} {size peekOffset : ℕ}
  {s : State UInt8 σ} {raw : ℕ → ℕ → Parser UInt8 σ Fault Bytes} {data : Bytes}

/-! ### The bytes of the result -/

/-- Where the bytes that are read are placed in the object representation of the result. -/
def displacement (T : IntegralType) (order : ByteOrder) (size : ℕ) : ℕ :=
  if order = .bigEndian then T.size - size else 0

/-- The object representation of the result, before the bytes are swapped. -/
def placed (T : IntegralType) (order : ByteOrder) (size : ℕ) (data : Bytes) : Bytes :=
  List.replicate (displacement T order size) 0 ++ data ++
    List.replicate (T.size - size - displacement T order size) 0

/-- The index of the byte that is tested for the sign. -/
def mostSignificantReadByte (T : IntegralType) (order : ByteOrder) (size : ℕ) : ℕ :=
  if order = .bigEndian then displacement T order size else sub64 size 1

theorem length_placed (hlen : data.length = size) (h : size ≤ T.size) :
    (placed T order size data).length = T.size := by
  have hd : displacement T order size ≤ T.size - size := by
    unfold displacement
    split <;> omega
  simp only [placed, List.length_append, List.length_replicate]
  omega

/-- With the bytes placed so, the result has their value. -/
theorem fromEndian_placed : fromEndian order (placed T order size data) = fromEndian order data := by
  cases order with
  | bigEndian => simp [fromEndian, placed, displacement, bigEndian, littleEndian_append_zeros]
  | host => simp [fromEndian, placed, displacement, littleEndian_append_zeros]
  | littleEndian => simp [fromEndian, placed, displacement, littleEndian_append_zeros]

/-- The byte that is tested for the sign is the most significant one of those that are read. -/
theorem signByte_iff (hlen : data.length = size) (hpos : 0 < size) :
    0x80 ≤ (placed T order size data).getD (mostSignificantReadByte T order size) 0 ↔
      2 ^ (8 * size - 1) ≤ fromEndian order data := by
  subst hlen
  have hlast : 0x80 ≤ (data ++ List.replicate (T.size - data.length) 0).getD (sub64 data.length 1) 0 ↔
      2 ^ (8 * data.length - 1) ≤ littleEndian data := by
    obtain ⟨init, b, rfl⟩ :=
      (List.eq_nil_or_concat' data).resolve_left (List.ne_nil_of_length_pos hpos)
    rw [two_pow_le_littleEndian_iff, sub64, if_pos (Nat.succ_le_of_lt hpos)]
    simp
  cases order with
  | bigEndian =>
    obtain ⟨b, bs, rfl⟩ := List.exists_cons_of_length_pos hpos
    have hfirst := two_pow_le_littleEndian_iff bs.reverse b
    rw [← List.reverse_cons, List.length_reverse] at hfirst
    rw [fromEndian, bigEndian, hfirst]
    simp [placed, mostSignificantReadByte, displacement]
  | host => simpa [placed, mostSignificantReadByte, displacement, fromEndian] using hlast
  | littleEndian => simpa [placed, mostSignificantReadByte, displacement, fromEndian] using hlast

/-! ### What `peek` makes of the bytes -/

/-- `peek` behind its raw read. -/
def extended (T : IntegralType) (order : ByteOrder) (size : ℕ) (data : Bytes) :
    Parser UInt8 σ Fault (Bool × ℤ) :=
  let bytes := placed T order size data
  let index := mostSignificantReadByte T order size
  if T.signed ∧ size < T.size ∧ bytes.length ≤ index then fault .outOfBounds
  else pure (true, T.ofBits (fromEndian order bytes |||
    if T.signed ∧ size < T.size ∧ 0x80 ≤ bytes.getD index 0 then
      (2 ^ (8 * T.size) - 1) * 2 ^ (size % T.size * 8) % 2 ^ (8 * T.size)
    else 0))

theorem peekBy_eq : peekBy raw T order size peekOffset = byteAvailable >>= fun available =>
    if sub64 available peekOffset < size then pure (false, 0)
    else raw size peekOffset >>= extended T order size := rfl

/-- Without enough bytes nothing is read. -/
theorem peekBy_of_lt (h : sub64 s.cursor.unread.length peekOffset < size) :
    peekBy raw T order size peekOffset s = .ok (false, 0) s := by
  rw [peekBy_eq, bind_apply, byteAvailable_apply, Outcome.ok_andThen, if_pos h, pure_apply]

theorem peekBy_of_le (h : size ≤ sub64 s.cursor.unread.length peekOffset) :
    peekBy raw T order size peekOffset s = (raw size peekOffset >>= extended T order size) s := by
  rw [peekBy_eq, bind_apply, byteAvailable_apply, Outcome.ok_andThen, if_neg (Nat.not_lt.2 h)]

/-- Behind the check, `peek` never reports that there was not enough. -/
theorem peekBy_ne_missing (h : size ≤ sub64 s.cursor.unread.length peekOffset) {s' : State UInt8 σ} :
    peekBy raw T order size peekOffset s ≠ .ok (false, 0) s' := by
  intro hrun
  rw [peekBy_of_le h] at hrun
  obtain ⟨data, s₁, -, hrun⟩ := bind_eq_ok.1 hrun
  unfold extended at hrun
  split_ifs at hrun
  all_goals cases hrun

theorem fromEndian_lt (order : ByteOrder) (data : Bytes) :
    fromEndian order data < 2 ^ (8 * data.length) := by
  cases order with
  | bigEndian => exact bigEndian_lt data
  | host => exact littleEndian_lt data
  | littleEndian => exact littleEndian_lt data

/-- The bytes that were read become their value. -/
theorem extended_eq (hlen : data.length = size) (hsize : size ≤ T.size)
    (hpos : T.signed → 0 < size) :
    (extended T order size data : Parser UInt8 σ Fault (Bool × ℤ)) =
      pure (true, valueOf T order data) := by
  rw [extended, length_placed hlen hsize, fromEndian_placed]
  cases hs : T.signed with
  | false => simp [valueOf, IntegralType.withSize, IntegralType.ofBits, hs]
  | true =>
    have h0 := hpos hs
    have hindex : mostSignificantReadByte T order size < T.size := by
      unfold mostSignificantReadByte displacement sub64
      split_ifs <;> omega
    have hextended := IntegralType.ofBits_extended hsize h0
      (hlen ▸ fromEndian_lt order data)
    rw [if_neg (by omega), valueOf, hlen, ← hextended]
    simp only [signByte_iff hlen h0, hs]

/-- A signed type without a byte that could have the sign. -/
theorem extended_empty (hT : 0 < T.size ∧ T.size < 2 ^ 64) (hs : T.signed) :
    (extended T order 0 [] : Parser UInt8 σ Fault (Bool × ℤ)) = fault .outOfBounds := by
  have hindex : T.size ≤ mostSignificantReadByte T order 0 := by
    unfold mostSignificantReadByte displacement sub64
    split_ifs <;> omega
  have hlen : (placed T order 0 []).length = T.size :=
    length_placed List.length_nil (Nat.zero_le _)
  rw [extended, if_pos ⟨hs, hT.1, hlen.symm ▸ hindex⟩]

/-! ### Raw reads -/

/-- The bytes ahead are there. -/
theorem rawReadNBytes_ahead (hs : s.cursor.buffer.length < 2 ^ 63)
    (h : peekOffset + size ≤ s.cursor.unread.length) :
    rawReadNBytes P size peekOffset s =
      .ok ((s.cursor.unread.drop peekOffset).take size) s := by
  have hl := s.cursor.length_unread
  have hle := s.cursor.offset_le
  have hadd : ∀ a, a ≤ s.cursor.buffer.length → add64 a peekOffset = a + peekOffset := by
    intro a ha
    unfold add64
    split
    · omega
    · rw [Nat.mod_eq_of_lt (by omega)]
  rw [rawReadNBytes, hadd _ (Nat.sub_le _ _), hadd _ hle]
  rw [if_neg (by omega), if_pos (by omega), Cursor.unread, List.drop_drop]

/-! ### Calls -/

/-- The call `peek<T, Endianness, Size>(peek_offset)`.  For `uint8_t` in host order it is that of the
specialisation. -/
def callPeek (raw : ℕ → ℕ → Parser UInt8 σ Fault Bytes) (T : IntegralType) (order : ByteOrder)
    (size peekOffset : ℕ) : Parser UInt8 σ Fault (Bool × ℤ) :=
  if T = .uint8 ∧ order = .host ∧ size = 1 then
    peekByteBy raw peekOffset >>= fun result => pure (result.1, result.2.toNat)
  else peekBy raw T order size peekOffset

/-- The call `read<T, Endianness, Size>()`. -/
def callRead (P : Platform) (T : IntegralType) (order : ByteOrder) (size : ℕ) :
    Parser UInt8 σ Fault (Bool × ℤ) := do
  let result ← callPeek (rawReadNBytes P) T order size 0
  if result.1 then skip size
  pure result

theorem callPeek_of_lt (h : sub64 s.cursor.unread.length peekOffset < size) :
    callPeek raw T order size peekOffset s = .ok (false, 0) s := by
  unfold callPeek
  split_ifs with hbyte
  · rw [hbyte.2.2] at h
    rw [bind_apply, peekByteBy, bind_apply, byteAvailable_apply, Outcome.ok_andThen, if_pos h]
    rfl
  · exact peekBy_of_lt h

theorem callPeek_ne_missing (h : size ≤ sub64 s.cursor.unread.length peekOffset)
    {s' : State UInt8 σ} : callPeek raw T order size peekOffset s ≠ .ok (false, 0) s' := by
  unfold callPeek
  split_ifs with hbyte
  · rw [hbyte.2.2] at h
    intro hrun
    obtain ⟨result, s₁, hrun, hresult⟩ := bind_eq_ok.1 hrun
    rw [peekByteBy, bind_apply, byteAvailable_apply, Outcome.ok_andThen, if_neg (by omega)] at hrun
    obtain ⟨data, s₂, -, hrun⟩ := bind_eq_ok.1 hrun
    cases hrun
    cases hresult
  · exact peekBy_ne_missing h

theorem callPeek_of_le (P : Platform) (order : ByteOrder) (hs : s.cursor.buffer.length < 2 ^ 63)
    (hsize : size ≤ T.size) (hpos : T.signed → 0 < size) (h : peekOffset + size ≤ s.cursor.unread.length) :
    callPeek (rawReadNBytes P) T order size peekOffset s =
      .ok (true, valueOf T order ((s.cursor.unread.drop peekOffset).take size)) s := by
  have hraw := rawReadNBytes_ahead (P := P) hs h
  have hsub : size ≤ sub64 s.cursor.unread.length peekOffset := by
    rw [sub64, if_pos (by omega)]
    omega
  have hlen : ((s.cursor.unread.drop peekOffset).take size).length = size := by
    rw [List.length_take_of_le]
    rw [List.length_drop]
    omega
  unfold callPeek
  -- the specialisation for `uint8_t`, and the template
  split_ifs with hbyte
  · obtain ⟨rfl, rfl, rfl⟩ := hbyte
    obtain ⟨b, hb⟩ := List.length_eq_one_iff.1 hlen
    rw [bind_apply, peekByteBy, bind_apply, byteAvailable_apply, Outcome.ok_andThen,
      if_neg (by omega), bind_apply, hraw, hb]
    simp [valueOf, IntegralType.withSize, IntegralType.uint8, IntegralType.ofBits, fromEndian,
      littleEndian]
  · rw [peekBy_of_le hsub, bind_apply, hraw, Outcome.ok_andThen, extended_eq hlen hsize hpos,
      pure_apply]

/-- Besides the specialisation, the calls are those of the template. -/
theorem callRead_template (h : ¬ (T = .uint8 ∧ order = .host ∧ size = 1)) :
    (callRead P T order size : Parser UInt8 σ Fault (Bool × ℤ)) = read P T order size := by
  unfold callRead callPeek
  rw [if_neg h]
  rfl

/-- The calls of the specialisation. -/
theorem callRead_byte : (callRead P .uint8 .host 1 : Parser UInt8 σ Fault (Bool × ℤ)) =
    (readByte P >>= fun result => pure (result.1, (result.2.toNat : ℤ))) := by
  funext s
  rw [callRead, callPeek, if_pos ⟨rfl, rfl, rfl⟩, readByte]
  simp only [peekByte, bind_apply]
  rcases peekByteBy (rawReadNBytes P) 0 s with ⟨⟨_ | _, b⟩, s'⟩ | s' | ⟨e, s'⟩ | _
  · rfl
  · simp only [Outcome.ok_andThen, pure_apply, bind_apply, if_true]
    cases (skip 1 : Parser UInt8 σ Fault Unit) s' with
    | _ => rfl
  · rfl
  · rfl
  · rfl

/-- The types that `ByteOrderConverter` converts. -/
def Convertible (T : IntegralType) : Prop :=
  T.size = 1 ∨ T.size = 2 ∨ T.size = 4 ∨ T.size = 8

/-- A call of `peek` finds the value of the bytes ahead if they are there, and else nothing, without
a look at the buffer; and a call of `read` moves over what a call of `peek` finds. -/
structure PeeksExactly (P : Platform) (T : IntegralType) (order : ByteOrder) (size : ℕ)
    (peekOffset : UInt64) (s : State UInt8 σ) : Prop where
  found : peekOffset.toNat + size ≤ s.cursor.unread.length →
    callPeek (rawReadNBytes P) T order size peekOffset.toNat s =
      .ok (true, valueOf T order ((s.cursor.unread.drop peekOffset.toNat).take size)) s
  missing : s.cursor.unread.length < peekOffset.toNat + size →
    ∀ raw, callPeek raw T order size peekOffset.toNat s = .ok (false, 0) s
  read_found : ∀ h : size ≤ s.cursor.unread.length, ∃ v,
    callPeek (rawReadNBytes P) T order size 0 s = .ok (true, v) s ∧
      callRead P T order size s = .ok (true, v) ⟨s.cursor.advance size h, s.aux⟩
  read_missing : s.cursor.unread.length < size →
    (∀ raw, callPeek raw T order size 0 s = .ok (false, 0) s) ∧
      callRead P T order size s = .ok (false, 0) s

/-- **`peek` is exact except where its bound check wraps around.**  The bytes at the offset are found
or missed as they should, for every type and width, exactly if a signed type gets at least one byte,
and the offset does not lie behind the bytes that are there, or so far behind them that the
difference wraps around to less than the width. -/
theorem peeksExactly_iff (P : Platform) (T : IntegralType) (hT : Convertible T) (order : ByteOrder)
    (size : ℕ) (hsize : size ≤ T.size) (peekOffset : UInt64) (s : State UInt8 σ)
    (hs : s.cursor.buffer.length < 2 ^ 63) :
    PeeksExactly P T order size peekOffset s ↔ (T.signed → 0 < size) ∧
      (peekOffset.toNat ≤ s.cursor.unread.length ∨
        s.cursor.unread.length + 2 ^ 64 - peekOffset.toNat < size) := by
  have hT : 0 < T.size ∧ T.size < 2 ^ 64 := by
    unfold Convertible at hT
    omega
  constructor
  · intro h
    constructor
    · intro hsigned
      -- `read` looks at no byte, and at one for the sign
      by_contra hzero
      obtain rfl : size = 0 := by omega
      obtain ⟨v, hpeek, -⟩ := h.read_found (Nat.zero_le _)
      rw [callPeek, if_neg (by simp), peekBy_of_le (Nat.zero_le _), bind_apply,
        rawReadNBytes_ahead hs (by simp), Outcome.ok_andThen, List.take_zero,
        extended_empty hT hsigned] at hpeek
      cases hpeek
    · by_contra hwrap
      have hsub : size ≤ sub64 s.cursor.unread.length peekOffset.toNat := by
        rw [sub64, if_neg (by omega)]
        omega
      exact callPeek_ne_missing hsub (h.missing (by omega) (rawReadNBytes P))
  · rintro ⟨hpos, hwrap⟩
    -- the specialisation and the template both find the bytes that are there
    have hfound (offset : ℕ) (hle : offset + size ≤ s.cursor.unread.length) :=
      callPeek_of_le P order hs hsize hpos hle
    have hread (h : s.cursor.unread.length < size) :
        sub64 s.cursor.unread.length 0 < size := by rwa [sub64, if_pos (Nat.zero_le _)]
    refine ⟨hfound _, fun hlt raw => ?_, fun hle => ⟨_, hfound 0 (by omega), ?_⟩,
      fun hlt => ⟨fun raw => callPeek_of_lt (hread hlt), ?_⟩⟩
    · refine callPeek_of_lt ?_
      unfold sub64
      split <;> omega
    · simp [callRead, hfound 0 (by omega), skip_of_le hle]
    · simp [callRead, callPeek_of_lt (hread hlt)]

/-- The last byte of a buffer of three. -/
theorem peeksExactly_last :
    PeeksExactly .simple .int8 .host 1 2 (⟨.ofList [0, 1, 0xfe], ()⟩ : State UInt8 Unit) :=
  (peeksExactly_iff .simple .int8 (.inl rfl) .host 1 le_rfl 2 ⟨.ofList [0, 1, 0xfe], ()⟩
    (by decide)).2 ⟨fun _ => Nat.one_pos, .inl (by decide)⟩

/-- One byte too far: the raw read leaves the buffer. -/
theorem not_peeksExactly :
    ¬ PeeksExactly .simple .int8 .host 1 2 (⟨.ofList [0x30], ()⟩ : State UInt8 Unit) := by
  intro h
  have hrun := h.missing (by decide) (rawReadNBytes .simple)
  cases hrun

end Reader

end Hessian2
