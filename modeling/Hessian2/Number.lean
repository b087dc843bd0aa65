import Hessian2.Codec

/-!
# Numbers

`number_codec.cc`: the codecs of `int32_t`, `int64_t` and `double`.

* `decodeInt32`, `encodeInt32`, `decodeInt64`, `encodeInt64`, `decodeDouble`, `encodeDouble` : the
  code.
* `decodeInt32_eq`, `decodeInt64_eq`, `decodeDouble_eq` : each decoder reads a lead byte and goes on
  with the form it announces.
-/

namespace Hessian2

open Parsing Parsing.Parser Reader Enc

/-- `LeftShift<T>`; its argument `left` is an `int8_t`. -/
def leftShift (T : IntegralType) (left : ℤ) (bitNumber : ℕ) : ℤ :=
  let left := IntegralType.int8.cast left
  if left < 0 then T.cast (-1 * (IntegralType.int8.cast (left * -1) * 2 ^ bitNumber))
  else T.cast (left * 2 ^ bitNumber)

section Codec

variable (P : Platform)

/-! ### `int32_t` -/

/-- `decode<int32_t>` behind its lead byte. -/
def decodeInt32By (code : UInt8) : Dec Int32 :=
  if 0x80 ≤ code ∧ code ≤ 0xbf then pure (.ofInt (code.toNat - 0x90))
  else if 0xc0 ≤ code ∧ code ≤ 0xcf then do
    let available ← byteAvailable
    if available < 1 then fail else
      let ret ← readBE P .uint8
      pure (.ofInt (leftShift .int16 (code.toNat - 0xc8) 8 + ret.2))
  else if 0xd0 ≤ code ∧ code ≤ 0xd7 then do
    let available ← byteAvailable
    if available < 2 then fail else
      let ret ← readBE P .uint16
      pure (.ofInt (leftShift .int32 (code.toNat - 0xd4) 16 + ret.2))
  else if code = 0x49 then do
    let available ← byteAvailable
    if available < 4 then fail else
      let ret ← readBE P .int32
      pure (.ofInt ret.2)
  else fail

/-- `decode<int32_t>`. -/
def decodeInt32 : Dec Int32 := do
  let ret ← readBE P .uint8
  decodeInt32By P (byteOf ret.2)

/-- `encode<int32_t>`. -/
def encodeInt32 (value : Int32) : Enc Bool := do
  let data := value.toInt
  if -0x10 ≤ data ∧ data ≤ 0x2f then
    writeByte (data + 0x90)
  else if -0x800 ≤ data ∧ data ≤ 0x7ff then
    writeByte (0xc8 + data / 2 ^ 8)
    writeByte data
  else if -0x40000 ≤ data ∧ data ≤ 0x3ffff then
    writeByte (0xd4 + data / 2 ^ 16)
    writeByte (data / 2 ^ 8)
    writeByte data
  else
    writeByte 0x49
    writeBE .int32 data
  pure true

/-! ### `int64_t` -/

/-- `decode<int64_t>` behind its lead byte. -/
def decodeInt64By (code : UInt8) : Dec Int64 :=
  if 0xd8 ≤ code ∧ code ≤ 0xef then pure (.ofInt (code.toNat - 0xe0))
  else if 0xf0 ≤ code then do
    let available ← byteAvailable
    if available < 1 then fail else
      let ret ← readBE P .uint8
      pure (.ofInt (leftShift .int16 (code.toNat - 0xf8) 8 + ret.2))
  else if 0x38 ≤ code ∧ code ≤ 0x3f then do
    let available ← byteAvailable
    if available < 2 then fail else
      let ret ← readBE P .uint16
      pure (.ofInt (leftShift .int32 (code.toNat - 0x3c) 16 + ret.2))
  else if code = 0x59 then do
    let available ← byteAvailable
    if available < 4 then fail else
      let ret ← readBE P .int32
      pure (.ofInt ret.2)
  else if code = 0x4c then do
    let available ← byteAvailable
    if available < 8 then fail else
      let ret ← readBE P .int64
      pure (.ofInt ret.2)
  else fail

/-- `decode<int64_t>`. -/
def decodeInt64 : Dec Int64 := do
  let ret ← readBE P .uint8
  decodeInt64By P (byteOf ret.2)

/-- `encode<int64_t>`. -/
def encodeInt64 (value : Int64) : Enc Bool := do
  let data := value.toInt
  if -0x08 ≤ data ∧ data ≤ 0x0f then
    writeByte (data + 0xe0)
  else if -0x800 ≤ data ∧ data ≤ 0x7ff then
    writeByte (0xf8 + data / 2 ^ 8)
    writeByte data
  else if -0x40000 ≤ data ∧ data ≤ 0x3ffff then
    writeByte (0x3c + data / 2 ^ 16)
    writeByte (data / 2 ^ 8)
    writeByte data
  else if -0x80000000 ≤ data ∧ data ≤ 0x7fffffff then
    writeByte 0x59
    writeBE .int32 data
  else
    writeByte 0x4c
    writeBE .int64 data
  pure true

/-! ### `double` -/

/-- `decode<double>` behind its lead byte. -/
def decodeDoubleBy (code : UInt8) : Dec UInt64 :=
  if code = 0x5b then pure (Double.ofInt 0)
  else if code = 0x5c then pure (Double.ofInt 1)
  else if code = 0x5d then do
    let available ← byteAvailable
    if available < 1 then fail else
      let ret ← readBE P .int8
      pure (Double.ofInt ret.2)
  else if code = 0x5e then do
    let available ← byteAvailable
    if available < 2 then fail else
      let ret ← readBE P .int16
      pure (Double.ofInt ret.2)
  else if code = 0x5f then do
    let available ← byteAvailable
    if available < 4 then fail else
      let ret ← readBE P .int32
      Dec.abslAssert P ret.1
      pure (Double.thousandths (.ofInt ret.2))
  else if code = 0x44 then do
    let available ← byteAvailable
    if available < 8 then fail else
      let ret ← readBE P .uint64
      Dec.abslAssert P ret.1
      pure (.ofNat ret.2.toNat)
  else fail

/-- `decode<double>`. -/
def decodeDouble : Dec UInt64 := do
  let ret ← readBE P .uint8
  decodeDoubleBy P (byteOf ret.2)

/-- `encode<double>`. -/
def encodeDouble (value : UInt64) : Enc Bool := do
  let intValue := (Double.toInt32 value).toInt
  let exact : Prop := Double.eq (Double.ofInt intValue) value
  if exact ∧ intValue = 0 then
    writeByte 0x5b
  else if exact ∧ intValue = 1 then
    writeByte 0x5c
  else if exact ∧ -0x80 ≤ intValue ∧ intValue < 0x80 then
    writeByte 0x5d
    writeBE .int8 intValue
  else if exact ∧ -0x8000 ≤ intValue ∧ intValue < 0x8000 then
    writeByte 0x5e
    writeBE .int8 (intValue / 2 ^ 8)
    writeBE .uint8 intValue
  else
    writeByte 0x44
    writeBE .uint64 value.toNat
  pure true

/-! ### Other integers -/

/-- `encode<int8_t>`. -/
def encodeInt8 (data : Int8) : Enc Bool := encodeInt32 data.toInt32

/-- `encode<int16_t>`. -/
def encodeInt16 (data : Int16) : Enc Bool := encodeInt32 data.toInt32

/-- `encode<uint8_t>`. -/
def encodeUInt8 (data : UInt8) : Enc Bool := encodeInt32 (.ofNat data.toNat)

/-- `encode<uint16_t>`. -/
def encodeUInt16 (data : UInt16) : Enc Bool := encodeInt32 (.ofNat data.toNat)

/-- `encode<uint32_t>`, for which an `int32_t` is too narrow. -/
def encodeUInt32 (data : UInt32) : Enc Bool := encodeInt64 (.ofNat data.toNat)

end Codec

/-! ### The forms of a number -/

theorem leftShift_eq {T : IntegralType} (hT : 0 < T.size) {left : ℤ} {bitNumber : ℕ}
    (hl : -128 < left ∧ left < 128) (h : T.Holds (left * 2 ^ bitNumber)) :
    leftShift T left bitNumber = left * 2 ^ bitNumber := by
  have h8 : ∀ z : ℤ, -128 < z ∧ z < 128 → IntegralType.int8.cast z = z := fun z hz =>
    IntegralType.cast_eq (by decide) (IntegralType.holds_int8.2 (by omega))
  rw [leftShift, h8 left hl]
  split
  · have hn : -1 * (left * -1 * 2 ^ bitNumber) = left * 2 ^ bitNumber := by ring
    rw [h8 _ (by omega), hn, IntegralType.cast_eq hT h]
  · exact IntegralType.cast_eq hT h

theorem ofBits_of_not_signed {T : IntegralType} (h : T.signed = false) (bits : ℕ) :
    T.ofBits bits = bits := by
  simp [IntegralType.ofBits, h]

section Forms

variable {P : Platform} {α : Type}

/-- A lead byte that is read without a check, where the byte 0 is not a lead byte. -/
theorem readCode_eq (f : UInt8 → Dec α) (hf : f 0 = fail) :
    (do let ret ← readBE P .uint8
        f (byteOf ret.2)) = next >>= f := by
  funext s
  rcases h : s.cursor.unread with _ | ⟨b, bs⟩
  · rw [bind_apply, readBE_of_lt P (by simp [h, IntegralType.uint8]), bind_apply, next_of_nil h,
      Outcome.ok_andThen, Outcome.fail_andThen]
    exact congrFun hf s
  · rw [bind_apply, readBE_of_le P (by simp [h, IntegralType.uint8]), bind_apply, next_of_cons h,
      Outcome.ok_andThen, Outcome.ok_andThen]
    simp only [h, IntegralType.uint8, List.take_succ_cons, List.take_zero, bigEndian_singleton,
      ofBits_of_not_signed, byteOf_toNat]

/-- The `int32_t` that a lead byte and the bytes behind it stand for. -/
def int32Form (code : UInt8) : Dec Int32 :=
  if 0x80 ≤ code.toNat ∧ code.toNat ≤ 0xbf then pure (.ofInt (code.toNat - 0x90))
  else if 0xc0 ≤ code.toNat ∧ code.toNat ≤ 0xcf then
    take 1 >>= fun bs => pure (.ofInt ((code.toNat - 0xc8) * 2 ^ 8 + bigEndian bs))
  else if 0xd0 ≤ code.toNat ∧ code.toNat ≤ 0xd7 then
    take 2 >>= fun bs => pure (.ofInt ((code.toNat - 0xd4) * 2 ^ 16 + bigEndian bs))
  else if code.toNat = 0x49 then
    take 4 >>= fun bs => pure (.ofInt (IntegralType.int32.ofBits (bigEndian bs)))
  else fail

/-- The `int64_t` that a lead byte and the bytes behind it stand for. -/
def int64Form (code : UInt8) : Dec Int64 :=
  if 0xd8 ≤ code.toNat ∧ code.toNat ≤ 0xef then pure (.ofInt (code.toNat - 0xe0))
  else if 0xf0 ≤ code.toNat then
    take 1 >>= fun bs => pure (.ofInt ((code.toNat - 0xf8) * 2 ^ 8 + bigEndian bs))
  else if 0x38 ≤ code.toNat ∧ code.toNat ≤ 0x3f then
    take 2 >>= fun bs => pure (.ofInt ((code.toNat - 0x3c) * 2 ^ 16 + bigEndian bs))
  else if code.toNat = 0x59 then
    take 4 >>= fun bs => pure (.ofInt (IntegralType.int32.ofBits (bigEndian bs)))
  else if code.toNat = 0x4c then
    take 8 >>= fun bs => pure (.ofInt (IntegralType.int64.ofBits (bigEndian bs)))
  else fail

/-- The `double` that a lead byte and the bytes behind it stand for. -/
def doubleForm (code : UInt8) : Dec UInt64 :=
  if code.toNat = 0x5b then pure (Double.ofInt 0)
  else if code.toNat = 0x5c then pure (Double.ofInt 1)
  else if code.toNat = 0x5d then
    take 1 >>= fun bs => pure (Double.ofInt (IntegralType.int8.ofBits (bigEndian bs)))
  else if code.toNat = 0x5e then
    take 2 >>= fun bs => pure (Double.ofInt (IntegralType.int16.ofBits (bigEndian bs)))
  else if code.toNat = 0x5f then
    take 4 >>= fun bs => pure (Double.thousandths (.ofInt (IntegralType.int32.ofBits (bigEndian bs))))
  else if code.toNat = 0x44 then take 8 >>= fun bs => pure (.ofNat (bigEndian bs))
  else fail

/-- A read of an integer after a check for its bytes, where a failed read is asserted not to
happen. -/
theorem readBE_asserted (T : IntegralType) (f : ℤ → Dec α) :
    (do let available ← byteAvailable
        if available < T.size then fail else
          let ret ← readBE P T
          Dec.abslAssert P ret.1
          f ret.2) = take T.size >>= fun bs => f (T.ofBits (bigEndian bs)) := by
  funext s
  rw [bind_apply, byteAvailable_apply, Outcome.ok_andThen]
  by_cases h : T.size ≤ s.cursor.unread.length
  · rw [if_neg (by omega), bind_apply, readBE_of_le P h, bind_apply, take_of_le h]
    rfl
  · rw [if_pos (by omega), bind_apply, take_of_lt (by omega)]
    rfl

theorem leftShift_int16 {left : ℤ} (h : -8 ≤ left ∧ left < 8) :
    leftShift .int16 left 8 = left * 2 ^ 8 :=
  leftShift_eq (by decide) (by omega) (IntegralType.holds_int16.2 (by omega))

theorem leftShift_int32 {left : ℤ} (h : -8 ≤ left ∧ left < 8) :
    leftShift .int32 left 16 = left * 2 ^ 16 :=
  leftShift_eq (by decide) (by omega) (IntegralType.holds_int32.2 (by omega))

theorem decodeInt32By_eq (code : UInt8) : decodeInt32By P code = int32Form code := by
  simp only [decodeInt32By, int32Form, UInt8.le_iff_toNat_le, ← UInt8.toNat_inj, UInt8.reduceToNat]
  split_ifs with h₁ h₂ h₃ h₄
  · rfl
  · rw [leftShift_int16 (by omega)]
    exact readBE_guarded P .uint8 fun z => pure (Int32.ofInt ((code.toNat - 0xc8) * 2 ^ 8 + z))
  · rw [leftShift_int32 (by omega)]
    exact readBE_guarded P .uint16 fun z => pure (Int32.ofInt ((code.toNat - 0xd4) * 2 ^ 16 + z))
  · exact readBE_guarded P .int32 fun z => pure (Int32.ofInt z)
  · rfl

theorem decodeInt64By_eq (code : UInt8) : decodeInt64By P code = int64Form code := by
  have hlt := code.toNat_lt
  simp only [decodeInt64By, int64Form, UInt8.le_iff_toNat_le, ← UInt8.toNat_inj, UInt8.reduceToNat]
  split_ifs with h₁ h₂ h₃ h₄ h₅
  · rfl
  · rw [leftShift_int16 (by omega)]
    exact readBE_guarded P .uint8 fun z => pure (Int64.ofInt ((code.toNat - 0xf8) * 2 ^ 8 + z))
  · rw [leftShift_int32 (by omega)]
    exact readBE_guarded P .uint16 fun z => pure (Int64.ofInt ((code.toNat - 0x3c) * 2 ^ 16 + z))
  · exact readBE_guarded P .int32 fun z => pure (Int64.ofInt z)
  · exact readBE_guarded P .int64 fun z => pure (Int64.ofInt z)
  · rfl

theorem decodeDoubleBy_eq (code : UInt8) : decodeDoubleBy P code = doubleForm code := by
  simp only [decodeDoubleBy, doubleForm, ← UInt8.toNat_inj, UInt8.reduceToNat]
  split_ifs with h₁ h₂ h₃ h₄ h₅ h₆
  · rfl
  · rfl
  · exact readBE_guarded P .int8 fun z => pure (Double.ofInt z)
  · exact readBE_guarded P .int16 fun z => pure (Double.ofInt z)
  · exact readBE_asserted .int32 fun z => pure (Double.thousandths (Int32.ofInt z))
  · exact readBE_asserted .uint64 fun z => pure (UInt64.ofNat z.toNat)
  · rfl

theorem decodeInt32_eq : decodeInt32 P = next >>= int32Form := by
  rw [← funext (decodeInt32By_eq (P := P))]
  exact readCode_eq (decodeInt32By P) (by rw [decodeInt32By_eq]; rfl)

theorem decodeInt64_eq : decodeInt64 P = next >>= int64Form := by
  rw [← funext (decodeInt64By_eq (P := P))]
  exact readCode_eq (decodeInt64By P) (by rw [decodeInt64By_eq]; rfl)

theorem decodeDouble_eq : decodeDouble P = next >>= doubleForm := by
  rw [← funext (decodeDoubleBy_eq (P := P))]
  exact readCode_eq (decodeDoubleBy P) (by rw [decodeDoubleBy_eq]; rfl)

theorem int32Form_tame (code : UInt8) (E : Fault → Prop) (T : Prop) (N : ℕ) :
    Tame E T N (int32Form code) (int32Form code) fun _ => 0 := by
  unfold int32Form
  split_ifs
  · exact .pure _
  · exact Dec.tame_take 1 _
  · exact Dec.tame_take 2 _
  · exact Dec.tame_take 4 _
  · exact .failure _

theorem int64Form_tame (code : UInt8) (E : Fault → Prop) (T : Prop) (N : ℕ) :
    Tame E T N (int64Form code) (int64Form code) fun _ => 0 := by
  unfold int64Form
  split_ifs
  · exact .pure _
  · exact Dec.tame_take 1 _
  · exact Dec.tame_take 2 _
  · exact Dec.tame_take 4 _
  · exact Dec.tame_take 8 _
  · exact .failure _

theorem doubleForm_tame (code : UInt8) (E : Fault → Prop) (T : Prop) (N : ℕ) :
    Tame E T N (doubleForm code) (doubleForm code) fun _ => 0 := by
  unfold doubleForm
  split_ifs
  · exact .pure _
  · exact .pure _
  · exact Dec.tame_take 1 _
  · exact Dec.tame_take 2 _
  · exact Dec.tame_take 4 _
  · exact Dec.tame_take 8 _
  · exact .failure _

theorem decodeInt32_leaf : Dec.Leaf (decodeInt32 P) := .of_next decodeInt32_eq int32Form_tame

theorem decodeInt64_leaf : Dec.Leaf (decodeInt64 P) := .of_next decodeInt64_eq int64Form_tame

theorem decodeDouble_leaf : Dec.Leaf (decodeDouble P) := .of_next decodeDouble_eq doubleForm_tame

/-! ### Round trips -/

/-- The lead bytes of an `int32_t`. -/
def IntLead (b : UInt8) : Prop := (0x80 ≤ b.toNat ∧ b.toNat ≤ 0xd7) ∨ b.toNat = 0x49

/-- The lead bytes of an `int64_t`. -/
def LongLead (b : UInt8) : Prop :=
  (0x38 ≤ b.toNat ∧ b.toNat ≤ 0x3f) ∨ 0xd8 ≤ b.toNat ∨ b.toNat = 0x59 ∨ b.toNat = 0x4c

/-- The lead byte around `c` and the byte behind it that stand for `z`. -/
theorem two_bytes {z c : ℤ} (hz : -0x800 ≤ z ∧ z ≤ 0x7ff) (hc : 8 ≤ c ∧ c ≤ 0xf8) :
    ((byteOf (c + z / 2 ^ 8)).toNat : ℤ) = c + z / 2 ^ 8 ∧
      ((byteOf (c + z / 2 ^ 8)).toNat - c) * 2 ^ 8 + bigEndian [byteOf z] = z := by
  have h₀ := toNat_byteOf z
  have h₁ := toNat_byteOf (c + z / 2 ^ 8)
  rw [bigEndian_singleton]
  omega

/-- The lead byte around `c` and the two bytes behind it that stand for `z`. -/
theorem three_bytes {z c : ℤ} (hz : -0x40000 ≤ z ∧ z ≤ 0x3ffff) (hc : 4 ≤ c ∧ c ≤ 0xfc) :
    ((byteOf (c + z / 2 ^ 16)).toNat : ℤ) = c + z / 2 ^ 16 ∧
      ((byteOf (c + z / 2 ^ 16)).toNat - c) * 2 ^ 16 + bigEndian [byteOf (z / 2 ^ 8), byteOf z] =
        z := by
  have h₀ := toNat_byteOf z
  have h₁ := toNat_byteOf (z / 2 ^ 8)
  have h₂ := toNat_byteOf (c + z / 2 ^ 16)
  simp only [bigEndian_pair, Nat.cast_add, Nat.cast_mul, Nat.cast_ofNat]
  omega

theorem int32_carries (v : Int32) : Carries (encodeInt32 v) (decodeInt32 P) v IntLead := by
  refine .congr ?_ decodeInt32_eq
  have hlo := v.le_toInt
  have hhi := v.toInt_lt
  have hv : Int32.ofInt v.toInt = v := v.ofInt_toInt
  generalize hz : v.toInt = z at *
  -- one byte, two, three or five, in the order in which the encoder tries them
  by_cases h₁ : -0x10 ≤ z ∧ z ≤ 0x2f
  · have hb := toNat_byteOf (z + 0x90)
    refine ⟨byteOf (z + 0x90), [], .inl (by omega), fun e => ?_, fun t => reads_form ?_⟩
    · simp only [encodeInt32, hz, if_pos h₁, writeByte_bind, Enc.pure_apply]
    · rw [int32Form, if_pos (by omega), hb, show (z + 0x90) % 256 - 0x90 = z by omega, hv]
      exact reads_pure v t
  by_cases h₂ : -0x800 ≤ z ∧ z ≤ 0x7ff
  · obtain ⟨hb, hs⟩ := two_bytes h₂ (c := 0xc8) (by decide)
    refine ⟨byteOf (0xc8 + z / 2 ^ 8), [byteOf z], .inl (by omega), fun e => ?_,
      fun t => reads_form ?_⟩
    · simp only [encodeInt32, hz, if_neg h₁, if_pos h₂, writeByte_bind, Enc.pure_apply,
        Encoder.write_write, List.cons_append, List.nil_append]
    · rw [int32Form, if_neg (by omega), if_pos (by omega)]
      exact reads_take_map _ rfl (by rw [hs, hv]) t
  by_cases h₃ : -0x40000 ≤ z ∧ z ≤ 0x3ffff
  · obtain ⟨hb, hs⟩ := three_bytes h₃ (c := 0xd4) (by decide)
    refine ⟨byteOf (0xd4 + z / 2 ^ 16), [byteOf (z / 2 ^ 8), byteOf z], .inl (by omega),
      fun e => ?_, fun t => reads_form ?_⟩
    · simp only [encodeInt32, hz, if_neg h₁, if_neg h₂, if_pos h₃, writeByte_bind, Enc.pure_apply,
        Encoder.write_write, List.cons_append, List.nil_append]
    · rw [int32Form, if_neg (by omega), if_neg (by omega), if_pos (by omega)]
      exact reads_take_map _ rfl (by rw [hs, hv]) t
  · refine ⟨0x49, bigEndianBytes .int32 z, .inr rfl, fun e => ?_, fun t => reads_form ?_⟩
    · simp only [encodeInt32, hz, if_neg h₁, if_neg h₂, if_neg h₃, writeByte_bind, writeBE_bind,
        Enc.pure_apply, Encoder.write_write, List.cons_append, List.nil_append]
      rfl
    · rw [int32Form, if_neg (by decide), if_neg (by decide), if_neg (by decide), if_pos (by decide)]
      refine reads_take_map _ (length_bigEndianBytes _ _) ?_ t
      rw [ofBits_bigEndianBytes (by decide) (IntegralType.holds_int32.2 ⟨hlo, hhi⟩), hv]

theorem int64_carries (v : Int64) : Carries (encodeInt64 v) (decodeInt64 P) v LongLead := by
  refine .congr ?_ decodeInt64_eq
  have hlo := v.le_toInt
  have hhi := v.toInt_lt
  have hv : Int64.ofInt v.toInt = v := v.ofInt_toInt
  generalize hz : v.toInt = z at *
  -- one byte, two, three, five or nine, in the order in which the encoder tries them
  by_cases h₁ : -0x08 ≤ z ∧ z ≤ 0x0f
  · have hb := toNat_byteOf (z + 0xe0)
    refine ⟨byteOf (z + 0xe0), [], .inr (by omega), fun e => ?_, fun t => reads_form ?_⟩
    · simp only [encodeInt64, hz, if_pos h₁, writeByte_bind, Enc.pure_apply]
    · rw [int64Form, if_pos (by omega), hb, show (z + 0xe0) % 256 - 0xe0 = z by omega, hv]
      exact reads_pure v t
  by_cases h₂ : -0x800 ≤ z ∧ z ≤ 0x7ff
  · obtain ⟨hb, hs⟩ := two_bytes h₂ (c := 0xf8) (by decide)
    refine ⟨byteOf (0xf8 + z / 2 ^ 8), [byteOf z], .inr (by omega), fun e => ?_,
      fun t => reads_form ?_⟩
    · simp only [encodeInt64, hz, if_neg h₁, if_pos h₂, writeByte_bind, Enc.pure_apply,
        Encoder.write_write, List.cons_append, List.nil_append]
    · rw [int64Form, if_neg (by omega), if_pos (by omega)]
      exact reads_take_map _ rfl (by rw [hs, hv]) t
  by_cases h₃ : -0x40000 ≤ z ∧ z ≤ 0x3ffff
  · obtain ⟨hb, hs⟩ := three_bytes h₃ (c := 0x3c) (by decide)
    refine ⟨byteOf (0x3c + z / 2 ^ 16), [byteOf (z / 2 ^ 8), byteOf z], .inl (by omega),
      fun e => ?_, fun t => reads_form ?_⟩
    · simp only [encodeInt64, hz, if_neg h₁, if_neg h₂, if_pos h₃, writeByte_bind, Enc.pure_apply,
        Encoder.write_write, List.cons_append, List.nil_append]
    · rw [int64Form, if_neg (by omega), if_neg (by omega), if_pos (by omega)]
      exact reads_take_map _ rfl (by rw [hs, hv]) t
  by_cases h₄ : -0x80000000 ≤ z ∧ z ≤ 0x7fffffff
  · refine ⟨0x59, bigEndianBytes .int32 z, .inr (.inr (.inl rfl)), fun e => ?_,
      fun t => reads_form ?_⟩
    · simp only [encodeInt64, hz, if_neg h₁, if_neg h₂, if_neg h₃, if_pos h₄, writeByte_bind,
        writeBE_bind, Enc.pure_apply, Encoder.write_write, List.cons_append, List.nil_append]
      rfl
    · rw [int64Form, if_neg (by decide), if_neg (by decide), if_neg (by decide), if_pos (by decide)]
      refine reads_take_map _ (length_bigEndianBytes _ _) ?_ t
      rw [ofBits_bigEndianBytes (by decide) (IntegralType.holds_int32.2 (by omega)), hv]
  · refine ⟨0x4c, bigEndianBytes .int64 z, .inr (.inr (.inr rfl)), fun e => ?_,
      fun t => reads_form ?_⟩
    · simp only [encodeInt64, hz, if_neg h₁, if_neg h₂, if_neg h₃, if_neg h₄, writeByte_bind,
        writeBE_bind, Enc.pure_apply, Encoder.write_write, List.cons_append, List.nil_append]
      rfl
    · rw [int64Form, if_neg (by decide), if_neg (by decide), if_neg (by decide), if_neg (by decide),
        if_pos (by decide)]
      refine reads_take_map _ (length_bigEndianBytes _ _) ?_ t
      rw [ofBits_bigEndianBytes (by decide) (IntegralType.holds_int64.2 ⟨hlo, hhi⟩), hv]

/-- The lead bytes of a `double`. -/
def DoubleLead (b : UInt8) : Prop := (0x5b ≤ b.toNat ∧ b.toNat ≤ 0x5f) ∨ b.toNat = 0x44

theorem bigEndianBytes_byte {T : IntegralType} (hT : T.size = 1) (z : ℤ) :
    bigEndianBytes T z = [byteOf z] := by
  simp [bigEndianBytes, hT, bytesOf, byteOf]

theorem int16_ofBits_bytes {z : ℤ} (h : -0x8000 ≤ z ∧ z < 0x8000) :
    IntegralType.int16.ofBits (bigEndian [byteOf (z / 2 ^ 8), byteOf z]) = z := by
  have h₀ := toNat_byteOf z
  have h₁ := toNat_byteOf (z / 2 ^ 8)
  simp only [IntegralType.ofBits, IntegralType.int16, bigEndian_pair, Nat.reduceMul, Nat.reduceSub,
    Nat.cast_add, Nat.cast_mul, Nat.cast_ofNat, true_and]
  split <;> omega

theorem double_carries (v : UInt64) :
    Carries (encodeDouble v) (decodeDouble P) (Double.unsignedZero v) DoubleLead := by
  refine .congr ?_ decodeDouble_eq
  -- the integer forms lose the sign of a zero, and nothing else
  have hv : Double.eq (Double.ofInt (Double.toInt32 v).toInt) v →
      Double.ofInt (Double.toInt32 v).toInt = Double.unsignedZero v := Double.ofInt_of_eq
  have hzero : v.toNat % 2 ^ 63 = 0 →
      Double.eq (Double.ofInt (Double.toInt32 v).toInt) v ∧ (Double.toInt32 v).toInt = 0 := by
    intro h
    rw [Double.toInt32_of_zero h]
    exact ⟨Double.eq_zero_of_zero h, rfl⟩
  generalize hz : (Double.toInt32 v).toInt = z at *
  by_cases h₁ : Double.eq (Double.ofInt z) v ∧ z = 0
  · refine ⟨0x5b, [], .inl (by decide), fun e => ?_, fun t => reads_form ?_⟩
    · simp only [encodeDouble, hz, if_pos h₁, writeByte_bind, Enc.pure_apply]
      rfl
    · rw [doubleForm, if_pos (by decide), ← hv h₁.1, h₁.2]
      exact reads_pure _ t
  by_cases h₂ : Double.eq (Double.ofInt z) v ∧ z = 1
  · refine ⟨0x5c, [], .inl (by decide), fun e => ?_, fun t => reads_form ?_⟩
    · simp only [encodeDouble, hz, if_neg h₁, if_pos h₂, writeByte_bind, Enc.pure_apply]
      rfl
    · rw [doubleForm, if_neg (by decide), if_pos (by decide), ← hv h₂.1, h₂.2]
      exact reads_pure _ t
  by_cases h₃ : Double.eq (Double.ofInt z) v ∧ -0x80 ≤ z ∧ z < 0x80
  · refine ⟨0x5d, bigEndianBytes .int8 z, .inl (by decide), fun e => ?_, fun t => reads_form ?_⟩
    · simp only [encodeDouble, hz, if_neg h₁, if_neg h₂, if_pos h₃, writeByte_bind, writeBE_bind,
        Enc.pure_apply, Encoder.write_write, List.cons_append, List.nil_append]
      rfl
    · rw [doubleForm, if_neg (by decide), if_neg (by decide), if_pos (by decide)]
      refine reads_take_map _ (length_bigEndianBytes _ _) ?_ t
      rw [ofBits_bigEndianBytes (by decide) (IntegralType.holds_int8.2 h₃.2), hv h₃.1]
  by_cases h₄ : Double.eq (Double.ofInt z) v ∧ -0x8000 ≤ z ∧ z < 0x8000
  · refine ⟨0x5e, [byteOf (z / 2 ^ 8), byteOf z], .inl (by decide), fun e => ?_,
      fun t => reads_form ?_⟩
    · simp only [encodeDouble, hz, if_neg h₁, if_neg h₂, if_neg h₃, if_pos h₄, writeByte_bind,
        writeBE_bind, Enc.pure_apply, Encoder.write_write, List.cons_append, List.nil_append,
        bigEndianBytes_byte (T := .int8) rfl, bigEndianBytes_byte (T := .uint8) rfl]
      rfl
    · rw [doubleForm, if_neg (by decide), if_neg (by decide), if_neg (by decide), if_pos (by decide)]
      refine reads_take_map _ rfl ?_ t
      rw [int16_ofBits_bytes h₄.2, hv h₄.1]
  · refine ⟨0x44, bigEndianBytes .uint64 v.toNat, .inr rfl, fun e => ?_, fun t => reads_form ?_⟩
    · simp only [encodeDouble, hz, if_neg h₁, if_neg h₂, if_neg h₃, if_neg h₄, writeByte_bind,
        writeBE_bind, Enc.pure_apply, Encoder.write_write, List.cons_append, List.nil_append]
      rfl
    · rw [doubleForm, if_neg (by decide), if_neg (by decide), if_neg (by decide), if_neg (by decide),
        if_neg (by decide), if_pos (by decide)]
      refine reads_take_map _ (length_bigEndianBytes _ _) ?_ t
      have hlt := v.toNat_lt
      have hb := ofBits_bigEndianBytes (T := .uint64) (by decide)
        (IntegralType.holds_uint64.2 ⟨Int.natCast_nonneg v.toNat, by omega⟩)
      rw [ofBits_of_not_signed rfl, Nat.cast_inj] at hb
      rw [hb, UInt64.ofNat_toNat, Double.unsignedZero, if_neg fun h => h₁ (hzero h)]

end Forms

end Hessian2
