import Hessian2.Number

/-!
# The widths of integers

Each integer type has five forms, and most values have several of them.

* `Shortest` : what is written is read back, and nothing that is read as the same value is shorter.
* `int32Width`, `int64Width` : the number of bytes that the encoder takes.
* `integers_shortest` : **integers are exact and as short as possible.**
-/

namespace Hessian2

open Parsing Parsing.Parser Reader Enc

variable {P : Platform}

/-- The bytes written for a value are read back as this value, whatever follows them, and whoever
reads this value has read at least as many bytes. -/
def Shortest {α : Type} (encode : Enc Bool) (decode : Dec α) (v : α) : Prop :=
  ∃ bs, (∀ e, encode e = .ok (true, e.write bs)) ∧ (∀ t, Reads decode t bs v t) ∧
    ∀ s s', decode s = .ok v s' →
      bs.length + s'.cursor.unread.length ≤ s.cursor.unread.length

/-- The number of bytes of an `int32_t`. -/
def int32Width (z : ℤ) : ℕ :=
  if -0x10 ≤ z ∧ z ≤ 0x2f then 1
  else if -0x800 ≤ z ∧ z ≤ 0x7ff then 2
  else if -0x40000 ≤ z ∧ z ≤ 0x3ffff then 3
  else 5

/-- The number of bytes of an `int64_t`. -/
def int64Width (z : ℤ) : ℕ :=
  if -0x08 ≤ z ∧ z ≤ 0x0f then 1
  else if -0x800 ≤ z ∧ z ≤ 0x7ff then 2
  else if -0x40000 ≤ z ∧ z ≤ 0x3ffff then 3
  else if -0x80000000 ≤ z ∧ z ≤ 0x7fffffff then 5
  else 9

theorem encodeInt32_length (v : Int32) (e : Encoder) : ∃ e', encodeInt32 v e = .ok (true, e') ∧
    e'.output.length = e.output.length + int32Width v.toInt := by
  simp only [encodeInt32, int32Width]
  split_ifs
  all_goals
    simp only [writeByte_bind, writeBE_bind, Enc.pure_apply, Encoder.write_write]
    refine ⟨_, rfl, ?_⟩
    simp [length_bigEndianBytes, IntegralType.int32]

theorem encodeInt64_length (v : Int64) (e : Encoder) : ∃ e', encodeInt64 v e = .ok (true, e') ∧
    e'.output.length = e.output.length + int64Width v.toInt := by
  simp only [encodeInt64, int64Width]
  split_ifs
  all_goals
    simp only [writeByte_bind, writeBE_bind, Enc.pure_apply, Encoder.write_write]
    refine ⟨_, rfl, ?_⟩
    simp [length_bigEndianBytes, IntegralType.int32, IntegralType.int64]

/-- A form of a fixed width gives a value of at most this width. -/
theorem take_width {α : Type} (width : α → ℕ) {n : ℕ} {f : Bytes → α} {v : α}
    {s s' : State UInt8 Tables}
    (h : (Parsing.Parser.take n >>= fun bs => pure (f bs) : Dec α) s = .ok v s')
    (hw : ∀ bs, bs.length = n → width (f bs) ≤ n + 1) :
    width v + s'.cursor.unread.length ≤ s.cursor.unread.length + 1 := by
  obtain ⟨bs, s₁, h₁, h⟩ := Parser.bind_eq_ok.1 h
  obtain ⟨hu, hlen, -⟩ := take_eq_ok h₁
  cases h
  have hwidth := hw bs hlen
  rw [hu, List.length_append]
  omega

theorem int32Form_width {code : UInt8} {v : Int32} {s s' : State UInt8 Tables}
    (h : int32Form code s = .ok v s') :
    int32Width v.toInt + s'.cursor.unread.length ≤ s.cursor.unread.length + 1 := by
  unfold int32Form at h
  split_ifs at h with h₁ h₂ h₃ h₄
  · cases h
    rw [Int32.toInt_ofInt_of_le (by omega) (by omega), int32Width, if_pos (by omega)]
    omega
  · refine take_width (int32Width ∘ Int32.toInt) h fun bs hbs => ?_
    have hlt := bigEndian_lt bs
    rw [hbs] at hlt
    rw [Function.comp_apply, Int32.toInt_ofInt_of_le (by omega) (by omega), int32Width]
    split_ifs <;> omega
  · refine take_width (int32Width ∘ Int32.toInt) h fun bs hbs => ?_
    have hlt := bigEndian_lt bs
    rw [hbs] at hlt
    rw [Function.comp_apply, Int32.toInt_ofInt_of_le (by omega) (by omega), int32Width]
    split_ifs <;> omega
  · refine take_width (int32Width ∘ Int32.toInt) h fun bs hbs => ?_
    rw [Function.comp_apply, int32Width]
    split_ifs <;> omega
  · cases h

theorem int64Form_width {code : UInt8} {v : Int64} {s s' : State UInt8 Tables}
    (h : int64Form code s = .ok v s') :
    int64Width v.toInt + s'.cursor.unread.length ≤ s.cursor.unread.length + 1 := by
  have hcode := code.toNat_lt
  unfold int64Form at h
  -- each form holds only values that need no fewer bytes than it has
  split_ifs at h with h₁ h₂ h₃ h₄ h₅
  · cases h
    rw [Int64.toInt_ofInt_of_le (by omega) (by omega), int64Width, if_pos (by omega)]
    omega
  · refine take_width (int64Width ∘ Int64.toInt) h fun bs hbs => ?_
    have hlt := bigEndian_lt bs
    rw [hbs] at hlt
    rw [Function.comp_apply, Int64.toInt_ofInt_of_le (by omega) (by omega), int64Width]
    split_ifs <;> omega
  · refine take_width (int64Width ∘ Int64.toInt) h fun bs hbs => ?_
    have hlt := bigEndian_lt bs
    rw [hbs] at hlt
    rw [Function.comp_apply, Int64.toInt_ofInt_of_le (by omega) (by omega), int64Width]
    split_ifs <;> omega
  · refine take_width (int64Width ∘ Int64.toInt) h fun bs hbs => ?_
    have hholds := IntegralType.holds_int32.1 (IntegralType.holds_ofBits (by decide)
      (hbs ▸ bigEndian_lt bs : bigEndian bs < 2 ^ (8 * 4)))
    rw [Function.comp_apply, Int64.toInt_ofInt_of_le (by omega) (by omega), int64Width]
    split_ifs <;> omega
  · refine take_width (int64Width ∘ Int64.toInt) h fun bs hbs => ?_
    rw [Function.comp_apply, int64Width]
    split_ifs <;> omega
  · cases h

/-- Codecs whose forms are as wide as their values need. -/
theorem shortest {α : Type} {encode : Enc Bool} {decode : Dec α} {form : UInt8 → Dec α} {v : α}
    {L : UInt8 → Prop} {width : ℕ} (hc : Carries encode decode v L)
    (hw : ∀ e, ∃ e', encode e = .ok (true, e') ∧ e'.output.length = e.output.length + width)
    (hd : decode = next >>= form)
    (hf : ∀ {code s s'}, form code s = .ok v s' →
      width + s'.cursor.unread.length ≤ s.cursor.unread.length + 1) :
    Shortest encode decode v := by
  obtain ⟨b, bs, -, hwrite, hread⟩ := hc
  refine ⟨b :: bs, hwrite, hread, fun s s' h => ?_⟩
  obtain ⟨e', he, hlen⟩ := hw .empty
  rw [hwrite] at he
  cases he
  rw [hd] at h
  obtain ⟨code, s₁, h₁, h⟩ := Parser.bind_eq_ok.1 h
  obtain ⟨hu, -⟩ := next_eq_ok h₁
  have hwidth := hf h
  rw [Encoder.write_output, List.length_append] at hlen
  have hlead : s.cursor.unread.length = s₁.cursor.unread.length + 1 := by
    rw [hu, List.length_cons]
  omega

/-- **Integers are exact and as short as possible**: every value is read back from the bytes
written for it, whatever follows them, and whoever reads it from other bytes has read at least as
many. -/
theorem integers_shortest (P : Platform) :
    (∀ v, Shortest (encodeInt32 v) (decodeInt32 P) v) ∧
      ∀ v, Shortest (encodeInt64 v) (decodeInt64 P) v :=
  ⟨fun v => shortest (int32_carries v) (encodeInt32_length v) decodeInt32_eq int32Form_width,
    fun v => shortest (int64_carries v) (encodeInt64_length v) decodeInt64_eq int64Form_width⟩

end Hessian2
