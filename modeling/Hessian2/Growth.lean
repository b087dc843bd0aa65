import Hessian2.Duration
import Hessian2.ObjectCodec

/-!
# How an encoder grows

What the functions of an `Encoder` do to its state, whatever they are given.

* `Enc.Writes` : a function that writes the same bytes in every state and returns true.
* `accepts` : the strings that `encode<absl::string_view>` does not refuse.
* `encodeTypeRef_ok`, `encodeRawDefinition_ok` : what the functions with tables do.
* `Enc.Closed` : a relation between states that every function keeps; `encodeObject_keeps` carries
  it through `encode<Object>`.
* `Encoder.Grows` : the output and the tables only grow.
-/

namespace Hessian2

open Parsing Reader Enc

variable {α β : Type} {P : Platform}

/-! ### Functions that only write -/

namespace Enc

/-- The same bytes in every state, and success. -/
def Writes (m : Enc Bool) : Prop := ∃ bs, ∀ e, m e = .ok (true, e.write bs)

end Enc

theorem Carries.writes {encode : Enc Bool} {decode : Dec α} {v : α} {L : UInt8 → Prop}
    (h : Carries encode decode v L) : Writes encode := by
  obtain ⟨b, bs, -, hw, -⟩ := h
  exact ⟨b :: bs, hw⟩

theorem writeBinaryChunks_writes (data : Bytes) (size : ℕ) : ∀ offset,
    ∃ bs, ∀ e, writeBinaryChunks data size offset e = .ok ((), e.write bs) := by
  induction size using Nat.strong_induction_on with
  | _ size ih =>
  intro offset
  by_cases hbig : chunkSize < size
  · obtain ⟨bs, hbs⟩ := ih (size - chunkSize) (by rw [chunkSize] at *; omega)
      ((offset + chunkSize) % 2 ^ 32)
    refine ⟨[byteOf 0x41] ++ (bigEndianBytes .uint16 chunkSize ++
      ((data.drop offset).take chunkSize ++ bs)), fun e => ?_⟩
    rw [writeBinaryChunks, if_pos hbig, writeByte_bind, writeBE_bind, rawWrite_bind, hbs]
    simp only [Encoder.write_write, List.append_assoc]
  by_cases hpos : 0 < size
  · refine ⟨[byteOf 0x42] ++ (bigEndianBytes .uint16 size ++ data.drop offset), fun e => ?_⟩
    rw [writeBinaryChunks, if_neg hbig, if_pos hpos, writeByte_bind, writeBE_bind, rawWrite_apply]
    simp only [Encoder.write_write, List.append_assoc]
  · refine ⟨[], fun e => ?_⟩
    rw [writeBinaryChunks, if_neg hbig, if_neg hpos, Encoder.write_nil]
    rfl

theorem encodeBytes_writes (data : Bytes) : Writes (encodeBytes data) := by
  by_cases h₁ : data.length < 16
  · refine ⟨[byteOf (0x20 + data.length)] ++ data, fun e => ?_⟩
    simp only [encodeBytes, if_pos h₁, writeByte_bind, rawWrite_bind, Enc.pure_apply,
      Encoder.write_write]
  by_cases h₂ : data.length < 1024
  · refine ⟨[byteOf (0x34 + data.length / 256)] ++ ([byteOf data.length] ++ data), fun e => ?_⟩
    simp only [encodeBytes, if_neg h₁, if_pos h₂, writeByte_bind, rawWrite_bind, Enc.pure_apply,
      Encoder.write_write, List.append_assoc]
  · obtain ⟨bs, hbs⟩ := writeBinaryChunks_writes data data.length 0
    refine ⟨bs, fun e => ?_⟩
    simp only [encodeBytes, if_neg h₁, if_neg h₂]
    rw [Enc.bind_apply_ok (hbs e), Enc.pure_apply]

theorem encodeInt32_writes (v : Int32) : Writes (encodeInt32 v) :=
  (int32_carries (P := .simple) v).writes

theorem encodeDefRef_writes (r : Int16) : Writes (encodeDefRef r) := by
  unfold encodeDefRef
  split
  · exact ⟨_, fun e => rfl⟩
  · obtain ⟨bs, hbs⟩ := encodeInt32_writes r.toInt32
    refine ⟨[byteOf 0x4f] ++ bs, fun e => ?_⟩
    rw [writeByte_bind, Enc.bind_apply_ok (hbs _), Enc.pure_apply, Encoder.write_write]

/-! ### Strings -/

/-- The strings that `encode<absl::string_view>` does not refuse. -/
def accepts (P : Platform) (data : Bytes) : Bool :=
  match getUtf8StringLengthAndPerChunkOffsets data with
  | none => false
  | some offsets =>
    if P.javaHessianLite ∧ offsets.fourBytesCharOffsets ≠ [] then
      let rewriteData := escapeFourBytesUtf8Char data offsets.fourBytesCharOffsets
      rewriteData ≠ [] && (getUtf8StringLengthAndPerChunkOffsets rewriteData).isSome
    else true

theorem writeChunks_writes (data : Bytes) : ∀ offsets length strOffset,
    ∃ bs r, ∀ e, writeChunks data offsets length strOffset e = .ok (r, e.write bs)
  | [], length, strOffset => ⟨[], (length, strOffset), fun e => by
      rw [writeChunks, Encoder.write_nil]; rfl⟩
  | rawOffset :: offsets, length, strOffset => by
    by_cases h : stringChunkSize < length
    · obtain ⟨bs, r, hbs⟩ := writeChunks_writes data offsets (length - stringChunkSize)
        (rawOffset % 2 ^ 32)
      refine ⟨[byteOf 0x52] ++ (bigEndianBytes .uint16 stringChunkSize ++
        (substr data strOffset (rawOffset - strOffset) ++ bs)), r, fun e => ?_⟩
      rw [writeChunks, if_pos h, writeByte_bind, writeBE_bind, rawWrite_bind, hbs]
      simp only [Encoder.write_write, List.append_assoc]
    · refine ⟨[], (length, strOffset), fun e => ?_⟩
      rw [writeChunks, if_neg h, Encoder.write_nil]
      rfl

theorem writeString_writes (data : Bytes) (offsets : OffsetLoop) :
    Writes (writeString data offsets) := by
  obtain ⟨bs, ⟨length, strOffset⟩, hbs⟩ :=
    writeChunks_writes data offsets.perChunkBytesOffsets offsets.utf8Length 0
  -- the forms of the last chunk
  by_cases h₀ : length = 0
  · refine ⟨bs ++ [byteOf 0x00], fun e => ?_⟩
    rw [writeString, Enc.bind_apply_ok (hbs e)]
    simp only [if_pos h₀, writeByte_bind, Enc.pure_apply, Encoder.write_write]
  set rest := substr data strOffset (data.length - strOffset) with hrest
  by_cases h₁ : length ≤ 31
  · refine ⟨bs ++ ([byteOf length] ++ rest), fun e => ?_⟩
    rw [writeString, Enc.bind_apply_ok (hbs e)]
    simp only [if_neg h₀, if_pos h₁, ← hrest, writeByte_bind, rawWrite_bind, Enc.pure_apply,
      Encoder.write_write, List.append_assoc]
  by_cases h₂ : length ≤ 1023
  · refine ⟨bs ++ ([byteOf (0x30 + length / 256)] ++ ([byteOf (length % 256)] ++ rest)),
      fun e => ?_⟩
    rw [writeString, Enc.bind_apply_ok (hbs e)]
    simp only [if_neg h₀, if_neg h₁, if_pos h₂, ← hrest, writeByte_bind, rawWrite_bind,
      Enc.pure_apply, Encoder.write_write, List.append_assoc]
  · refine ⟨bs ++ ([byteOf 0x53] ++ (bigEndianBytes .uint16 length ++ rest)), fun e => ?_⟩
    rw [writeString, Enc.bind_apply_ok (hbs e)]
    simp only [if_neg h₀, if_neg h₁, if_neg h₂, ← hrest, writeByte_bind, writeBE_bind,
      rawWrite_bind, Enc.pure_apply, Encoder.write_write, List.append_assoc]

/-- A string is written, or it is refused and nothing is written. -/
theorem encodeString_cases (P : Platform) (data : Bytes) :
    (accepts P data = true ∧ Writes (encodeString P data)) ∨
      (accepts P data = false ∧ ∀ e, encodeString P data e = .ok (false, e.refuse data)) := by
  unfold accepts encodeString
  rcases getUtf8StringLengthAndPerChunkOffsets data with _ | offsets
  · exact .inr ⟨rfl, fun e => rfl⟩
  · dsimp only
    split
    · by_cases hr : escapeFourBytesUtf8Char data offsets.fourBytesCharOffsets = []
      · rw [if_pos hr]
        exact .inr ⟨by simp [hr], fun e => rfl⟩
      · rw [if_neg hr]
        rcases getUtf8StringLengthAndPerChunkOffsets
          (escapeFourBytesUtf8Char data offsets.fourBytesCharOffsets) with _ | offsets'
        · exact .inr ⟨by simp, fun e => rfl⟩
        · exact .inl ⟨by simpa using hr, writeString_writes _ _⟩
    · exact .inl ⟨rfl, writeString_writes _ _⟩

/-- The strings that are refused. -/
def refusals (P : Platform) (ss : List Bytes) : List Bytes := ss.filter fun s => !accepts P s

theorem refusals_eq_nil {ss : List Bytes} : refusals P ss = [] ↔ ∀ s ∈ ss, accepts P s = true := by
  simp [refusals]

theorem encodeString_extends (P : Platform) (data : Bytes) : ∃ bs, ∀ e,
    encodeString P data e = .ok (accepts P data, e.extend bs (refusals P [data])) := by
  rcases encodeString_cases P data with ⟨ha, bs, hbs⟩ | ⟨ha, hr⟩
  · refine ⟨bs, fun e => ?_⟩
    rw [hbs, ha, Encoder.write_eq_extend, refusals_eq_nil.2 (by simpa using ha)]
  · refine ⟨[], fun e => ?_⟩
    rw [hr, ha, Encoder.refuse_eq_extend]
    simp [refusals, ha]

theorem encodeFieldNames_extends (P : Platform) : ∀ names : List Bytes, ∃ bs, ∀ e,
    encodeFieldNames P names e = .ok ((), e.extend bs (refusals P names))
  | [] => ⟨[], fun e => by
      rw [encodeFieldNames, refusals, List.filter_nil, ← Encoder.write_eq_extend, Encoder.write_nil]
      rfl⟩
  | name :: names => by
    obtain ⟨bs, hbs⟩ := encodeString_extends P name
    obtain ⟨bs', hbs'⟩ := encodeFieldNames_extends P names
    refine ⟨bs ++ bs', fun e => ?_⟩
    rw [encodeFieldNames, Enc.bind_apply_ok (hbs e), hbs', Encoder.extend_extend, refusals,
      refusals, refusals, ← List.filter_append, List.singleton_append]

/-! ### Types and definitions -/

/-- A type name that has no number yet gets one, and is written or refused. -/
theorem encodeTypeRef_ok {v : Bytes} {e e' : Encoder} {b : Bool}
    (h : encodeTypeRef P v e = .ok (b, e')) : b = true ∧
      ((e.getTypeRef v ≠ -1 ∧ ∃ bs, e' = e.write bs) ∨
        (e.getTypeRef v = -1 ∧ ∃ b', encodeString P v (e.enterType v) = .ok (b', e'))) := by
  rw [encodeTypeRef, get_bind] at h
  by_cases hr : e.getTypeRef v = -1
  · rw [if_pos hr, modify_bind] at h
    obtain ⟨b', e₁, h₁, h⟩ := Enc.bind_eq_ok.1 h
    cases h
    exact ⟨rfl, .inr ⟨hr, b', h₁⟩⟩
  · obtain ⟨bs, hbs⟩ := encodeInt32_writes (e.getTypeRef v).toInt32
    rw [if_neg hr, Enc.bind_apply_ok (hbs e)] at h
    cases h
    exact ⟨rfl, .inl ⟨hr, bs, rfl⟩⟩

/-- A call for a definition that has a number. -/
theorem encodeRawDefinitionIn_of_numbered {d : RawDefinition} {e : Encoder} {r : Int16}
    (h : e.getDefRef d = .ok r) (hr : r ≠ -1) (depth : ℕ) :
    encodeRawDefinitionIn P (depth + 1) d e = encodeDefRef r e := by
  rw [encodeRawDefinitionIn, get_bind, lift_bind, h]
  exact congrFun (if_neg hr) e

/-- A call for a definition that has no number yet. -/
theorem encodeRawDefinitionIn_of_new {d : RawDefinition} {e : Encoder}
    (h : e.getDefRef d = .ok (-1)) (depth : ℕ) :
    encodeRawDefinitionIn P (depth + 1) d e =
      (do writeByte 0x43
          modify fun e : Encoder => e.enterDef d
          let _ ← encodeString P d.type
          let _ ← encodeInt32 (.ofNat d.fieldNames.length)
          encodeFieldNames P d.fieldNames
          let _ ← encodeRawDefinitionIn P depth d
          pure true) e := by
  rw [encodeRawDefinitionIn, get_bind, lift_bind, h]
  rfl

/-- A definition that has a number is written as this number. -/
theorem encodeRawDefinition_of_numbered {d : RawDefinition} {e : Encoder} {r : Int16}
    (h : e.getDefRef d = .ok r) (hr : r ≠ -1) : encodeRawDefinition P d e = encodeDefRef r e :=
  encodeRawDefinitionIn_of_numbered h hr 1

/-- A definition without a number gets one; its names are written or refused, and then the number
is written. -/
theorem encodeRawDefinition_ok {d : RawDefinition} {e e' : Encoder} {b : Bool}
    (h : encodeRawDefinition P d e = .ok (b, e')) : b = true ∧
      ((∃ r, e.getDefRef d = .ok r ∧ r ≠ -1 ∧ encodeDefRef r e = .ok (true, e')) ∨
        (e.getDefRef d = .ok (-1) ∧ ∃ b' e₁ e₂ e₃ r,
          encodeString P d.type ((e.write [0x43]).enterDef d) = .ok (b', e₁) ∧
          encodeInt32 (.ofNat d.fieldNames.length) e₁ = .ok (true, e₂) ∧
          encodeFieldNames P d.fieldNames e₂ = .ok ((), e₃) ∧
          e₃.getDefRef d = .ok r ∧ r ≠ -1 ∧ encodeDefRef r e₃ = .ok (true, e'))) := by
  have htrue {r : Int16} {e e' : Encoder} {b : Bool} (h : encodeDefRef r e = .ok (b, e')) :
      b = true ∧ encodeDefRef r e = .ok (true, e') := by
    obtain ⟨bs, hbs⟩ := encodeDefRef_writes r
    rw [hbs] at h ⊢
    cases h
    exact ⟨rfl, rfl⟩
  rw [encodeRawDefinition] at h
  rcases hd : e.getDefRef d with stop | r
  · rw [encodeRawDefinitionIn, get_bind, lift_bind, hd] at h
    cases h
  by_cases hr : r = -1
  · subst hr
    rw [encodeRawDefinitionIn_of_new hd, writeByte_bind, modify_bind] at h
    obtain ⟨b', e₁, h₁, h⟩ := Enc.bind_eq_ok.1 h
    obtain ⟨b₂, e₂, h₂, h⟩ := Enc.bind_eq_ok.1 h
    obtain ⟨⟨⟩, e₃, h₃, h⟩ := Enc.bind_eq_ok.1 h
    obtain ⟨b₄, e₄, h₄, h⟩ := Enc.bind_eq_ok.1 h
    cases h
    obtain ⟨bs, hbs⟩ := encodeInt32_writes (.ofNat d.fieldNames.length)
    -- the second call finds a number, or it calls itself once too often
    rcases hd₃ : e₃.getDefRef d with stop | r
    · rw [encodeRawDefinitionIn, get_bind, lift_bind, hd₃] at h₄
      cases h₄
    by_cases hr : r = -1
    · subst hr
      rw [encodeRawDefinitionIn_of_new hd₃, writeByte_bind, modify_bind] at h₄
      obtain ⟨_, _, -, h₄⟩ := Enc.bind_eq_ok.1 h₄
      obtain ⟨_, _, -, h₄⟩ := Enc.bind_eq_ok.1 h₄
      obtain ⟨_, _, -, h₄⟩ := Enc.bind_eq_ok.1 h₄
      obtain ⟨_, _, h₄, -⟩ := Enc.bind_eq_ok.1 h₄
      cases h₄
    · rw [encodeRawDefinitionIn_of_numbered hd₃ hr] at h₄
      have h₂' := hbs e₁
      rw [h₂] at h₂'
      cases h₂'
      exact ⟨rfl, .inr ⟨rfl, b', e₁, _, e₃, r, h₁, h₂, h₃, hd₃, hr, (htrue h₄).2⟩⟩
  · rw [encodeRawDefinitionIn_of_numbered hd hr] at h
    obtain ⟨rfl, h⟩ := htrue h
    exact ⟨rfl, .inl ⟨r, rfl, hr, h⟩⟩

/-- The definition has no number that a 16-bit loop counter can find and that is not taken for -1,
and there are too many for it to ever get one. -/
def Encoder.Overflown (e : Encoder) (d : RawDefinition) : Prop :=
  d ∉ e.defRef.take 65535 ∧ 65536 ≤ e.defRef.length

theorem Encoder.Overflown.getDefRef {e : Encoder} {d : RawDefinition} (h : e.Overflown d) :
    e.getDefRef d = .error .diverges ∨ e.getDefRef d = .ok (-1) := by
  obtain ⟨hd, hlen⟩ := h
  unfold Encoder.getDefRef
  cases hi : (e.defRef.take (2 ^ 16)).idxOf? d with
  | none => exact .inl (if_pos hlen)
  | some i =>
    right
    obtain ⟨hlt, hi, -⟩ := List.findIdx?_eq_some_iff_getElem.1 hi
    rw [List.length_take] at hlt
    -- the only place left for it is the last one
    have hlast : i = 65535 := by
      by_contra hne
      refine hd (List.mem_iff_getElem.2 ⟨i, by rw [List.length_take]; omega, ?_⟩)
      simpa using hi
    subst hlast
    rfl

/-- Where a definition that is in the table is not found, the table has overflown. -/
theorem Encoder.overflown_of_getDefRef {e : Encoder} {d : RawDefinition} (hd : d ∈ e.defRef)
    (h : e.getDefRef d = .ok (-1)) : e.Overflown d := by
  unfold Encoder.getDefRef at h
  cases hi : (e.defRef.take (2 ^ 16)).idxOf? d with
  | none =>
    rw [hi] at h
    dsimp only at h
    split at h
    · cases h
    · next hlen =>
      rw [List.take_of_length_le (by omega), List.idxOf?_eq_none_iff] at hi
      exact absurd hd hi
  | some i =>
    obtain ⟨hlt, hi', hfirst⟩ := List.findIdx?_eq_some_iff_getElem.1 hi
    rw [hi] at h
    rw [List.length_take] at hlt
    have h16 : (UInt16.ofNat i).toInt16 = -1 := Except.ok.inj h
    have hnat := congrArg (fun x : Int16 => x.toUInt16.toNat) h16
    have hneg : (-1 : Int16).toUInt16.toNat = 65535 := by decide
    have hmod : (UInt16.ofNat i).toInt16.toUInt16.toNat = i % 65536 := by simp
    -- no other position is read as -1
    have hlast : i = 65535 := by omega
    refine ⟨fun hmem => ?_, by omega⟩
    obtain ⟨j, hj, hjd⟩ := List.mem_iff_getElem.1 hmem
    rw [List.length_take] at hj
    refine hfirst j (by omega) ?_
    rw [List.getElem_take] at hjd ⊢
    simpa using hjd

theorem encodeRawDefinitionIn_of_error {d : RawDefinition} {e : Encoder} {stop : Stop}
    (h : e.getDefRef d = .error stop) (depth : ℕ) :
    encodeRawDefinitionIn P (depth + 1) d e = .error stop := by
  rw [encodeRawDefinitionIn, get_bind, lift_bind, h]
  rfl

/-- A call for a new definition, up to its call of itself. -/
theorem encodeRawDefinitionIn_extends {d : RawDefinition} {e : Encoder}
    (h : e.getDefRef d = .ok (-1)) : ∃ bs ss, ∀ depth,
      encodeRawDefinitionIn P (depth + 1) d e =
        (encodeRawDefinitionIn P depth d >>= fun _ => pure true) ((e.enterDef d).extend bs ss) := by
  obtain ⟨bs₁, hbs₁⟩ := encodeString_extends P d.type
  obtain ⟨bs₂, hbs₂⟩ := encodeInt32_writes (.ofNat d.fieldNames.length)
  obtain ⟨bs₃, hbs₃⟩ := encodeFieldNames_extends P d.fieldNames
  refine ⟨[0x43] ++ bs₁ ++ bs₂ ++ bs₃, refusals P [d.type] ++ refusals P d.fieldNames,
    fun depth => ?_⟩
  rw [encodeRawDefinitionIn_of_new h, writeByte_bind, modify_bind, Enc.bind_apply_ok (hbs₁ _),
    Enc.bind_apply_ok (hbs₂ _), Enc.bind_apply_ok (hbs₃ _)]
  simp only [Encoder.write, Encoder.enterDef, Encoder.extend, List.append_assoc]
  rfl

/-- Behind an overflow the calls of `encode<RawDefinition>` go on for ever. -/
theorem encodeRawDefinitionIn_of_overflown {d : RawDefinition} : ∀ (depth : ℕ) {e : Encoder},
    e.Overflown d → encodeRawDefinitionIn P depth d e = .error .diverges
  | 0, e, _ => rfl
  | depth + 1, e, h => by
    rcases h.getDefRef with hd | hd
    · exact encodeRawDefinitionIn_of_error hd depth
    · obtain ⟨bs, ss, hnext⟩ := encodeRawDefinitionIn_extends (P := P) hd
      have hstill : ((e.enterDef d).extend bs ss).Overflown d := by
        refine ⟨?_, Nat.le_trans h.2 (by simp)⟩
        rw [Encoder.extend_defRef, Encoder.enterDef_defRef,
          List.take_append_of_le_length (Nat.le_trans (by decide) h.2)]
        exact h.1
      have hrest := encodeRawDefinitionIn_of_overflown depth hstill
      rw [hnext]
      simp only [bind, StateT.bind, hrest, Except.bind]

/-- A second call never needs a third. -/
theorem encodeRawDefinitionIn_of_mem {d : RawDefinition} {e : Encoder} (hd : d ∈ e.defRef)
    (depth : ℕ) : encodeRawDefinitionIn P (depth + 1) d e = encodeRawDefinitionIn P 1 d e := by
  rcases hr : e.getDefRef d with stop | r
  · rw [encodeRawDefinitionIn_of_error hr, encodeRawDefinitionIn_of_error hr 0]
  by_cases hne : r = -1
  · have hover := Encoder.overflown_of_getDefRef hd (hne ▸ hr)
    rw [encodeRawDefinitionIn_of_overflown _ hover, encodeRawDefinitionIn_of_overflown _ hover]
  · rw [encodeRawDefinitionIn_of_numbered hr hne, encodeRawDefinitionIn_of_numbered hr hne 0]

/-- **Two calls of `encode<RawDefinition>` are enough**: any more do the same or never end. -/
theorem encodeRawDefinitionIn_eq (depth : ℕ) (d : RawDefinition) (e : Encoder) :
    encodeRawDefinitionIn P (depth + 2) d e = encodeRawDefinition P d e := by
  rw [encodeRawDefinition]
  rcases hr : e.getDefRef d with stop | r
  · rw [encodeRawDefinitionIn_of_error hr, encodeRawDefinitionIn_of_error hr 1]
  by_cases hne : r = -1
  · obtain ⟨bs, ss, hnext⟩ := encodeRawDefinitionIn_extends (P := P) (hne ▸ hr)
    have hrest := encodeRawDefinitionIn_of_mem (P := P) (d := d)
      (e := (e.enterDef d).extend bs ss) (by simp) depth
    rw [hnext, hnext]
    simp only [bind, StateT.bind, hrest]
  · rw [encodeRawDefinitionIn_of_numbered hr hne, encodeRawDefinitionIn_of_numbered hr hne 1]

/-- What is left of `encodeTypeRef_ok` when the bytes do not matter. -/
theorem encodeTypeRef_extends {v : Bytes} {e e' : Encoder} {b : Bool}
    (h : encodeTypeRef P v e = .ok (b, e')) :
    (e.getTypeRef v ≠ -1 ∧ ∃ bs, e' = e.write bs) ∨
      (e.getTypeRef v = -1 ∧ ∃ bs, e' = (e.enterType v).extend bs (refusals P [v])) := by
  obtain ⟨-, h | ⟨hr, b', h⟩⟩ := encodeTypeRef_ok h
  · exact .inl h
  · obtain ⟨bs, hbs⟩ := encodeString_extends P v
    rw [hbs] at h
    cases h
    exact .inr ⟨hr, bs, rfl⟩

/-- What is left of `encodeRawDefinition_ok` when the bytes do not matter. -/
theorem encodeRawDefinition_extends {d : RawDefinition} {e e' : Encoder} {b : Bool}
    (h : encodeRawDefinition P d e = .ok (b, e')) :
    (∃ r bs, e.getDefRef d = .ok r ∧ r ≠ -1 ∧ e' = e.write bs) ∨
      (e.getDefRef d = .ok (-1) ∧
        ∃ bs, e' = (e.enterDef d).extend bs (refusals P (d.type :: d.fieldNames))) := by
  obtain ⟨-, ⟨r, hd, hr, h⟩ | ⟨hd, b', e₁, e₂, e₃, r, h₁, h₂, h₃, -, -, h₄⟩⟩ :=
    encodeRawDefinition_ok h
  · obtain ⟨bs, hbs⟩ := encodeDefRef_writes r
    rw [hbs] at h
    cases h
    exact .inl ⟨r, bs, hd, hr, rfl⟩
  · obtain ⟨bs₁, hbs₁⟩ := encodeString_extends P d.type
    obtain ⟨bs₂, hbs₂⟩ := encodeInt32_writes (.ofNat d.fieldNames.length)
    obtain ⟨bs₃, hbs₃⟩ := encodeFieldNames_extends P d.fieldNames
    obtain ⟨bs₄, hbs₄⟩ := encodeDefRef_writes r
    rw [hbs₁] at h₁
    cases h₁
    rw [hbs₂] at h₂
    cases h₂
    rw [hbs₃] at h₃
    cases h₃
    rw [hbs₄] at h₄
    cases h₄
    refine .inr ⟨hd, [0x43] ++ bs₁ ++ bs₂ ++ bs₃ ++ bs₄, ?_⟩
    simp [Encoder.extend, Encoder.write, Encoder.enterDef, refusals, ← List.filter_append]

/-! ### Relations that every function keeps -/

namespace Enc

/-- Whenever the function returns, the state before and the state after are related. -/
def Keeps (R : Encoder → Encoder → Prop) (m : Enc α) : Prop :=
  ∀ ⦃e a e'⦄, m e = .ok (a, e') → R e e'

theorem Keeps.modify {R : Encoder → Encoder → Prop} {g : Encoder → Encoder} (hg : ∀ e, R e (g e)) :
    Keeps R (modify g : Enc Unit) := by
  intro e a e' hm
  cases hm
  exact hg e

/-- A relation that is kept by everything `encode<Object>` consists of. -/
structure Closed (P : Platform) (R : Encoder → Encoder → Prop) : Prop where
  refl : ∀ e, R e e
  trans : ∀ {e₁ e₂ e₃}, R e₁ e₂ → R e₂ e₃ → R e₁ e₃
  extend : ∀ e bs ss, R e (e.extend bs ss)
  typeRef : ∀ v, Keeps R (encodeTypeRef P v)
  definition : ∀ d, Keeps R (encodeRawDefinition P d)
  value : ∀ e i, R e (e.enterValue i)
  target : ∀ e i, R e (e.missNumber i)

namespace Closed

variable {R : Encoder → Encoder → Prop} (h : Closed P R)
include h

theorem pure (a : α) : Keeps R (pure a : Enc α) := by
  intro e b e' hm
  cases hm
  exact h.refl e

theorem bind {m : Enc α} {f : α → Enc β} (hm : Keeps R m) (hf : ∀ a, Keeps R (f a)) :
    Keeps R (m >>= f) := by
  intro e b e'' hr
  obtain ⟨a, e', h₁, h₂⟩ := Enc.bind_eq_ok.1 hr
  exact h.trans (hm h₁) (hf a h₂)

theorem write (e : Encoder) (bs : Bytes) : R e (e.write bs) :=
  e.write_eq_extend bs ▸ h.extend e bs []

theorem rawWrite (bs : Bytes) : Keeps R (rawWrite bs) := .modify fun e => h.write e bs

theorem writes {m : Enc Bool} (hm : Writes m) : Keeps R m := by
  obtain ⟨bs, hbs⟩ := hm
  intro e b e' hr
  rw [hbs] at hr
  cases hr
  exact h.write e bs

theorem string (s : Bytes) : Keeps R (encodeString P s) := by
  obtain ⟨bs, hbs⟩ := encodeString_extends P s
  intro e b e' hr
  rw [hbs] at hr
  cases hr
  exact h.extend e bs _

end Closed

end Enc

section Closed

variable {R : Encoder → Encoder → Prop} (h : Closed P R)
include h

theorem encodeInt32_keeps (z : Int32) : Keeps R (encodeInt32 z) := h.writes (encodeInt32_writes z)

theorem abslAssert_keeps (c : Bool) : Keeps R (Enc.abslAssert P c) := by
  unfold Enc.abslAssert
  split
  · exact h.pure ()
  · intro e a e' hm
    cases hm

theorem encodeRef_keeps (target : ObjId) : Keeps R (encodeRef P target) := by
  intro e b e' hr
  rw [encodeRef, get_bind] at hr
  refine h.bind (abslAssert_keeps h _) (fun _ => h.bind (.modify fun e => ?_) fun _ =>
    h.bind (h.rawWrite _) fun _ => h.bind (encodeInt32_keeps h _) fun _ => h.pure true) hr
  split
  · exact h.target e target
  · exact h.refl e

theorem encodeValues_keeps {vs : List Object} (hvs : ∀ v ∈ vs, Keeps R (encodeObject P v)) :
    Keeps R (encodeValues P vs) := by
  induction vs with
  | nil => exact h.pure ()
  | cons v vs ih =>
    rw [List.forall_mem_cons] at hvs
    exact h.bind hvs.1 fun _ => ih hvs.2

theorem encodeEntries_keeps {es : List (Object × Object)}
    (hes : ∀ e ∈ es, Keeps R (encodeObject P e.1) ∧ Keeps R (encodeObject P e.2)) :
    Keeps R (encodeEntries P es) := by
  induction es with
  | nil => exact h.pure ()
  | cons e es ih =>
    rw [List.forall_mem_cons] at hes
    exact h.bind hes.1.1 fun _ => h.bind hes.1.2 fun _ => ih hes.2

theorem encodeLength_keeps (n : ℕ) : Keeps R (encodeLength n) := by
  unfold encodeLength
  split
  · exact h.bind (encodeInt32_keeps h _) fun _ => h.pure ()
  · exact h.pure ()

/-- **What every function keeps, `encode<Object>` keeps.** -/
theorem encodeObject_keeps (o : Object) : Keeps R (encodeObject P o) := by
  have value (i : ObjId) : Keeps R (enterValue i) := .modify fun e => h.value e i
  induction o using Object.induct with
  | null => exact h.writes (null_carries (P := P)).writes
  | boolean b => exact h.writes (bool_carries (P := P) b).writes
  | integer i => exact encodeInt32_keeps h i
  | long i => exact h.writes (int64_carries (P := P) i).writes
  | double d => exact h.writes (double_carries (P := P) d).writes
  | date t => exact h.writes (date_carries (P := P) t).writes
  | string s => exact h.string s
  | binary b => exact h.writes (encodeBytes_writes b)
  | ref i => exact encodeRef_keeps h i
  | list i t vs ih =>
    have hvs := encodeValues_keeps h ih
    cases t with
    | none =>
      refine h.bind (value i) fun _ => h.bind (h.rawWrite _) fun _ => ?_
      exact h.bind (encodeLength_keeps h _) fun _ => h.bind hvs fun _ => h.pure true
    | some t =>
      refine h.bind (value i) fun _ => h.bind (h.rawWrite _) fun _ => ?_
      refine h.bind (h.typeRef t) fun _ => ?_
      exact h.bind (encodeLength_keeps h _) fun _ => h.bind hvs fun _ => h.pure true
  | map i t es ih =>
    have hes := encodeEntries_keeps h ih
    cases t with
    | none =>
      refine h.bind (value i) fun _ => h.bind (h.rawWrite _) fun _ => ?_
      exact h.bind hes fun _ => h.bind (h.rawWrite _) fun _ => h.pure true
    | some t =>
      refine h.bind (value i) fun _ => h.bind (h.rawWrite _) fun _ => ?_
      refine h.bind (h.typeRef t) fun _ => ?_
      exact h.bind hes fun _ => h.bind (h.rawWrite _) fun _ => h.pure true
  | classInstance i d vs ih =>
    have hvs := encodeValues_keeps h ih
    exact h.bind (value i) fun _ => h.bind (h.definition d) fun _ => h.bind hvs fun _ => h.pure true

end Closed

/-! ### Growth -/

namespace Encoder

/-- The output and the tables only grow, and where nothing more was refused, what is new in the
tables is made of accepted strings. -/
structure Grows (P : Platform) (e e' : Encoder) : Prop where
  output : e.output <+: e'.output
  typesRef : e.typesRef.keys <+: e'.typesRef.keys
  defRef : e.defRef <+: e'.defRef
  valuesRef : e.valuesRef.keys <+: e'.valuesRef.keys
  refused : e.refused <+: e'.refused
  unnumbered : e.unnumbered <+: e'.unnumbered
  newType : e'.refused = e.refused →
    ∀ t ∈ e'.typesRef.keys, t ∉ e.typesRef.keys → accepts P t = true
  newDef : e'.refused = e.refused →
    ∀ d ∈ e'.defRef, d ∉ e.defRef → ∀ s ∈ d.type :: d.fieldNames, accepts P s = true

variable {e e₁ e₂ e' : Encoder}

/-- Growth that leaves the tables of names as they are. -/
theorem Grows.of_names (output : e.output <+: e'.output) (typesRef : e'.typesRef = e.typesRef)
    (defRef : e'.defRef = e.defRef) (valuesRef : e.valuesRef.keys <+: e'.valuesRef.keys)
    (refused : e.refused <+: e'.refused) (unnumbered : e.unnumbered <+: e'.unnumbered) :
    Grows P e e' where
  output := output
  typesRef := typesRef ▸ List.prefix_rfl
  defRef := defRef ▸ List.prefix_rfl
  valuesRef := valuesRef
  refused := refused
  unnumbered := unnumbered
  newType _ _ h hn := absurd (typesRef ▸ h) hn
  newDef _ _ h hn := absurd (defRef ▸ h) hn

theorem Grows.refl (e : Encoder) : Grows P e e :=
  .of_names List.prefix_rfl rfl rfl List.prefix_rfl List.prefix_rfl List.prefix_rfl

/-- Where nothing was refused on the whole way, nothing was refused on either part of it. -/
theorem Grows.refused_eq (h₁ : Grows P e e₁) (h₂ : Grows P e₁ e₂) :
    e₂.refused = e.refused ↔ e₁.refused = e.refused ∧ e₂.refused = e₁.refused := by
  constructor
  · intro h
    have h₁' : e₁.refused = e.refused :=
      (h ▸ h₂.refused).eq_of_length_le h₁.refused.length_le
    exact ⟨h₁', h.trans h₁'.symm⟩
  · rintro ⟨h, h'⟩
    exact h'.trans h

theorem Grows.trans (h₁ : Grows P e e₁) (h₂ : Grows P e₁ e₂) : Grows P e e₂ where
  output := h₁.output.trans h₂.output
  typesRef := h₁.typesRef.trans h₂.typesRef
  defRef := h₁.defRef.trans h₂.defRef
  valuesRef := h₁.valuesRef.trans h₂.valuesRef
  refused := h₁.refused.trans h₂.refused
  unnumbered := h₁.unnumbered.trans h₂.unnumbered
  newType h t ht hn := by
    obtain ⟨r₁, r₂⟩ := (h₁.refused_eq h₂).1 h
    by_cases ht₁ : t ∈ e₁.typesRef.keys
    · exact h₁.newType r₁ t ht₁ hn
    · exact h₂.newType r₂ t ht ht₁
  newDef h d hd hn := by
    obtain ⟨r₁, r₂⟩ := (h₁.refused_eq h₂).1 h
    by_cases hd₁ : d ∈ e₁.defRef
    · exact h₁.newDef r₁ d hd₁ hn
    · exact h₂.newDef r₂ d hd hd₁

theorem Grows.extend (e : Encoder) (bs : Bytes) (ss : List Bytes) : Grows P e (e.extend bs ss) :=
  .of_names (List.prefix_append _ _) rfl rfl List.prefix_rfl (List.prefix_append _ _)
    List.prefix_rfl

theorem Grows.write (e : Encoder) (bs : Bytes) : Grows P e (e.write bs) :=
  e.write_eq_extend bs ▸ .extend e bs []

theorem Grows.enterType (e : Encoder) (v : Bytes) (bs : Bytes) :
    Grows P e ((e.enterType v).extend bs (refusals P [v])) where
  output := List.prefix_append _ _
  typesRef := e.typesRef.prefix_enter v
  defRef := List.prefix_rfl
  valuesRef := List.prefix_rfl
  refused := List.prefix_append _ _
  unnumbered := List.prefix_rfl
  newType h t ht hn := by
    rw [extend_refused, enterType_refused, List.append_right_eq_self, refusals_eq_nil] at h
    rw [extend_typesRef, enterType_typesRef, KeyTable.mem_keys_enter] at ht
    exact h t (by simpa using ht.resolve_left hn)
  newDef _ d hd hn := absurd hd hn

theorem Grows.enterDef (e : Encoder) (d : RawDefinition) (bs : Bytes) :
    Grows P e ((e.enterDef d).extend bs (refusals P (d.type :: d.fieldNames))) where
  output := List.prefix_append _ _
  typesRef := List.prefix_rfl
  defRef := List.prefix_append _ _
  valuesRef := List.prefix_rfl
  refused := List.prefix_append _ _
  unnumbered := List.prefix_rfl
  newType _ t ht hn := absurd ht hn
  newDef h d' hd hn := by
    rw [extend_refused, enterDef_refused, List.append_right_eq_self, refusals_eq_nil] at h
    rw [extend_defRef, enterDef_defRef, List.mem_append, List.mem_singleton] at hd
    obtain rfl := hd.resolve_left hn
    exact h

/-- **Every function of an encoder lets its state grow.** -/
theorem grows_closed : Closed P (Grows P) where
  refl := .refl
  trans := .trans
  extend := .extend
  typeRef v e b e' h := by
    obtain ⟨-, bs, rfl⟩ | ⟨-, bs, rfl⟩ := encodeTypeRef_extends h
    · exact .write e bs
    · exact .enterType e v bs
  definition d e b e' h := by
    obtain ⟨-, bs, -, -, rfl⟩ | ⟨-, bs, rfl⟩ := encodeRawDefinition_extends h
    · exact .write e bs
    · exact .enterDef e d bs
  value e i := .of_names List.prefix_rfl rfl rfl (e.valuesRef.prefix_enter i) List.prefix_rfl
    List.prefix_rfl
  target e i := .of_names List.prefix_rfl rfl rfl List.prefix_rfl List.prefix_rfl
    (List.prefix_append _ _)

end Encoder

end Hessian2
