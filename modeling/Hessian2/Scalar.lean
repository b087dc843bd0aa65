import Hessian2.Number

/-!
# Scalars

The codecs of values that are no numbers, strings or containers: `bool_codec.cc`, `date_codec.cc`,
`byte_codec.cc` and the `NullObject` part of `object_codec.cc`.

* `decodeNull`, `decodeBool`, `readDate`, `decodeBytes` : reading.
* `encodeNull`, `encodeBool`, `encodeMilliseconds`, `encodeBytes` and the other durations : writing.
* `null_carries`, `bool_carries`, `bytes_carries` : what is written is read back.
-/

namespace Hessian2

open Parsing Parsing.Parser Reader Enc

section Codec

variable (P : Platform)

/-! ### `NullObject` and `bool` -/

/-- `decode<NullObject>`. -/
def decodeNull : Dec Unit := do
  let ret ← readByte P
  if ret.1 then Dec.abslAssert P (ret.2 == 0x4e) else fail

/-- `encode<NullObject>`. -/
def encodeNull : Enc Bool := do
  writeByte 0x4e
  pure true

/-- `decode<bool>`. -/
def decodeBool : Dec Bool := do
  let ret ← readByte P
  if ret.2 = 0x46 then pure false
  else if ret.2 = 0x54 then pure true
  else
    -- an empty input ends here as well, since its `code` is 0
    let errorPos ← offset
    modifyAux fun t => { t with errorPos := .ofNat errorPos, errorCode := .unexpectedType }
    fail

/-- `encode<bool>`. -/
def encodeBool (value : Bool) : Enc Bool := do
  if value then writeByte 0x54 else writeByte 0x46
  pure true

/-! ### Dates -/

/-- The duration types of `std::chrono` with a codec. -/
inductive DurationType where
  | milliseconds
  | seconds
  | minutes
  | hours
deriving DecidableEq

/-- The length of a tick in milliseconds. -/
def DurationType.tick : DurationType → ℕ
  | .milliseconds => 1
  | .seconds => 1000
  | .minutes => 60000
  | .hours => 3600000

/-- `std::chrono::duration_cast<U>` of `count` ticks of `T`, with 64-bit counts. -/
def durationCast (T U : DurationType) (count : ℤ) : ℤ :=
  if U.tick ∣ T.tick then IntegralType.int64.cast (count * (T.tick / U.tick : ℕ))
  else count.tdiv (U.tick / T.tick : ℕ)

/-- `readDate<T>` behind its lead byte. -/
def readDateBy (T : DurationType) (code : UInt8) : Dec Int64 :=
  if code = 0x4b then do
    let available ← byteAvailable
    if available < 4 then fail else
      let ret ← readBE P .int32
      pure (.ofInt (durationCast .minutes T ret.2))
  else if code = 0x4a then do
    let available ← byteAvailable
    if available < 8 then fail else
      let ret ← readBE P .int64
      pure (.ofInt (durationCast .milliseconds T ret.2))
  else fail

/-- `readDate<T>`, which is `decode<T>` for every duration type. -/
def readDate (T : DurationType) : Dec Int64 := do
  let ret ← readByte P
  readDateBy P T ret.2

/-- `writeDate<T>`. -/
def writeDate (T : DurationType) (value : Int64) : Enc Unit := do
  let valueInMin := durationCast T .minutes value.toInt
  let valueInMs := durationCast T .milliseconds value.toInt
  -- whole minutes are sent in 32 bits, however many they are
  if IntegralType.int64.cast (valueInMin * 60000) = valueInMs then
    writeByte 0x4b
    writeBE .int32 valueInMin
  else
    writeByte 0x4a
    writeBE .int64 valueInMs

/-- `encode<std::chrono::minutes>`. -/
def encodeMinutes (value : Int64) : Enc Bool := do
  writeByte 0x4b
  writeBE .int32 value.toInt
  pure true

/-- `encode<std::chrono::milliseconds>`. -/
def encodeMilliseconds (value : Int64) : Enc Bool :=
  let valueMin := durationCast .milliseconds .minutes value.toInt
  if IntegralType.int64.cast (valueMin * 60000) = value.toInt then encodeMinutes (.ofInt valueMin)
  else do
    writeByte 0x4a
    writeBE .int64 value.toInt
    pure true

/-- `encode<std::chrono::seconds>`. -/
def encodeSeconds (value : Int64) : Enc Bool := do
  writeDate .seconds value
  pure true

/-- `encode<std::chrono::hours>`. -/
def encodeHours (value : Int64) : Enc Bool := do
  writeDate .hours value
  pure true

/-! ### Binary data -/

/-- `CHUNK_SIZE`. -/
def chunkSize : ℕ := 1024

/-- `readBytes`; `.inl` is the call of `decodeBytesWithReader` behind a non-final chunk. -/
def readBytes (output : Bytes) (length : ℕ) (isLastChunk : Bool) : Dec (Bytes ⊕ Bytes) :=
  -- an empty chunk ends the data even if others are announced behind it
  if length = 0 then pure (.inr output)
  else do
    let available ← byteAvailable
    if available < length then fail else
      let data ← readNBytes P length
      pure (if isLastChunk then .inr (output ++ data) else .inl (output ++ data))

/-- `decodeBytesWithReader` behind the lead byte, up to its recursive call. -/
def decodeBytesBy (output : Bytes) (code : UInt8) : Dec (Bytes ⊕ Bytes) :=
  if 0x20 ≤ code ∧ code ≤ 0x2f then readBytes P output (code.toNat - 0x20) true
  else if 0x34 ≤ code ∧ code ≤ 0x37 then do
    let res ← readByte P
    if res.1 then readBytes P output ((code.toNat - 0x34) * 256 + res.2.toNat) true else fail
  else if code = 0x42 then do
    let res ← readBE P .uint16
    if res.1 then readBytes P output res.2.toNat true else fail
  else if code = 0x41 then do
    let res ← readBE P .uint16
    if res.1 then readBytes P output res.2.toNat false else fail
  else fail

/-- `decodeBytesWithReader` up to its recursive call. -/
def decodeBytesStep (output : Bytes) : Dec (Bytes ⊕ Bytes) := do
  let ret ← readByte P
  decodeBytesBy P output ret.2

/-- `decode<std::vector<uint8_t>>`, which is `decodeBytesWithReader` from an empty vector on. -/
def decodeBytes : Dec Bytes := iter (decodeBytesStep P) []

/-- The chunks of `encode<std::vector<uint8_t>>` with `size` bytes left from `offset` on.  The
position `offset` is a `uint32_t`. -/
def writeBinaryChunks (data : Bytes) (size offset : ℕ) : Enc Unit :=
  if chunkSize < size then do
    writeByte 0x41
    writeBE .uint16 chunkSize
    rawWrite ((data.drop offset).take chunkSize)
    writeBinaryChunks data (size - chunkSize) ((offset + chunkSize) % 2 ^ 32)
  else if 0 < size then do
    writeByte 0x42
    writeBE .uint16 size
    rawWrite (data.drop offset)
  else pure ()
termination_by size
decreasing_by rw [chunkSize] at *; omega

/-- `encode<std::vector<uint8_t>>`. -/
def encodeBytes (data : Bytes) : Enc Bool := do
  let size := data.length
  if size < 16 then
    writeByte (0x20 + size)
    rawWrite data
  else if size < 1024 then
    writeByte (0x34 + size / 256)
    writeByte size
    rawWrite data
  else
    writeBinaryChunks data size 0
  pure true

end Codec

/-! ### The forms of a scalar -/

section Forms

variable {P : Platform}

/-- The `bool` that a lead byte stands for. -/
def boolForm (code : UInt8) : Dec Bool :=
  if code.toNat = 0x46 then pure false else if code.toNat = 0x54 then pure true else fail

/-- The date that a lead byte and the bytes behind it stand for. -/
def dateForm (T : DurationType) (code : UInt8) : Dec Int64 :=
  if code.toNat = 0x4b then
    take 4 >>= fun bs =>
      pure (.ofInt (durationCast .minutes T (IntegralType.int32.ofBits (bigEndian bs))))
  else if code.toNat = 0x4a then
    take 8 >>= fun bs =>
      pure (.ofInt (durationCast .milliseconds T (IntegralType.int64.ofBits (bigEndian bs))))
  else fail

/-- The data of a chunk, and then the end or another chunk. -/
def chunkData (output : Bytes) (length : ℕ) (isLastChunk : Bool) : Dec (Bytes ⊕ Bytes) :=
  if length = 0 then pure (.inr output)
  else take length >>= fun data =>
    pure (if isLastChunk then .inr (output ++ data) else .inl (output ++ data))

/-- How a chunk of binary data goes on behind its lead byte. -/
def bytesForm (output : Bytes) (code : UInt8) : Dec (Bytes ⊕ Bytes) :=
  if 0x20 ≤ code.toNat ∧ code.toNat ≤ 0x2f then chunkData output (code.toNat - 0x20) true
  else if 0x34 ≤ code.toNat ∧ code.toNat ≤ 0x37 then
    next >>= fun b => chunkData output ((code.toNat - 0x34) * 256 + b.toNat) true
  else if code.toNat = 0x42 then take 2 >>= fun bs => chunkData output (bigEndian bs) true
  else if code.toNat = 0x41 then take 2 >>= fun bs => chunkData output (bigEndian bs) false
  else fail

theorem decodeNull_eq : decodeNull P = next >>= fun b => Dec.abslAssert P (b == 0x4e) :=
  readByte_checked P fun b => Dec.abslAssert P (b == 0x4e)

theorem decodeBool_eq : decodeBool P =
    onFail (fun _ s => { s.aux with errorPos := .ofNat s.cursor.offset, errorCode := .unexpectedType })
      (next >>= boolForm) := by
  funext s
  rcases h : s.cursor.unread with _ | ⟨b, bs⟩
  · simp [decodeBool, onFail, bind_apply, readByte_of_nil P h, next_of_nil h, offset]
  · simp only [decodeBool, onFail, bind_apply, readByte_of_cons P h, next_of_cons h,
      Outcome.ok_andThen, boolForm, ← UInt8.toNat_inj, UInt8.reduceToNat]
    split_ifs <;> rfl

theorem readDateBy_eq (T : DurationType) (code : UInt8) : readDateBy P T code = dateForm T code := by
  simp only [readDateBy, dateForm, ← UInt8.toNat_inj, UInt8.reduceToNat]
  split_ifs
  · exact readBE_guarded P .int32 fun z => pure (Int64.ofInt (durationCast .minutes T z))
  · exact readBE_guarded P .int64 fun z => pure (Int64.ofInt (durationCast .milliseconds T z))
  · rfl

theorem readDate_eq (T : DurationType) : readDate P T = next >>= dateForm T := by
  rw [← funext (readDateBy_eq (P := P) T)]
  exact readByte_unchecked P (readDateBy P T) (by rw [readDateBy_eq]; rfl)

theorem readBytes_eq (output : Bytes) (length : ℕ) (isLastChunk : Bool) :
    readBytes P output length isLastChunk = chunkData output length isLastChunk := by
  unfold readBytes chunkData
  split
  · rfl
  · exact readNBytes_guarded P length _

theorem decodeBytesBy_eq (output : Bytes) (code : UInt8) :
    decodeBytesBy P output code = bytesForm output code := by
  simp only [decodeBytesBy, bytesForm, readBytes_eq, UInt8.le_iff_toNat_le, ← UInt8.toNat_inj,
    UInt8.reduceToNat]
  split_ifs
  · rfl
  · exact readByte_checked P fun b => chunkData output ((code.toNat - 0x34) * 256 + b.toNat) true
  · exact readBE_checked P .uint16 fun z => chunkData output z.toNat true
  · exact readBE_checked P .uint16 fun z => chunkData output z.toNat false
  · rfl

theorem decodeBytesStep_eq (output : Bytes) :
    decodeBytesStep P output = next >>= bytesForm output := by
  rw [← funext (decodeBytesBy_eq (P := P) output)]
  exact readByte_unchecked P (decodeBytesBy P output) (by rw [decodeBytesBy_eq]; rfl)

theorem decodeBool_leaf : Dec.Leaf (decodeBool P) := by
  intro E T N
  rw [decodeBool_eq]
  refine .onFail _ (Tame.next.bind (v := fun _ _ => 0) (fun code => ?_) fun _ _ => Nat.le_refl 1)
  unfold boolForm
  split_ifs
  · exact .pure _
  · exact .pure _
  · exact .failure _

theorem readDate_leaf (T : DurationType) : Dec.Leaf (readDate P T) := by
  refine .of_next (readDate_eq T) fun code E Q N => ?_
  unfold dateForm
  split_ifs
  · exact Dec.tame_take 4 _
  · exact Dec.tame_take 8 _
  · exact .failure _

theorem chunkData_tame (output : Bytes) (length : ℕ) (isLastChunk : Bool) (E : Fault → Prop)
    (T : Prop) (N : ℕ) :
    Tame E T N (chunkData output length isLastChunk) (chunkData output length isLastChunk)
      fun _ => 0 := .ite (fun _ => .pure _) fun _ => Dec.tame_take length _

theorem decodeBytesStep_tame (output : Bytes) (E : Fault → Prop) (T : Prop) (N : ℕ) :
    Tame E T N (decodeBytesStep P output) (decodeBytesStep P output)
      (Sum.elim (fun _ => 1) fun _ => 1) := by
  rw [decodeBytesStep_eq]
  refine Tame.next.bind (v := fun _ _ => 0) (fun code => ?_) fun code r => ?_
  · unfold bytesForm
    split_ifs
    · exact chunkData_tame _ _ _ E T _
    · exact Tame.next.bind (fun b => chunkData_tame _ _ _ E T _) fun _ _ => Nat.zero_le _
    · exact (Tame.take 2).bind (fun b => chunkData_tame _ _ _ E T _) fun _ _ => Nat.zero_le _
    · exact (Tame.take 2).bind (fun b => chunkData_tame _ _ _ E T _) fun _ _ => Nat.zero_le _
    · exact .failure _
  · cases r <;> exact Nat.le_refl 1

theorem decodeBytes_leaf : Dec.Leaf (decodeBytes P) := fun E T N =>
  .iter' (fun output => decodeBytesStep_tame output E T N) _

/-! ### Round trips -/

/-- The lead bytes of binary data. -/
def BinaryLead (b : UInt8) : Prop :=
  (0x20 ≤ b.toNat ∧ b.toNat ≤ 0x2f) ∨ (0x34 ≤ b.toNat ∧ b.toNat ≤ 0x37) ∨ b.toNat = 0x41 ∨
    b.toNat = 0x42

theorem null_carries : Carries encodeNull (decodeNull P) () fun b => b.toNat = 0x4e := by
  refine .congr ⟨0x4e, [], rfl, fun e => rfl, fun t => reads_form ?_⟩ decodeNull_eq
  exact reads_pure () t

theorem bool_carries (v : Bool) :
    Carries (encodeBool v) (decodeBool P) v fun b => b.toNat = 0x46 ∨ b.toNat = 0x54 := by
  refine .congr ?_ decodeBool_eq
  have hreads {b : UInt8} (h : boolForm b = pure v) (t : Tables) :
      Reads (next >>= boolForm) t [b] v t := reads_form (h ▸ reads_pure v t)
  cases v with
  | false => exact ⟨0x46, [], .inl rfl, fun e => rfl, fun t => (hreads rfl t).upTo.onFail.reads
      fun _ => not_false⟩
  | true => exact ⟨0x54, [], .inr rfl, fun e => rfl, fun t => (hreads rfl t).upTo.onFail.reads
      fun _ => not_false⟩

theorem chunkData_reads (data : Bytes) {isLastChunk : Bool} (h : data = [] → isLastChunk = true)
    (output : Bytes) (t : Tables) :
    Reads (chunkData output data.length isLastChunk) t data
      (if isLastChunk then .inr (output ++ data) else .inl (output ++ data)) t := by
  unfold chunkData
  split
  · next h0 =>
    obtain rfl := List.length_eq_zero_iff.1 h0
    rw [h rfl, if_pos rfl, List.append_nil]
    exact reads_pure _ t
  · exact reads_take_map _ rfl rfl t

/-- The loop of the reader, one turn of it done. -/
theorem decodeBytes_iter (output : Bytes) : iter (decodeBytesStep P) output =
    next >>= bytesForm output >>= Sum.elim (iter (decodeBytesStep P)) pure := by
  rw [Tame.iter_eq fun output => decodeBytesStep_tame (P := P) output (fun _ => True) False 0,
    decodeBytesStep_eq]

/-- A chunk that ends the data. -/
theorem finalChunk_reads {b : UInt8} {bs data output : Bytes} {t : Tables}
    (h : Reads (bytesForm output b) t (bs ++ data) (.inr (output ++ data)) t) :
    Reads (iter (decodeBytesStep P) output) t (b :: (bs ++ data)) (output ++ data) t := by
  rw [decodeBytes_iter]
  have hend := (reads_form h).bind (f := Sum.elim (iter (decodeBytesStep P)) pure)
    (reads_pure _ t)
  rwa [List.append_nil] at hend

theorem bigEndian_uint16 {n : ℕ} (h : n < 65536) : bigEndian (bigEndianBytes .uint16 n) = n := by
  have hb := ofBits_bigEndianBytes (T := .uint16) (by decide)
    (IntegralType.holds_uint16.2 ⟨Int.natCast_nonneg n, by omega⟩)
  rwa [ofBits_of_not_signed rfl, Nat.cast_inj] at hb

/-- The chunks written from `offset` on are read as the data from `offset` on. -/
theorem writeBinaryChunks_carries (data : Bytes) (hdata : data.length < 2 ^ 32) {size offset : ℕ}
    (hsize : 0 < size) (h : offset + size = data.length) :
    ∃ b bs, BinaryLead b ∧
      (∀ e, writeBinaryChunks data size offset e = .ok ((), e.write (b :: bs))) ∧
      ∀ output t, Reads (iter (decodeBytesStep P) output) t (b :: bs)
        (output ++ data.drop offset) t := by
  induction size using Nat.strong_induction_on generalizing offset with
  | _ size ih =>
  by_cases hbig : chunkSize < size
  -- a non-final chunk, and then the chunks of the induction hypothesis
  · have hlt : chunkSize = 1024 := rfl
    have hmod : (offset + chunkSize) % 2 ^ 32 = offset + chunkSize := Nat.mod_eq_of_lt (by omega)
    obtain ⟨b, bs, -, hwrite, hread⟩ := ih (size - chunkSize) (by omega) (by omega)
      (show offset + chunkSize + (size - chunkSize) = data.length by omega)
    set chunk := (data.drop offset).take chunkSize with hchunk
    have hlen : chunk.length = chunkSize := by simp [hchunk]; omega
    refine ⟨0x41, bigEndianBytes .uint16 chunkSize ++ (chunk ++ b :: bs), .inr (.inr (.inl rfl)),
      fun e => ?_, fun output t => ?_⟩
    · rw [writeBinaryChunks, if_pos hbig, writeByte_bind, writeBE_bind, rawWrite_bind, hmod, hwrite]
      simp only [Encoder.write_write, List.append_assoc]
      rfl
    · rw [decodeBytes_iter]
      have hdrop : data.drop offset = chunk ++ data.drop (offset + chunkSize) := by
        rw [hchunk, ← List.drop_drop, List.take_append_drop]
      have hform : Reads (bytesForm output 0x41) t (bigEndianBytes .uint16 chunkSize ++ chunk)
          (.inl (output ++ chunk)) t := by
        rw [bytesForm, if_neg (by decide), if_neg (by decide), if_neg (by decide), if_pos (by decide)]
        have htake := reads_take (ε := Fault) (bigEndianBytes .uint16 chunkSize) t
        rw [length_bigEndianBytes] at htake
        refine htake.bind ?_
        rw [bigEndian_uint16 (by decide), ← hlen]
        exact chunkData_reads chunk (fun h0 => by rw [h0] at hlen; cases hlen) output t
      have hloop := (reads_form hform).bind (f := Sum.elim (iter (decodeBytesStep P)) pure)
        (hread (output ++ chunk) t)
      rw [hdrop]
      simpa using hloop
  · have hle : size ≤ 1024 := by rw [chunkSize] at hbig; omega
    have hlen : (data.drop offset).length = size := by rw [List.length_drop]; omega
    refine ⟨0x42, bigEndianBytes .uint16 size ++ data.drop offset, .inr (.inr (.inr rfl)),
      fun e => ?_, fun output t => finalChunk_reads ?_⟩
    · rw [writeBinaryChunks, if_neg hbig, if_pos hsize, writeByte_bind, writeBE_bind]
      simp only [rawWrite_apply, Encoder.write_write]
      rfl
    · rw [bytesForm, if_neg (by decide), if_neg (by decide), if_pos (by decide)]
      have htake := reads_take (ε := Fault) (bigEndianBytes .uint16 size) t
      rw [length_bigEndianBytes] at htake
      refine htake.bind ?_
      rw [bigEndian_uint16 (by omega)]
      have hread := chunkData_reads (data.drop offset) (fun _ => rfl) output t
      rwa [hlen] at hread

theorem bytes_carries {data : Bytes} (hdata : data.length < 2 ^ 32) :
    Carries (encodeBytes data) (decodeBytes P) data BinaryLead := by
  have hread := fun (b : UInt8) (bs : Bytes) (t : Tables)
    (h : Reads (bytesForm [] b) t (bs ++ data) (.inr ([] ++ data)) t) =>
      finalChunk_reads (P := P) h
  by_cases h₁ : data.length < 16
  · have hb := toNat_byteOf (0x20 + data.length)
    refine ⟨byteOf (0x20 + data.length), data, .inl (by omega), fun e => ?_,
      fun t => hread _ [] t ?_⟩
    · simp only [encodeBytes, if_pos h₁, writeByte_bind, rawWrite_bind, Enc.pure_apply,
        Encoder.write_write, List.cons_append, List.nil_append]
    · rw [bytesForm, if_pos (by omega), List.nil_append]
      have hn : (byteOf (0x20 + data.length)).toNat - 0x20 = data.length := by omega
      rw [hn]
      exact chunkData_reads data (fun _ => rfl) [] t
  by_cases h₂ : data.length < 1024
  · have hb := toNat_byteOf (0x34 + data.length / 256)
    have hc := toNat_byteOf data.length
    refine ⟨byteOf (0x34 + data.length / 256), byteOf data.length :: data, .inr (.inl (by omega)),
      fun e => ?_, fun t => hread _ [byteOf data.length] t ?_⟩
    · simp only [encodeBytes, if_neg h₁, if_pos h₂, writeByte_bind, rawWrite_bind, Enc.pure_apply,
        Encoder.write_write, List.cons_append, List.nil_append]
    · rw [bytesForm, if_neg (by omega), if_pos (by omega)]
      refine reads_form ?_
      have hn : ((byteOf (0x34 + data.length / 256)).toNat - 0x34) * 256 +
          (byteOf data.length).toNat = data.length := by omega
      rw [hn]
      exact chunkData_reads data (fun _ => rfl) [] t
  · obtain ⟨b, bs, hb, hwrite, hread⟩ :=
      writeBinaryChunks_carries (P := P) data hdata (by omega) (Nat.zero_add data.length)
    refine ⟨b, bs, hb, fun e => ?_, fun t => hread [] t⟩
    simp only [encodeBytes, if_neg h₁, if_neg h₂]
    rw [Enc.bind_apply_ok (hwrite e), Enc.pure_apply]

end Forms

end Hessian2
