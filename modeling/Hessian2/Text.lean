import Hessian2.Codec
import Hessian2.Words

/-!
# Strings

`string_codec.cc`: the codec of `std::string` and `absl::string_view`.  Lengths on the wire count
characters, and a character is as long as its first byte says.

* `utf8CharLength` : the table `UTF_8_CHAR_LENGTHS`.
* `finalReadUtf8String`, `decodeStringWithReader`, `decodeString` : reading.
* `getUtf8StringLengthAndPerChunkOffsets`, `encodeString` : writing.
* `unescapeFourBytesUtf8Char`, `escapeFourBytesUtf8Char` : the rewriting of supplementary
  characters in builds that are compatible with the Java library.
-/

namespace Hessian2

open Parsing Parsing.Parser Reader Enc

/-- `STRING_CHUNK_SIZE`. -/
def stringChunkSize : ℕ := 32768

/-- `UTF_8_CHAR_LENGTHS`, indexed by the first five bits of the first byte of a character. -/
def utf8CharLengths : List ℕ :=
  [1, 1, 1, 1, 1, 1, 1, 1, 1, 1, 1, 1, 1, 1, 1, 1, 0, 0, 0, 0, 0, 0, 0, 0, 2, 2, 2, 2, 3, 3, 4, 0]

/-- The length of the character that starts with `code`, or 0. -/
def utf8CharLength (code : UInt8) : ℕ := utf8CharLengths.getD (code.toNat / 8) 0

/-! ### Reading -/

/-- `getUtf8StringLength`: the number of characters that begin in the bytes, their total length,
which may exceed that of the bytes, and whether one of them begins with `0xED`. -/
def getUtf8StringLength (input : Bytes) : Option (ℕ × ℕ × Bool) :=
  (Words.scan utf8CharLength 0 input).map fun r =>
    (r.1.length, input.length + r.2, decide (0xED ∈ r.1))

section Decode

variable (P : Platform)

/-- What `finalReadUtf8String` keeps while it loops. -/
structure StringLoop where
  output : Bytes
  hasSurrogate : Bool
  /-- The characters that are still to be read. -/
  length : ℕ

/-- One turn of the loop in `finalReadUtf8String`. -/
def finalReadStep (s : StringLoop) : Dec (StringLoop ⊕ (Bytes × Bool)) :=
  if 0 < s.length then do
    let available ← byteAvailable
    if available < s.length then fail else
      let data ← readNBytes P s.length
      match getUtf8StringLength data with
      | none => fail
      | some (utf8Length, rawBytesLength, surrogate) =>
        let hasSurrogate := s.hasSurrogate || surrogate
        -- the last character goes on behind the bytes that were read
        if s.length < rawBytesLength then
          let paddingSize := rawBytesLength - s.length
          let available ← byteAvailable
          if available < paddingSize then fail else
            let padding ← readNBytes P paddingSize
            pure (.inl ⟨s.output ++ data ++ padding, hasSurrogate, s.length - utf8Length⟩)
        else pure (.inl ⟨s.output ++ data, hasSurrogate, s.length - utf8Length⟩)
  else pure (.inr (s.output, s.hasSurrogate))

/-- `finalReadUtf8String`. -/
def finalReadUtf8String (output : Bytes) (hasSurrogate : Bool) (length : ℕ) : Dec (Bytes × Bool) :=
  iter (finalReadStep P) ⟨output, hasSurrogate, length⟩

/-- `readChunkString`; `.inl` is the call of `decodeStringWithReader` behind a non-final chunk. -/
def readChunkString (out : Bytes × Bool) (length : ℕ) (isLastChunk : Bool) :
    Dec (Bytes × Bool ⊕ Bytes × Bool) := do
  let out ← finalReadUtf8String P out.1 out.2 length
  pure (if isLastChunk then .inr out else .inl out)

/-- `decodeStringWithReader` behind the lead byte, up to its recursive call. -/
def decodeStringBy (out : Bytes × Bool) (code : UInt8) : Dec (Bytes × Bool ⊕ Bytes × Bool) :=
  if code ≤ 0x1f then readChunkString P out code.toNat true
  else if 0x30 ≤ code ∧ code ≤ 0x33 then do
    let res ← readByte P
    if res.1 then readChunkString P out ((code.toNat - 0x30) * 256 + res.2.toNat) true else fail
  else if code = 0x53 then do
    let res ← readBE P .uint16
    if res.1 then readChunkString P out res.2.toNat true else fail
  -- a chunk with other chunks behind it
  else if code = 0x52 then do
    let res ← readBE P .uint16
    if res.1 then readChunkString P out res.2.toNat false else fail
  else fail

/-- `decodeStringWithReader` up to its recursive call. -/
def decodeStringStep (out : Bytes × Bool) : Dec (Bytes × Bool ⊕ Bytes × Bool) := do
  let ret ← readByte P
  if ret.1 then decodeStringBy P out ret.2 else fail

/-- `decodeStringWithReader`. -/
def decodeStringWithReader : Dec (Bytes × Bool) := iter (decodeStringStep P) ([], false)

/-- The surrogate pair at the beginning of the bytes, as the four bytes of its character. -/
def surrogatePair? : Bytes → Option Bytes
  | b₀ :: b₁ :: b₂ :: b₃ :: b₄ :: b₅ :: _ =>
    -- a high surrogate and a low one, in three bytes each
    if utf8CharLength b₀ = 3 ∧ b₀ = 0xED ∧ b₁ &&& 0xF0 = 0xA0 ∧ b₃ = 0xED ∧ b₄ &&& 0xF0 = 0xB0 then
      let unit (c₀ c₁ c₂ : UInt8) : ℕ :=
        (c₀.toNat &&& 0x0F) <<< 12 ||| (c₁.toNat &&& 0x3F) <<< 6 ||| (c₂.toNat &&& 0x3F)
      let highSurrogate := unit b₀ b₁ b₂
      let lowSurrogate := unit b₃ b₄ b₅
      let codePoint := ((highSurrogate &&& 0x3FF) <<< 10 ||| (lowSurrogate &&& 0x3FF)) + 0x10000
      some [.ofNat (0xF0 ||| codePoint >>> 18), .ofNat (0x80 ||| (codePoint >>> 12 &&& 0x3F)),
        .ofNat (0x80 ||| (codePoint >>> 6 &&& 0x3F)), .ofNat (0x80 ||| (codePoint &&& 0x3F))]
    else none
  | _ => none

/-- The loop of `unescapeFourBytesUtf8Char` over the bytes from `index` on; the first `skip` of them
have been copied or replaced already. -/
def unescapeFrom : ℕ → Bytes → Option Bytes
  | _, [] => some []
  | skip + 1, _ :: bs => unescapeFrom skip bs
  | 0, b :: bs =>
    match surrogatePair? (b :: bs) with
    | some char => (unescapeFrom 5 bs).map (char ++ ·)
    | none =>
      let charLength := utf8CharLength b
      -- any other character is copied; where none begins the result is the empty string
      if 0 < charLength ∧ charLength ≤ (b :: bs).length then
        (unescapeFrom (charLength - 1) bs).map ((b :: bs).take charLength ++ ·)
      else none

/-- `unescapeFourBytesUtf8Char`. -/
def unescapeFourBytesUtf8Char (input : Bytes) : Bytes := (unescapeFrom 0 input).getD []

/-- `decode<std::string>`. -/
def decodeString : Dec Bytes := do
  let (out, hasSurrogate) ← decodeStringWithReader P
  if P.javaHessianLite ∧ hasSurrogate then
    -- the rewriting fails with the empty string
    let newOut := unescapeFourBytesUtf8Char out
    if newOut = [] then fail else pure newOut
  else pure out

/-! ### The forms of a string -/

variable {P}

/-- `finalReadStep` in terms of the general parsers. -/
theorem finalReadStep_eq (s : StringLoop) : finalReadStep P s =
    if 0 < s.length then take s.length >>= fun data =>
      match getUtf8StringLength data with
      | none => fail
      | some (utf8Length, rawBytesLength, surrogate) =>
        if s.length < rawBytesLength then take (rawBytesLength - s.length) >>= fun padding =>
          pure (.inl ⟨s.output ++ data ++ padding, s.hasSurrogate || surrogate,
            s.length - utf8Length⟩)
        else pure (.inl ⟨s.output ++ data, s.hasSurrogate || surrogate, s.length - utf8Length⟩)
    else pure (.inr (s.output, s.hasSurrogate)) := by
  unfold finalReadStep
  split
  · rw [readNBytes_guarded]
    congr 1
    funext data
    rcases getUtf8StringLength data with _ | ⟨utf8Length, rawBytesLength, surrogate⟩
    · rfl
    · simp only [readNBytes_guarded]
  · rfl

theorem finalReadStep_tame (s : StringLoop) (E : Fault → Prop) (T : Prop) (N : ℕ) :
    Tame E T N (finalReadStep P s) (finalReadStep P s) (Sum.elim (fun _ => 1) fun _ => 0) := by
  rw [finalReadStep_eq]
  split
  · next hs =>
    refine (Tame.take s.length).bind (v := fun _ _ => 0) (fun data => ?_) fun data r => ?_
    · rcases getUtf8StringLength data with _ | ⟨utf8Length, rawBytesLength, surrogate⟩
      · exact .failure _
      · refine .ite (fun _ => ?_) fun _ => .pure _
        exact (Tame.take _).map _ fun _ => Nat.zero_le _
    · cases r <;> simp only [Sum.elim_inl, Sum.elim_inr] <;> omega
  · exact .value rfl

theorem finalReadUtf8String_tame (output : Bytes) (hasSurrogate : Bool) (length : ℕ)
    (E : Fault → Prop) (T : Prop) (N : ℕ) :
    Tame E T N (finalReadUtf8String P output hasSurrogate length)
      (finalReadUtf8String P output hasSurrogate length) fun _ => 0 :=
  .iter' (fun s => finalReadStep_tame s E T N) _

/-- How a chunk goes on behind its lead byte: with its length, its characters, and then the end of
the string or another chunk. -/
def chunkForm (P : Platform) (out : Bytes × Bool) (code : UInt8) :
    Dec (Bytes × Bool ⊕ Bytes × Bool) :=
  if code.toNat ≤ 0x1f then readChunkString P out code.toNat true
  else if 0x30 ≤ code.toNat ∧ code.toNat ≤ 0x33 then
    next >>= fun b => readChunkString P out ((code.toNat - 0x30) * 256 + b.toNat) true
  else if code.toNat = 0x53 then take 2 >>= fun bs => readChunkString P out (bigEndian bs) true
  else if code.toNat = 0x52 then take 2 >>= fun bs => readChunkString P out (bigEndian bs) false
  else fail

theorem decodeStringBy_eq (out : Bytes × Bool) (code : UInt8) :
    decodeStringBy P out code = chunkForm P out code := by
  simp only [decodeStringBy, chunkForm, UInt8.le_iff_toNat_le, ← UInt8.toNat_inj,
    UInt8.reduceToNat]
  split_ifs
  · rfl
  · exact readByte_checked P fun b =>
      readChunkString P out ((code.toNat - 0x30) * 256 + b.toNat) true
  · exact readBE_checked P .uint16 fun z => readChunkString P out z.toNat true
  · exact readBE_checked P .uint16 fun z => readChunkString P out z.toNat false
  · rfl

theorem decodeStringStep_eq (out : Bytes × Bool) :
    decodeStringStep P out = next >>= chunkForm P out := by
  rw [decodeStringStep, readByte_checked, funext (decodeStringBy_eq out)]

theorem readChunkString_tame (out : Bytes × Bool) (length : ℕ) (isLastChunk : Bool)
    (E : Fault → Prop) (T : Prop) (N : ℕ) :
    Tame E T N (readChunkString P out length isLastChunk)
      (readChunkString P out length isLastChunk) fun _ => 0 :=
  (finalReadUtf8String_tame _ _ _ E T N).map _ fun _ => Nat.zero_le _

theorem decodeStringStep_tame (out : Bytes × Bool) (E : Fault → Prop) (T : Prop) (N : ℕ) :
    Tame E T N (decodeStringStep P out) (decodeStringStep P out)
      (Sum.elim (fun _ => 1) fun _ => 1) := by
  rw [decodeStringStep_eq]
  refine Tame.next.bind (v := fun _ _ => 0) (fun code => ?_) fun code r => ?_
  · unfold chunkForm
    split_ifs
    · exact readChunkString_tame _ _ _ E T _
    · exact (Tame.next.bind (fun b => readChunkString_tame _ _ _ E T _) fun _ _ => Nat.zero_le _)
    · exact ((Tame.take 2).bind (fun b => readChunkString_tame _ _ _ E T _)
        fun _ _ => Nat.zero_le _)
    · exact ((Tame.take 2).bind (fun b => readChunkString_tame _ _ _ E T _)
        fun _ _ => Nat.zero_le _)
    · exact .failure _
  · cases r <;> exact Nat.le_refl 1

theorem decodeStringWithReader_leaf : Dec.Leaf (decodeStringWithReader P) := fun E T N =>
  .iter' (fun out => decodeStringStep_tame out E T N) _

theorem decodeString_leaf : Dec.Leaf (decodeString P) := by
  intro E T N
  refine (decodeStringWithReader_leaf E T N).bind (v := fun _ _ => 0) (fun out => ?_)
    fun _ _ => Nat.le_refl 1
  refine .ite (fun _ => .ite (fun _ => .failure _) fun _ => .pure _) fun _ => .pure _

end Decode

/-! ### Writing -/

/-- What `getUtf8StringLengthAndPerChunkOffsets` keeps while it loops. -/
structure OffsetLoop where
  utf8Length : ℕ
  currentChunk : ℕ
  perChunkBytesOffsets : List ℕ
  fourBytesCharOffsets : List ℕ
deriving DecidableEq

/-- Count the character of length `charLength` at `rawBytesLength`. -/
def OffsetLoop.count (s : OffsetLoop) (charLength rawBytesLength : ℕ) : OffsetLoop where
  utf8Length := s.utf8Length + 1
  currentChunk := if stringChunkSize ≤ s.currentChunk + 1 then 0 else s.currentChunk + 1
  perChunkBytesOffsets :=
    if stringChunkSize ≤ s.currentChunk + 1 then
      s.perChunkBytesOffsets ++ [rawBytesLength + charLength]
    else s.perChunkBytesOffsets
  fourBytesCharOffsets :=
    if charLength = 4 then s.fourBytesCharOffsets ++ [rawBytesLength] else s.fourBytesCharOffsets

/-- The loop of `getUtf8StringLengthAndPerChunkOffsets` over the bytes from `index` on; the first
`skip` of them belong to the last character. -/
def offsetsFrom (inSize : ℕ) : ℕ → ℕ → Bytes → OffsetLoop → Option OffsetLoop
  | _, _, [], s => some s
  | skip + 1, index, _ :: bs, s => offsetsFrom inSize skip (index + 1) bs s
  | 0, index, b :: bs, s =>
    let charLength := utf8CharLength b
    if charLength = 0 ∨ inSize < index + charLength then none
    else offsetsFrom inSize (charLength - 1) (index + 1) bs (s.count charLength index)

/-- `getUtf8StringLengthAndPerChunkOffsets`; `none` stands for the length -1. -/
def getUtf8StringLengthAndPerChunkOffsets (input : Bytes) : Option OffsetLoop :=
  (offsetsFrom input.length 0 0 input ⟨0, 0, [], []⟩).map fun s =>
    if 0 < s.currentChunk then
      { s with perChunkBytesOffsets := s.perChunkBytesOffsets ++ [input.length], currentChunk := 0 }
    else s

/-- `substr`. -/
def substr (data : Bytes) (pos n : ℕ) : Bytes := (data.drop pos).take n

/-- The two 3-byte sequences for the surrogate pair of a supplementary code point. -/
def surrogateBytes (codePoint : ℕ) : Bytes :=
  let codePoint := codePoint - 0x10000
  let escape (utf16Char : ℕ) : Bytes :=
    [.ofNat (0xE0 ||| utf16Char >>> 12), .ofNat (0x80 ||| (utf16Char >>> 6 &&& 0x3F)),
      .ofNat (0x80 ||| (utf16Char &&& 0x3F))]
  escape (0xD800 + codePoint >>> 10) ++ escape (0xDC00 + (codePoint &&& 0x3FF))

/-- `escapeFourBytesUtf8Char` from `lastPos` on. -/
def escapeFrom (input : Bytes) : ℕ → List ℕ → Option Bytes
  | lastPos, [] => some (input.drop lastPos)
  | lastPos, pos :: positions =>
    let byte (i : ℕ) : ℕ := (input.getD (pos + i) 0).toNat
    let codePoint := (byte 0 &&& 0x07) <<< 18 ||| (byte 1 &&& 0x3F) <<< 12 |||
      (byte 2 &&& 0x3F) <<< 6 ||| (byte 3 &&& 0x3F)
    if codePoint < 0x10000 ∨ 0x10FFFF < codePoint then none
    else (escapeFrom input (pos + 4) positions).map fun rest =>
      substr input lastPos (pos - lastPos) ++ surrogateBytes codePoint ++ rest

/-- `escapeFourBytesUtf8Char`. -/
def escapeFourBytesUtf8Char (input : Bytes) (fourBytesCharOffsets : List ℕ) : Bytes :=
  (escapeFrom input 0 fourBytesCharOffsets).getD []

/-- The loop that writes the non-final chunks, over the offsets at which the chunks end.  The
position `strOffset` is a `uint32_t`. -/
def writeChunks (data : Bytes) : List ℕ → ℕ → ℕ → Enc (ℕ × ℕ)
  | rawOffset :: offsets, length, strOffset =>
    if stringChunkSize < length then do
      writeByte 0x52
      writeBE .uint16 stringChunkSize
      rawWrite (substr data strOffset (rawOffset - strOffset))
      writeChunks data offsets (length - stringChunkSize) (rawOffset % 2 ^ 32)
    else pure (length, strOffset)
  | [], length, strOffset => pure (length, strOffset)

/-- The part of `encode<absl::string_view>` behind the first pass over the string. -/
def writeString (data : Bytes) (offsets : OffsetLoop) : Enc Bool := do
  let (length, strOffset) ← writeChunks data offsets.perChunkBytesOffsets offsets.utf8Length 0
  let rest := substr data strOffset (data.length - strOffset)
  if length = 0 then
    writeByte 0x00
  else if length ≤ 31 then
    writeByte length
    rawWrite rest
  else if length ≤ 1023 then
    writeByte (0x30 + length / 256)
    writeByte (length % 256)
    rawWrite rest
  else
    writeByte 0x53
    writeBE .uint16 length
    rawWrite rest
  pure true

/-- Refuse a string. -/
def refuse (data : Bytes) : Enc Bool := do
  modify fun e => e.refuse data
  pure false

/-- `encode<absl::string_view>` and `encode<std::string>`. -/
def encodeString (P : Platform) (data : Bytes) : Enc Bool :=
  match getUtf8StringLengthAndPerChunkOffsets data with
  | none => refuse data
  | some offsets =>
    if P.javaHessianLite ∧ offsets.fourBytesCharOffsets ≠ [] then
      let rewriteData := escapeFourBytesUtf8Char data offsets.fourBytesCharOffsets
      if rewriteData = [] then refuse data
      else
        match getUtf8StringLengthAndPerChunkOffsets rewriteData with
        | none => refuse data
        | some offsets => writeString rewriteData offsets
    else writeString data offsets

end Hessian2
