import Hessian2.Scalar
import Hessian2.StringGrammar

/-!
# Strings as they are written

What `encode<absl::string_view>` writes in a plain build.

* `ChunkOffsets` : the offsets at which the non-final chunks of a string end.
* `getUtf8StringLengthAndPerChunkOffsets_characters` : the first pass over a string finds them.
* `CanonicalString` : the chunks that a string is to be sent in.
* `encodeString_canonical` : **a string is accepted if it is a sequence of characters, and written
  in its canonical form.**
* `string_carries` : what is written is read back.
-/

namespace Hessian2

open Parsing Parsing.Parser Reader Enc

/-- From `pos` on, `data` has `n` more characters, and the first of `offsets` are the ends of the
chunks that are not the last one. -/
inductive ChunkOffsets (data : Bytes) : ℕ → ℕ → List ℕ → Prop where
  | last {pos n : ℕ} {offsets : List ℕ} (hn : n ≤ stringChunkSize)
    (h : Characters n (data.drop pos)) : ChunkOffsets data pos n offsets
  | more {pos n : ℕ} {chunk : Bytes} {offsets : List ℕ}
    (hd : ∃ rest, data.drop pos = chunk ++ rest) (hc : Characters stringChunkSize chunk) (hn : 0 < n)
    (h : ChunkOffsets data (pos + chunk.length) n offsets) :
    ChunkOffsets data pos (stringChunkSize + n) ((pos + chunk.length) :: offsets)

theorem ChunkOffsets.append {data : Bytes} {pos n : ℕ} {offsets : List ℕ}
    (h : ChunkOffsets data pos n offsets) (extra : List ℕ) :
    ChunkOffsets data pos n (offsets ++ extra) := by
  induction h with
  | last hn h => exact .last hn h
  | more hd hc hn h ih => exact .more hd hc hn ih

/-! ### The first pass -/

/-- The letters of a word behind its lead are passed over. -/
theorem offsetsFrom_skip {inSize : ℕ} {tail bs : Bytes} {s : OffsetLoop} :
    ∀ {index : ℕ}, offsetsFrom inSize tail.length index (tail ++ bs) s =
      offsetsFrom inSize 0 (index + tail.length) bs s := by
  induction tail with
  | nil => intro index; rfl
  | cons b tail ih =>
    intro index
    rw [List.length_cons, List.cons_append, offsetsFrom, ih]
    congr 1
    omega

/-- Characters are counted one by one. -/
theorem offsetsFrom_cons {inSize index : ℕ} {b : UInt8} {tail bs : Bytes} {s : OffsetLoop}
    (hb : charWidth b = tail.length + 1) (hsize : index + (tail.length + 1) ≤ inSize) :
    offsetsFrom inSize 0 index (b :: (tail ++ bs)) s =
      offsetsFrom inSize 0 (index + (tail.length + 1)) bs (s.count (tail.length + 1) index) := by
  rw [offsetsFrom, utf8CharLength_eq, hb, if_neg (by omega), Nat.add_sub_cancel, offsetsFrom_skip]
  congr 1
  omega

/-- Characters that do not fill a chunk. -/
theorem offsetsFrom_partial (inSize : ℕ) {n : ℕ} {ws : Bytes} (hw : Characters n ws) (bs : Bytes) :
    ∀ (index : ℕ) (s : OffsetLoop), s.currentChunk + n < stringChunkSize →
      index + ws.length ≤ inSize →
      ∃ s', offsetsFrom inSize 0 index (ws ++ bs) s = offsetsFrom inSize 0 (index + ws.length) bs s' ∧
        s'.utf8Length = s.utf8Length + n ∧ s'.currentChunk = s.currentChunk + n ∧
        s'.perChunkBytesOffsets = s.perChunkBytesOffsets := by
  induction hw with
  | nil => intro index s _ _; exact ⟨s, rfl, rfl, rfl, rfl⟩
  | @cons n b tail ws hb hw ih =>
    intro index s hc hsize
    simp only [List.length_cons, List.length_append] at hsize
    have hnot : ¬ stringChunkSize ≤ s.currentChunk + 1 := by omega
    have hcount : (s.count (tail.length + 1) index).currentChunk = s.currentChunk + 1 := if_neg hnot
    have hsame : (s.count (tail.length + 1) index).perChunkBytesOffsets = s.perChunkBytesOffsets :=
      if_neg hnot
    have hlen : (s.count (tail.length + 1) index).utf8Length = s.utf8Length + 1 := rfl
    obtain ⟨s', he, hu, hcur, hoff⟩ := ih (index + (tail.length + 1))
      (s.count (tail.length + 1) index) (by omega) (by omega)
    refine ⟨s', ?_, by omega, by omega, hoff.trans hsame⟩
    rw [List.cons_append, List.append_assoc, offsetsFrom_cons hb (by omega), he]
    simp only [List.length_cons, List.length_append]
    congr 1
    omega

/-- A chunk full of characters. -/
theorem offsetsFrom_chunk {inSize : ℕ} {ws : Bytes} (hw : Characters stringChunkSize ws) (bs : Bytes)
    {index : ℕ} {s : OffsetLoop} (hs : s.currentChunk = 0) (hsize : index + ws.length ≤ inSize) :
    ∃ s', offsetsFrom inSize 0 index (ws ++ bs) s = offsetsFrom inSize 0 (index + ws.length) bs s' ∧
      s'.utf8Length = s.utf8Length + stringChunkSize ∧ s'.currentChunk = 0 ∧
      s'.perChunkBytesOffsets = s.perChunkBytesOffsets ++ [index + ws.length] := by
  -- all characters but the last leave the chunk open
  obtain ⟨as, cs, rfl, ha, hc⟩ := Words.Split.of_add (m := 32767) (n := 1) hw
  rw [List.length_append] at hsize
  obtain ⟨s₁, he, hu, hcur, hoff⟩ := offsetsFrom_partial inSize ha (cs ++ bs) index s
    (by rw [hs, stringChunkSize]; decide) (by omega)
  cases hc with
  | @cons _ b tail cs hb h =>
    obtain rfl := Words.split_zero.1 h
    have hfull : stringChunkSize ≤ s₁.currentChunk + 1 := by rw [hcur, hs, stringChunkSize]
    simp only [List.length_cons, List.length_append, List.length_nil] at hsize
    refine ⟨s₁.count (tail.length + 1) (index + as.length), ?_, ?_, if_pos hfull, ?_⟩
    · rw [List.append_assoc, he, List.append_nil, List.cons_append, offsetsFrom_cons hb (by omega)]
      simp only [List.length_cons, List.length_append]
      congr 1
      omega
    · rw [OffsetLoop.count, hu, stringChunkSize]
    · simp only [OffsetLoop.count, if_pos hfull, hoff, List.length_cons, List.length_append,
        List.length_nil]
      congr 2
      omega

/-- The first pass over the characters from `index` on finds the ends of their chunks. -/
theorem offsetsFrom_characters {data : Bytes} {n : ℕ} : ∀ {ws : Bytes} {index : ℕ} {s : OffsetLoop},
    Characters n ws → data.drop index = ws → index ≤ data.length → s.currentChunk = 0 →
      ∃ s' offsets, offsetsFrom data.length 0 index ws s = some s' ∧
        s'.utf8Length = s.utf8Length + n ∧
        s'.perChunkBytesOffsets = s.perChunkBytesOffsets ++ offsets ∧
        ChunkOffsets data index n offsets := by
  induction n using Nat.strong_induction_on with
  | _ n ih =>
  intro ws index s hw hd hle hs
  have hlen := congrArg List.length hd
  rw [List.length_drop] at hlen
  rcases Nat.lt_or_ge n stringChunkSize with hn | hn
  · obtain ⟨s', he, hu, -, hoff⟩ := offsetsFrom_partial data.length hw [] index s (by omega)
      (by omega)
    rw [List.append_nil] at he
    exact ⟨s', [], he, hu, by rw [hoff, List.append_nil], .last (by omega) (by rwa [hd])⟩
  · obtain ⟨m, rfl⟩ := Nat.exists_eq_add_of_le hn
    obtain ⟨chunk, rest, rfl, hc, hr⟩ := Words.Split.of_add hw
    rw [List.length_append] at hlen
    obtain ⟨s₁, he, hu, hcur, hoff⟩ := offsetsFrom_chunk hc rest hs
      (show index + chunk.length ≤ data.length by omega)
    have hrest : data.drop (index + chunk.length) = rest := by
      rw [← List.drop_drop, hd, List.drop_left]
    have hpos : 0 < stringChunkSize := by decide
    obtain ⟨s', offsets, he', hu', hoff', hchunks⟩ := ih m (by omega) hr hrest (by omega) hcur
    refine ⟨s', (index + chunk.length) :: offsets, he.trans he', by omega, by simp [hoff', hoff], ?_⟩
    rcases Nat.eq_zero_or_pos m with rfl | hm
    · exact .last (Nat.le_refl _) (by rwa [hd])
    · exact .more ⟨rest, hd⟩ hc hm hchunks

theorem getUtf8StringLengthAndPerChunkOffsets_characters {data : Bytes} {n : ℕ}
    (h : Characters n data) : ∃ offsets, getUtf8StringLengthAndPerChunkOffsets data = some offsets ∧
      offsets.utf8Length = n ∧ ChunkOffsets data 0 n offsets.perChunkBytesOffsets := by
  obtain ⟨s, offsets, he, hu, hoff, hchunks⟩ := offsetsFrom_characters h (s := ⟨0, 0, [], []⟩)
    List.drop_zero (Nat.zero_le _) rfl
  rw [List.nil_append] at hoff
  simp only [getUtf8StringLengthAndPerChunkOffsets, he, Option.map_some, Option.some.injEq]
  subst hoff
  refine ⟨_, rfl, ?_, ?_⟩
  · split <;> exact hu.trans (Nat.zero_add n)
  · split
    · exact hchunks.append _
    · exact hchunks

/-- A string that the first pass accepts is a sequence of characters. -/
theorem characters_of_offsetsFrom {inSize : ℕ} : ∀ {bs : Bytes} {skip index : ℕ}
    {s s' : OffsetLoop}, offsetsFrom inSize skip index bs s = some s' → index + bs.length = inSize →
      skip ≤ bs.length → ∃ n ts ws, bs = ts ++ ws ∧ ts.length = skip ∧ Characters n ws
  | [], skip, index, s, s', _, _, hskip => ⟨0, [], [], rfl, (Nat.le_zero.1 hskip).symm, .nil⟩
  | b :: bs, skip + 1, index, s, s', h, hsize, hskip => by
    rw [List.length_cons] at hsize hskip
    have hbehind : offsetsFrom inSize skip (index + 1) bs s = some s' := h
    obtain ⟨n, ts, ws, rfl, ht, hw⟩ := characters_of_offsetsFrom hbehind (by omega) (by omega)
    exact ⟨n, b :: ts, ws, rfl, by rw [List.length_cons, ht], hw⟩
  | b :: bs, 0, index, s, s', h, hsize, _ => by
    rw [List.length_cons] at hsize
    rw [offsetsFrom, utf8CharLength_eq] at h
    split at h
    · cases h
    · next hb =>
      obtain ⟨n, ts, ws, rfl, ht, hw⟩ :=
        characters_of_offsetsFrom h (by omega) (by omega)
      exact ⟨n + 1, [], b :: (ts ++ ws), rfl, rfl, .cons (by omega) hw⟩

theorem getUtf8StringLengthAndPerChunkOffsets_eq_none {data : Bytes}
    (h : ¬ ∃ n, Characters n data) : getUtf8StringLengthAndPerChunkOffsets data = none := by
  rw [getUtf8StringLengthAndPerChunkOffsets, Option.map_eq_none_iff]
  by_contra hsome
  obtain ⟨s', hs⟩ := Option.ne_none_iff_exists'.1 hsome
  obtain ⟨n, ts, ws, rfl, ht, hw⟩ := characters_of_offsetsFrom hs (Nat.zero_add _) (Nat.zero_le _)
  obtain rfl := List.length_eq_zero_iff.1 ht
  exact h ⟨n, hw⟩

/-! ### The chunks -/

/-- The shortest header of a final chunk of `m` characters. -/
def shortestHeader (m : ℕ) : Bytes :=
  if m ≤ 31 then [byteOf m]
  else if m ≤ 1023 then [byteOf (0x30 + m / 256), byteOf (m % 256)]
  else 0x53 :: bigEndianBytes .uint16 m

/-- The non-final chunks of 32768 characters, then the final one of `m` characters. -/
def stringChunks (chunks : List Bytes) (m : ℕ) (last : Bytes) : Bytes :=
  chunks.flatMap (fun chunk => 0x52 :: 0x80 :: 0x00 :: chunk) ++ (shortestHeader m ++ last)

/-- The output for a string of `n` characters: as few chunks as possible, that join to the
string. -/
def CanonicalString (n : ℕ) (data output : Bytes) : Prop :=
  ∃ (chunks : List Bytes) (last : Bytes) (m : ℕ), chunks.length = (n + 32767) / 32768 - 1 ∧
    n = 32768 * chunks.length + m ∧ m ≤ 32768 ∧ (∀ chunk ∈ chunks, Characters 32768 chunk) ∧
    Characters m last ∧ chunks.flatten ++ last = data ∧ output = stringChunks chunks m last

theorem shortestHeader_final {m : ℕ} (hm : m ≤ 32768) : FinalHeader (shortestHeader m) m := by
  unfold shortestHeader
  split_ifs with h₁ h₂
  · have hb := toNat_byteOf m
    have hm' : (byteOf m).toNat = m := by omega
    have hh := FinalHeader.compact (b := byteOf m) (by omega)
    rwa [hm'] at hh
  · have hb := toNat_byteOf (0x30 + m / 256)
    have hc := toNat_byteOf (m % 256)
    have hm' : 256 * ((byteOf (0x30 + m / 256)).toNat - 0x30) + (byteOf (m % 256)).toNat = m := by
      omega
    have hh := FinalHeader.short (b := byteOf (0x30 + m / 256)) (c := byteOf (m % 256)) (by omega)
    rwa [hm'] at hh
  · obtain ⟨hi, lo, hbytes⟩ := List.length_eq_two.1 (length_bigEndianBytes .uint16 m)
    have hm' := bigEndian_uint16 (n := m) (by omega)
    rw [hbytes, bigEndian_pair] at hm'
    have hh := FinalHeader.long hi lo
    rw [hbytes]
    rwa [hm'] at hh

/-- The canonical output is a sentence that stands for the string. -/
theorem CanonicalString.sentence {n : ℕ} {data output : Bytes} (h : CanonicalString n data output) :
    StringSentence output data := by
  obtain ⟨chunks, last, m, -, -, hm, hall, hlast, rfl, rfl⟩ := h
  induction chunks with
  | nil => exact .final (shortestHeader_final hm) hlast
  | cons chunk chunks ih =>
    rw [List.forall_mem_cons] at hall
    have hfull : Characters (256 * (0x80 : UInt8).toNat + (0x00 : UInt8).toNat) chunk := hall.1
    have hchunk := StringSentence.chunk hfull (ih hall.2)
    simpa [stringChunks] using hchunk

/-- The non-final chunks that are written, and what is left for the final one. -/
theorem writeChunks_chunks {data : Bytes} {n pos : ℕ} {offsets : List ℕ}
    (hdata : data.length < 2 ^ 32) (h : ChunkOffsets data pos n offsets) :
    ∃ (chunks : List Bytes) (m pos' : ℕ),
      (∀ e, writeChunks data offsets n pos e = .ok ((m, pos'), e.write
        (chunks.flatMap fun chunk => 0x52 :: 0x80 :: 0x00 :: chunk))) ∧
      n = 32768 * chunks.length + m ∧ m ≤ 32768 ∧ (chunks ≠ [] → 0 < m) ∧
      (∀ chunk ∈ chunks, Characters 32768 chunk) ∧ Characters m (data.drop pos') ∧
      chunks.flatten ++ data.drop pos' = data.drop pos := by
  have hsize : stringChunkSize = 32768 := rfl
  -- the offsets say where the chunks behind the first one begin
  induction h with
  | @last pos n offsets hn h =>
    refine ⟨[], n, pos, fun e => ?_, by simp, hn, by simp, by simp, h, rfl⟩
    cases offsets with
    | nil => rw [writeChunks, List.flatMap_nil, Encoder.write_nil]; rfl
    | cons o offsets =>
      rw [writeChunks, if_neg (by omega), List.flatMap_nil, Encoder.write_nil]
      rfl
  | @more pos n chunk offsets hd hc hn h ih =>
    obtain ⟨rest, hd⟩ := hd
    have hrest : data.drop (pos + chunk.length) = rest := by
      rw [← List.drop_drop, hd, List.drop_left]
    have hlen := congrArg List.length hd
    have hpos := hc.length_le
    rw [List.length_drop, List.length_append] at hlen
    obtain ⟨chunks, m, pos', hwrite, hm, hle, hne, hall, hlast, hjoin⟩ := ih
    refine ⟨chunk :: chunks, m, pos', fun e => ?_, by rw [List.length_cons]; omega, hle, fun _ => ?_,
      List.forall_mem_cons.2 ⟨hc, hall⟩, hlast, ?_⟩
    · have hchunk : substr data pos (pos + chunk.length - pos) = chunk := by
        rw [substr, hd, Nat.add_sub_cancel_left, List.take_left]
      rw [writeChunks, if_pos (by omega), writeByte_bind, writeBE_bind, rawWrite_bind, hchunk,
        Nat.mod_eq_of_lt (by omega), Nat.add_sub_cancel_left, hwrite]
      simp only [Encoder.write_write, List.append_assoc]
      rfl
    · by_cases hnil : chunks = []
      · subst hnil
        rw [List.length_nil] at hm
        omega
      · exact hne hnil
    · rw [List.flatten_cons, List.append_assoc, hjoin, hrest, hd]

/-- What is written behind the first pass. -/
theorem writeString_canonical {data : Bytes} {n : ℕ} {offsets : OffsetLoop}
    (hdata : data.length < 2 ^ 32) (hn : offsets.utf8Length = n)
    (h : ChunkOffsets data 0 n offsets.perChunkBytesOffsets) :
    ∃ output, CanonicalString n data output ∧
      ∀ e, writeString data offsets e = .ok (true, e.write output) := by
  obtain ⟨chunks, m, pos, hwrite, hm, hle, hne, hall, hlast, hjoin⟩ := writeChunks_chunks hdata h
  rw [List.drop_zero] at hjoin
  -- the last chunk is empty only if the string is
  have hcount : chunks.length = (n + 32767) / 32768 - 1 := by
    by_cases hnil : chunks = []
    · subst hnil
      rw [List.length_nil] at hm ⊢
      omega
    · have := hne hnil
      omega
  refine ⟨stringChunks chunks m (data.drop pos),
    ⟨chunks, data.drop pos, m, hcount, hm, hle, hall, hlast, hjoin, rfl⟩, fun e => ?_⟩
  have hrest : substr data pos (data.length - pos) = data.drop pos := by
    rw [substr, List.take_of_length_le (by rw [List.length_drop])]
  rw [writeString, hn, Enc.bind_apply_ok (hwrite e), stringChunks, shortestHeader]
  simp only [hrest]
  -- the header of the last chunk is the shortest for its length
  by_cases h₀ : m = 0
  · rw [h₀] at hlast
    rw [if_pos h₀, if_pos (by omega), h₀, Words.split_zero.1 hlast]
    simp only [writeByte_bind, Enc.pure_apply, Encoder.write_write]
    rfl
  by_cases h₁ : m ≤ 31
  · simp only [if_neg h₀, if_pos h₁, writeByte_bind, rawWrite_bind, Enc.pure_apply,
      Encoder.write_write, List.append_assoc]
  by_cases h₂ : m ≤ 1023
  · simp only [if_neg h₀, if_neg h₁, if_pos h₂, writeByte_bind, rawWrite_bind, Enc.pure_apply,
      Encoder.write_write, List.append_assoc]
    rfl
  · simp only [if_neg h₀, if_neg h₁, if_neg h₂, writeByte_bind, writeBE_bind, rawWrite_bind,
      Enc.pure_apply, Encoder.write_write, List.append_assoc]
    rfl

/-- A sequence of characters is written in its canonical form. -/
theorem encodeString_characters (P : Platform) {data : Bytes} {n : ℕ} (hdata : data.length < 2 ^ 32)
    (h : Characters n data) : ∃ output, CanonicalString n data output ∧
      ∀ e, encodeString P.plain data e = .ok (true, e.write output) := by
  obtain ⟨offsets, he, hu, hchunks⟩ := getUtf8StringLengthAndPerChunkOffsets_characters h
  obtain ⟨output, hcanonical, hwrite⟩ := writeString_canonical hdata hu hchunks
  refine ⟨output, hcanonical, fun e => ?_⟩
  rw [← hwrite e]
  simp [encodeString, he]

/-- Any other string is refused. -/
theorem encodeString_no_characters (P : Platform) {data : Bytes} (h : ¬ ∃ n, Characters n data)
    (e : Encoder) : encodeString P data e = .ok (false, e.refuse data) := by
  rw [encodeString, getUtf8StringLengthAndPerChunkOffsets_eq_none h]
  rfl

/-- **`encode<absl::string_view>` accepts exactly the sequences of characters, and writes each in
its canonical form**: chunks of 32768 characters and a final one with the shortest header. -/
theorem encodeString_canonical (P : Platform) (data : Bytes) (hdata : data.length < 2 ^ 32)
    (e : Encoder) :
    ((∃ e', encodeString P.plain data e = .ok (true, e')) ↔ ∃ n, Characters n data) ∧
    ((¬ ∃ n, Characters n data) →
      ∃ e', encodeString P.plain data e = .ok (false, e') ∧ e'.output = e.output) ∧
    ∀ n, Characters n data → ∃ output, CanonicalString n data output ∧
      encodeString P.plain data e = .ok (true, e.write output) := by
  have hrefused (h : ¬ ∃ n, Characters n data) := encodeString_no_characters P.plain h e
  refine ⟨⟨fun ⟨e', he⟩ => ?_, fun ⟨n, h⟩ => ?_⟩, fun h => ⟨_, hrefused h, rfl⟩, fun n h => ?_⟩
  · by_contra h
    rw [hrefused h] at he
    cases he
  · obtain ⟨output, -, hwrite⟩ := encodeString_characters P hdata h
    exact ⟨_, hwrite e⟩
  · obtain ⟨output, hcanonical, hwrite⟩ := encodeString_characters P hdata h
    exact ⟨output, hcanonical, hwrite e⟩

/-- A string of one character of two bytes, which is accepted. -/
theorem encodeString_canonical_umlaut : Characters 1 [0xc3, 0xa4] ∧
    ((∃ e', encodeString Platform.simple.plain [0xc3, 0xa4] .empty = .ok (true, e')) ↔
      ∃ n, Characters n [0xc3, 0xa4]) ∧
    ((¬ ∃ n, Characters n [0xc3, 0xa4]) →
      ∃ e', encodeString Platform.simple.plain [0xc3, 0xa4] .empty = .ok (false, e') ∧
        e'.output = Encoder.empty.output) ∧
    ∀ n, Characters n [0xc3, 0xa4] → ∃ output, CanonicalString n [0xc3, 0xa4] output ∧
      encodeString Platform.simple.plain [0xc3, 0xa4] .empty = .ok (true, Encoder.empty.write output) := by
  have hwidth : charWidth 0xc3 = [(0xa4 : UInt8)].length + 1 := by decide
  have hchar : Characters 1 [0xc3, 0xa4] := .cons hwidth .nil
  exact ⟨hchar, encodeString_canonical .simple [0xc3, 0xa4] (by decide) .empty⟩

/-- The lead bytes of a string. -/
def StringLead (b : UInt8) : Prop :=
  b.toNat ≤ 0x1f ∨ (0x30 ≤ b.toNat ∧ b.toNat ≤ 0x33) ∨ b.toNat = 0x52 ∨ b.toNat = 0x53

theorem StringSentence.lead {sentence value : Bytes} (h : StringSentence sentence value) :
    ∃ b bs, sentence = b :: bs ∧ StringLead b := by
  cases h with
  | final hh hc =>
    cases hh with
    | compact hb => exact ⟨_, _, rfl, .inl hb⟩
    | short hb => exact ⟨_, _, rfl, .inr (.inl hb)⟩
    | long hi lo => exact ⟨_, _, rfl, .inr (.inr (.inr rfl))⟩
  | chunk hc h => exact ⟨_, _, rfl, .inr (.inr (.inl rfl))⟩

theorem string_carries (P : Platform) {data : Bytes} {n : ℕ} (hdata : data.length < 2 ^ 32)
    (h : Characters n data) :
    Carries (encodeString P.plain data) (decodeString P.plain) data StringLead := by
  obtain ⟨sentence, hcanonical, hwrite⟩ := encodeString_characters P hdata h
  have hs := hcanonical.sentence
  obtain ⟨b, bs, rfl, hb⟩ := hs.lead
  refine ⟨b, bs, hb, hwrite, fun t => ?_⟩
  have hr := hs.reads (P := P.plain) t ([], false)
  rw [decodeString_plain]
  have hread := hr.bind (f := fun out => pure out.1) (reads_pure _ t)
  rwa [List.append_nil] at hread

end Hessian2
