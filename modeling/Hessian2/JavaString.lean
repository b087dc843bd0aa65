import Hessian2.Surrogates

/-!
# Strings in builds that are compatible with the Java library

What `encode<absl::string_view>` writes and `decode<std::string>` reads when
`COMPATIBLE_WITH_JAVA_HESSIAN_LITE` is defined.

* `decodeString_java_reads`, `encodeString_java_characters` : reading and writing, in terms of
  `joined` and `halves`.
* `decodeString_java_plain` : **the builds differ only on pairs of surrogates.**
* `utf8`, `utf16`, `unitBytes` : text, its code units, and their bytes.
* `encodeString_java` : **text is written in chunks of code units and read back.**
* `decodeString_java` : **text is read from any chunks of its code units.**
* `java_unaltered_iff` : **the strings that come back unchanged.**
-/

namespace Hessian2

open Parsing Parsing.Parser Reader Enc

/-- The build that is compatible with the Java library. -/
def Platform.java (P : Platform) : Platform := { P with javaHessianLite := true }

@[simp] theorem Platform.java_javaHessianLite (P : Platform) : P.java.javaHessianLite = true := rfl

variable {P : Platform}

/-! ### Reading -/

theorem joined_ne_nil {cs : List Bytes} (hcs : ∀ c ∈ cs, IsCharacter c) (h : cs ≠ []) :
    (joined cs).flatten ≠ [] := by
  cases cs with
  | nil => exact absurd rfl h
  | cons c cs =>
    obtain ⟨b, tail, rfl, -⟩ := hcs c List.mem_cons_self
    cases cs with
    | nil => simp [joined]
    | cons d cs =>
      rw [joined]
      split <;> simp [fourBytes]

/-- The coarse check for surrogates sees every first half of a pair. -/
theorem unpaired_of_startsSurrogate {cs : List Bytes} (hcs : ∀ c ∈ cs, IsCharacter c)
    (h : startsSurrogate cs.flatten = false) : Unpaired cs := by
  rw [startsSurrogate, decide_eq_false_iff_not, Words.leads_flatten hcs] at h
  refine List.Pairwise.isChain (List.pairwise_of_forall_mem_list ?_)
  rintro c hc d - ⟨hhigh, -⟩
  obtain ⟨b, tail, rfl, -⟩ := hcs c hc
  obtain rfl := isHighSurrogate_lead hhigh
  exact h (List.mem_filterMap.2 ⟨_, hc, rfl⟩)

/-- A sentence is read, and the pairs in it are joined. -/
theorem decodeString_java_reads {sentence : Bytes} {cs : List Bytes}
    (hcs : ∀ c ∈ cs, IsCharacter c) (h : StringSentence sentence cs.flatten) (t : Tables) :
    Reads (decodeString P.java) t sentence (joined cs).flatten t := by
  have hread := h.reads (P := P.java) t ([], false)
  rw [← List.append_nil sentence, decodeString]
  refine hread.bind ?_
  simp only [join, List.nil_append, Bool.false_or, Platform.java_javaHessianLite, true_and]
  cases hsur : startsSurrogate cs.flatten with
  | false =>
    rw [joined_eq_self (unpaired_of_startsSurrogate hcs hsur)]
    exact reads_pure _ t
  | true =>
    have hne : cs ≠ [] := by
      rintro rfl
      cases hsur
    rw [unescapeFourBytesUtf8Char, unescapeFrom_joined hcs, Option.getD_some,
      if_neg (joined_ne_nil hcs hne)]
    exact reads_pure _ t

/-- What a plain build reads, with its pairs joined. -/
theorem decodeString_java_of_plain {s s' : State UInt8 Tables} {cs : List Bytes}
    (hcs : ∀ c ∈ cs, IsCharacter c) (h : decodeString P.plain s = .ok cs.flatten s') :
    decodeString P.java s = .ok (joined cs).flatten s' := by
  obtain ⟨sentence, rest, hu, hs, rfl⟩ := decodeString_ok_iff.1 h
  exact decodeString_java_reads hcs hs s.aux s.cursor rest hu

theorem decodeString_plain_of_java {s s' : State UInt8 Tables} {value : Bytes}
    (h : decodeString P.java s = .ok value s') : ∃ value', decodeString P.plain s = .ok value' s' := by
  have hread := h
  rw [decodeString] at hread
  obtain ⟨r, s₁, h₁, -⟩ := Parser.bind_eq_ok.1 hread
  obtain ⟨sentence, value', hu, -, hs, -⟩ := decodeStringWithReader_ok h₁
  obtain ⟨n, hchars⟩ := hs.characters
  obtain ⟨cs, -, hcs, rfl⟩ := Words.split_iff_words.1 hchars
  have hplain := decodeString_ok_iff (P := P).2 ⟨sentence, _, hu, hs, rfl⟩
  have hjava := decodeString_java_of_plain hcs hplain
  rw [h] at hjava
  cases hjava
  exact ⟨_, hplain⟩

/-- Where a pair is in the text, the coarse check has seen it. -/
theorem decodeStringWithReader_flag {s s' : State UInt8 Tables} {cs : List Bytes}
    (hcs : ∀ c ∈ cs, IsCharacter c) (h : decodeString P.plain s = .ok cs.flatten s')
    (hpair : ¬ Unpaired cs) : decodeStringWithReader P.java s = .ok (cs.flatten, true) s' := by
  obtain ⟨sentence, rest, hu, hs, rfl⟩ := decodeString_ok_iff.1 h
  have hread := hs.reads (P := P.java) s.aux ([], false) s.cursor rest hu
  have hflag : startsSurrogate cs.flatten = true :=
    Bool.not_eq_false _ ▸ fun hf => hpair (unpaired_of_startsSurrogate hcs hf)
  rwa [join, List.nil_append, Bool.false_or, hflag] at hread

/-- **The builds differ only on pairs of surrogates**: they accept the same inputs and read the same
bytes of them, and they return the same string unless the second half of a pair stands directly
behind a first one, which the coarse check does not miss. -/
theorem decodeString_java_plain (P : Platform) (s : State UInt8 Tables) :
    (∀ s', (∃ value, decodeString P.java s = .ok value s') ↔
      ∃ value, decodeString P.plain s = .ok value s') ∧
    ∀ value s', decodeString P.plain s = .ok value s' →
      (∃ n, Characters n value) ∧
      ∀ cs : List Bytes, (∀ c ∈ cs, IsCharacter c) → cs.flatten = value →
        decodeString P.java s = .ok (joined cs).flatten s' ∧
        (Unpaired cs → decodeString P.java s = .ok value s') ∧
        (¬ Unpaired cs → decodeStringWithReader P.java s = .ok (value, true) s') := by
  have hchars : ∀ {value s'}, decodeString P.plain s = .ok value s' → ∃ n, Characters n value := by
    intro value s' h
    obtain ⟨sentence, rest, hu, hs, -⟩ := decodeString_ok_iff.1 h
    exact hs.characters
  refine ⟨fun s' => ⟨fun ⟨value, h⟩ => decodeString_plain_of_java h, fun ⟨value, h⟩ => ?_⟩,
    fun value s' h => ⟨hchars h, ?_⟩⟩
  · obtain ⟨n, hn⟩ := hchars h
    obtain ⟨cs, -, hcs, rfl⟩ := Words.split_iff_words.1 hn
    exact ⟨_, decodeString_java_of_plain hcs h⟩
  · rintro cs hcs rfl
    have hjava := decodeString_java_of_plain hcs h
    refine ⟨hjava, fun hunpaired => ?_, decodeStringWithReader_flag hcs h⟩
    rwa [joined_eq_self hunpaired] at hjava

/-! ### Writing -/

theorem isCharacter_threeBytes {u : ℕ} (hu : u < 0x10000) : IsCharacter (threeBytes u) := by
  refine ⟨_, _, rfl, ?_⟩
  rw [charWidth, toNat_ofNat (by omega), if_neg (by omega), if_neg (by omega), if_pos (by omega)]
  rfl

theorem isCharacter_halves {c e : Bytes} (hc : IsCharacter c) (hs : Supplementary c)
    (he : e ∈ halves c) : IsCharacter e := by
  rw [halves] at he
  split at he
  · next hfour =>
    have hrange := hs hfour
    rw [List.mem_pair] at he
    rcases he with rfl | rfl
    · exact isCharacter_threeBytes (by rw [highSurrogate]; omega)
    · exact isCharacter_threeBytes (by rw [lowSurrogate]; omega)
  · rw [List.mem_singleton] at he
    rwa [he]

theorem halves_ne_nil (c : Bytes) : halves c ≠ [] := by
  rw [halves]
  split <;> simp

/-- Without 4-byte characters nothing is split. -/
theorem flatMap_halves_eq_self {cs : List Bytes} (h : ∀ c ∈ cs, c.length ≠ 4) :
    cs.flatMap halves = cs := by
  have hsingle : cs.flatMap halves = cs.flatMap fun c => [c] :=
    List.flatMap_congr fun c hc => by rw [halves, if_neg (h c hc)]
  rw [hsingle, List.flatMap_singleton']

/-- Splitting makes a string longer by half at most. -/
theorem length_flatMap_halves (cs : List Bytes) :
    2 * (cs.flatMap halves).flatten.length ≤ 3 * cs.flatten.length := by
  induction cs with
  | nil => exact Nat.le_refl 0
  | cons c cs ih =>
    have hc : 2 * (halves c).flatten.length ≤ 3 * c.length := by
      rw [halves]
      split
      · next hfour =>
        rw [hfour]
        exact Nat.le_refl 12
      · rw [List.flatten_singleton]
        omega
    rw [List.flatMap_cons, List.flatten_append, List.flatten_cons, List.length_append,
      List.length_append]
    omega

/-- A string whose 4-byte characters are supplementary is written with these split. -/
theorem encodeString_java_characters {cs : List Bytes} (hcs : ∀ c ∈ cs, IsCharacter c)
    (hs : ∀ c ∈ cs, Supplementary c) (hlen : (cs.flatMap halves).flatten.length < 2 ^ 32) :
    ∃ output, CanonicalString (cs.flatMap halves).length (cs.flatMap halves).flatten output ∧
      ∀ e, encodeString P.java cs.flatten e = .ok (true, e.write output) := by
  have hes : ∀ e ∈ cs.flatMap halves, IsCharacter e := by
    intro e he
    obtain ⟨c, hc, he⟩ := List.mem_flatMap.1 he
    exact isCharacter_halves (hcs c hc) (hs c hc) he
  obtain ⟨offsets, hfirst, hcount, hchunks⟩ := getUtf8StringLengthAndPerChunkOffsets_characters
    (Words.split_iff_words.2 ⟨cs, rfl, hcs, rfl⟩)
  obtain ⟨offsets', hfirst', hcount', hchunks'⟩ := getUtf8StringLengthAndPerChunkOffsets_characters
    (Words.split_iff_words.2 ⟨cs.flatMap halves, rfl, hes, rfl⟩)
  have hfour := getUtf8StringLengthAndPerChunkOffsets_fourBytes hcs hfirst
  -- without supplementary characters nothing is rewritten
  by_cases hnone : ∀ c ∈ cs, c.length ≠ 4
  · rw [flatMap_halves_eq_self hnone] at hlen ⊢
    obtain ⟨output, hcanonical, hwrite⟩ := writeString_canonical hlen hcount hchunks
    refine ⟨output, hcanonical, fun e => ?_⟩
    rw [encodeString, hfirst, ← hwrite e]
    dsimp only
    rw [if_neg fun h => h.2 (hfour.trans (fourBytePositions_eq_nil.2 hnone))]
  · obtain ⟨output, hcanonical, hwrite⟩ := writeString_canonical hlen hcount' hchunks'
    refine ⟨output, hcanonical, fun e => ?_⟩
    -- the rewriting has not failed
    have hne : (cs.flatMap halves).flatten ≠ [] := by
      obtain ⟨c, hc, -⟩ := by simpa using hnone
      obtain ⟨e, he⟩ := List.exists_mem_of_ne_nil _ (halves_ne_nil c)
      obtain ⟨b, tail, rfl, -⟩ := hes e (List.mem_flatMap.2 ⟨c, hc, he⟩)
      intro hnil
      exact absurd (List.flatten_eq_nil_iff.1 hnil _ (List.mem_flatMap.2 ⟨c, hc, he⟩)) (by simp)
    have hescape : escapeFourBytesUtf8Char cs.flatten offsets.fourBytesCharOffsets =
        (cs.flatMap halves).flatten := by
      rw [escapeFourBytesUtf8Char, hfour]
      exact congrArg (·.getD []) (escapeFrom_halves hs (List.nil_append _).symm (Nat.le_refl 0))
    rw [encodeString, hfirst]
    dsimp only
    rw [if_pos ⟨rfl, fun h => hnone (fourBytePositions_eq_nil.1 (hfour.symm.trans h))⟩, hescape,
      if_neg hne, hfirst', ← hwrite e]

/-- A string with a 4-byte character that is not supplementary is refused. -/
theorem encodeString_java_refuses {cs : List Bytes} (hcs : ∀ c ∈ cs, IsCharacter c)
    (hs : ¬ ∀ c ∈ cs, Supplementary c) (e : Encoder) :
    encodeString P.java cs.flatten e = .ok (false, e.refuse cs.flatten) := by
  obtain ⟨offsets, hfirst, -, -⟩ := getUtf8StringLengthAndPerChunkOffsets_characters
    (Words.split_iff_words.2 ⟨cs, rfl, hcs, rfl⟩)
  have hfour := getUtf8StringLengthAndPerChunkOffsets_fourBytes hcs hfirst
  have hsome : offsets.fourBytesCharOffsets ≠ [] := by
    rw [hfour]
    exact fun h => hs fun c hc h4 => absurd h4 (fourBytePositions_eq_nil.1 h c hc)
  have hescape : escapeFourBytesUtf8Char cs.flatten offsets.fourBytesCharOffsets = [] := by
    rw [escapeFourBytesUtf8Char, hfour]
    exact congrArg (·.getD []) (escapeFrom_eq_none hs (List.nil_append _).symm (Nat.le_refl 0))
  rw [encodeString, hfirst]
  dsimp only
  rw [if_pos ⟨rfl, hsome⟩, if_pos hescape]
  rfl

/-! ### Any strings -/

/-- What a string becomes on its way. -/
theorem java_carries {cs : List Bytes} (hcs : ∀ c ∈ cs, IsCharacter c)
    (hs : ∀ c ∈ cs, Supplementary c) (hlen : (cs.flatMap halves).flatten.length < 2 ^ 32) :
    Carries (encodeString P.java cs.flatten) (decodeString P.java)
      ((joined cs).map canonical).flatten StringLead := by
  obtain ⟨sentence, hcanonical, hwrite⟩ := encodeString_java_characters (P := P) hcs hs hlen
  have hsentence := hcanonical.sentence
  obtain ⟨b, bs, rfl, hb⟩ := hsentence.lead
  refine ⟨b, bs, hb, hwrite, fun t => ?_⟩
  rw [← joined_halves hs]
  refine decodeString_java_reads (fun e he => ?_) hsentence t
  obtain ⟨c, hc, he⟩ := List.mem_flatMap.1 he
  exact isCharacter_halves (hcs c hc) (hs c hc) he

/-- The string, if it is made of characters and has no 4-byte character but supplementary ones, has
no pair of surrogates, and its 4-byte characters have continuation bytes. -/
def Restorable (data : Bytes) : Prop :=
  ∀ cs : List Bytes, (∀ c ∈ cs, IsCharacter c) → cs.flatten = data → (∀ c ∈ cs, Supplementary c) →
    Unpaired cs ∧ ∀ c ∈ cs, Continued c

/-- **The strings that `encode<absl::string_view>` does not alter**: what is accepted comes back
unchanged exactly if it has no pair of surrogates and its 4-byte characters have continuation
bytes. -/
theorem java_unaltered_iff (P : Platform) (data : Bytes) (hdata : data.length < 2 ^ 31)
    (e : Encoder) :
    (∀ e', encodeString P.java data e = .ok (true, e') →
      Carries (encodeString P.java data) (decodeString P.java) data StringLead) ↔
    Restorable data := by
  constructor
  · rintro h cs hcs rfl hs
    have hlen := length_flatMap_halves cs
    have hcarries := java_carries (P := P) hcs hs (by omega)
    obtain ⟨b, bs, -, hwrite, -⟩ := id hcarries
    have hsame := hcarries.unique (h _ (hwrite e))
    obtain ⟨hunpaired, hcanonical⟩ := flatten_canonical_eq_iff.1 hsame
    exact ⟨hunpaired, fun c hc => (canonical_eq_self_iff (hcs c hc)).1 (hcanonical c hc)⟩
  · intro h e' he
    -- any other string is refused
    by_cases hchars : ∃ n, Characters n data
    · obtain ⟨n, hn⟩ := hchars
      obtain ⟨cs, -, hcs, rfl⟩ := Words.split_iff_words.1 hn
      by_cases hs : ∀ c ∈ cs, Supplementary c
      · have hlen := length_flatMap_halves cs
        have hcarries := java_carries (P := P) hcs hs (by omega)
        obtain ⟨hunpaired, hcontinued⟩ := h cs hcs rfl hs
        rwa [flatten_canonical_eq_iff.2 ⟨hunpaired, fun c hc =>
          (canonical_eq_self_iff (hcs c hc)).2 (hcontinued c hc)⟩] at hcarries
      · rw [encodeString_java_refuses hcs hs] at he
        cases he
    · rw [encodeString_no_characters P.java hchars] at he
      cases he

/-- The string of the last code point. -/
theorem java_unaltered_last :
    (∀ e', encodeString Platform.simple.java [0xF4, 0x8F, 0xBF, 0xBF] .empty = .ok (true, e') →
      Carries (encodeString Platform.simple.java [0xF4, 0x8F, 0xBF, 0xBF])
        (decodeString Platform.simple.java) [0xF4, 0x8F, 0xBF, 0xBF] StringLead) ↔
    Restorable [0xF4, 0x8F, 0xBF, 0xBF] :=
  java_unaltered_iff .simple [0xF4, 0x8F, 0xBF, 0xBF] (by decide) .empty

/-- A character of four bytes, of which the third is no continuation byte, comes back changed. -/
theorem java_alters :
    (∃ e', encodeString Platform.simple.java [0xF0, 0x90, 0xC0, 0x80] .empty = .ok (true, e')) ∧
      ¬ Carries (encodeString Platform.simple.java [0xF0, 0x90, 0xC0, 0x80])
        (decodeString Platform.simple.java) [0xF0, 0x90, 0xC0, 0x80] StringLead := by
  have hcs : ∀ c ∈ [([0xF0, 0x90, 0xC0, 0x80] : Bytes)], IsCharacter c := by
    simpa using ⟨_, _, rfl, rfl⟩
  have hcarries := java_carries (P := .simple) hcs (by decide) (by decide)
  obtain ⟨b, bs, -, hwrite, -⟩ := id hcarries
  refine ⟨⟨_, hwrite .empty⟩, fun h => ?_⟩
  have hsame := hcarries.unique h
  revert hsame
  decide

/-- The string is made of characters and can be measured, and if the build is compatible with the
Java library, it has no 4-byte character but supplementary ones with continuation bytes, and no pair
of surrogates. -/
def Intact (P : Platform) (s : Bytes) : Prop :=
  ∃ cs : List Bytes, (∀ c ∈ cs, IsCharacter c) ∧ cs.flatten = s ∧
    if P.javaHessianLite then (cs.flatMap halves).flatten.length < 2 ^ 32 ∧
      (∀ c ∈ cs, Supplementary c) ∧ Unpaired cs ∧ ∀ c ∈ cs, Continued c
    else s.length < 2 ^ 32

/-- In a plain build it is enough to be made of characters. -/
theorem Intact.of_characters (hP : P.javaHessianLite = false) {n : ℕ} {s : Bytes}
    (h : Characters n s) (hs : s.length < 2 ^ 32) : Intact P s := by
  obtain ⟨cs, -, hcs, hflat⟩ := Words.split_iff_words.1 h
  refine ⟨cs, hcs, hflat, ?_⟩
  rw [if_neg (by rw [hP]; exact Bool.false_ne_true)]
  exact hs

/-- A single byte below 128 is a character. -/
theorem Intact.letter (hP : P.javaHessianLite = false) {b : UInt8} (hb : b.toNat < 0x80) :
    Intact P [b] := by
  have hword : Characters 1 [b] := by
    have hwidth : charWidth b = ([] : Bytes).length + 1 := if_pos (by omega)
    exact .cons hwidth .nil
  exact .of_characters hP hword (Nat.one_lt_two_pow (by decide))

/-- Such a string is accepted and comes back unchanged. -/
theorem Intact.carries {s : Bytes} (h : Intact P s) :
    Carries (encodeString P s) (decodeString P) s StringLead := by
  obtain ⟨cs, hcs, rfl, h⟩ := h
  cases hlite : P.javaHessianLite with
  | false =>
    rw [if_neg (by rw [hlite]; exact Bool.false_ne_true)] at h
    have hplain : P.plain = P := by rw [Platform.plain, ← hlite]
    have hcarries := string_carries P h (Words.split_iff_words.2 ⟨cs, rfl, hcs, rfl⟩)
    rwa [hplain] at hcarries
  | true =>
    rw [if_pos hlite] at h
    obtain ⟨hlen, hs, hunpaired, hcontinued⟩ := h
    have hjava : P.java = P := by rw [Platform.java, ← hlite]
    have hcarries := java_carries (P := P) hcs hs hlen
    rwa [hjava, flatten_canonical_eq_iff.2 ⟨hunpaired, fun c hc =>
      (canonical_eq_self_iff (hcs c hc)).2 (hcontinued c hc)⟩] at hcarries

/-! ### Text -/

/-- The UTF-8 encoding of a sequence of Unicode scalar values. -/
def utf8 (text : List Char) : Bytes := text.flatMap String.utf8EncodeChar

/-- The UTF-16 code units of a character. -/
def utf16 (c : Char) : List ℕ :=
  if c.toNat < 0x10000 then [c.toNat] else [highSurrogate c.toNat, lowSurrogate c.toNat]

/-- A code unit as a byte sequence of its own. -/
def unitBytes (u : ℕ) : Bytes :=
  if u < 0x80 then [.ofNat u]
  else if u < 0x800 then [.ofNat (0xC0 + u / 64), .ofNat (0x80 + u % 64)]
  else threeBytes u

/-- A character as the library for Java sends it: its code units one by one if it is a supplementary
one, and its UTF-8 encoding otherwise. -/
def javaBytes (c : Char) : Bytes :=
  if c.toNat < 0x10000 then String.utf8EncodeChar c
  else threeBytes (highSurrogate c.toNat) ++ threeBytes (lowSurrogate c.toNat)

theorem char_range (c : Char) : c.toNat < 0xD800 ∨ 0xDFFF < c.toNat ∧ c.toNat < 0x110000 := c.valid

theorem utf8EncodeChar_of_lt {c : Char} (h : c.toNat < 0x10000) :
    String.utf8EncodeChar c = unitBytes c.toNat := by
  have hv : c.val.toNat = c.toNat := rfl
  rw [String.utf8EncodeChar, unitBytes, hv]
  by_cases h₁ : c.toNat < 0x80
  · rw [if_pos (by omega), if_pos h₁]
  by_cases h₂ : c.toNat < 0x800
  · rw [if_neg (by omega), if_pos (by omega), if_neg h₁, if_pos h₂, Nat.add_comm 0xC0,
      Nat.add_comm 0x80, Nat.mod_eq_of_lt (show c.toNat / 64 < 0x20 by omega)]
  · rw [if_neg (by omega), if_neg (by omega), if_pos (by omega), if_neg h₁, if_neg h₂, threeBytes,
      Nat.add_comm 0xE0, Nat.add_comm 0x80, Nat.add_comm 0x80,
      Nat.mod_eq_of_lt (show c.toNat / 4096 < 0x10 by omega)]

theorem utf8EncodeChar_of_le {c : Char} (h : 0x10000 ≤ c.toNat) :
    String.utf8EncodeChar c = fourBytes c.toNat := by
  have hv : c.val.toNat = c.toNat := rfl
  have hrange := char_range c
  rw [String.utf8EncodeChar, fourBytes, hv]
  rw [if_neg (by omega), if_neg (by omega), if_neg (by omega), Nat.add_comm 0xF0,
    Nat.add_comm 0x80, Nat.add_comm 0x80, Nat.add_comm 0x80,
    Nat.mod_eq_of_lt (show c.toNat / 262144 < 0x08 by omega)]

theorem isCharacter_unitBytes {u : ℕ} (hu : u < 0x10000) : IsCharacter (unitBytes u) := by
  unfold unitBytes
  split_ifs with h₁ h₂
  · refine ⟨_, _, rfl, ?_⟩
    rw [charWidth, toNat_ofNat (by omega), if_pos (by omega)]
    rfl
  · refine ⟨_, _, rfl, ?_⟩
    rw [charWidth, toNat_ofNat (by omega), if_neg (by omega), if_pos (by omega)]
    rfl
  · exact isCharacter_threeBytes hu

theorem isCharacter_fourBytes {u : ℕ} (hu : u < 0x200000) : IsCharacter (fourBytes u) := by
  refine ⟨_, _, rfl, ?_⟩
  rw [charWidth, toNat_ofNat (by omega), if_neg (by omega), if_neg (by omega), if_neg (by omega),
    if_pos (by omega)]
  rfl

theorem length_unitBytes_ne_four (u : ℕ) : (unitBytes u).length ≠ 4 := by
  unfold unitBytes
  split_ifs <;> simp [threeBytes]

/-- What is known of the UTF-8 encoding of a character. -/
theorem utf8EncodeChar_spec (c : Char) :
    IsCharacter (String.utf8EncodeChar c) ∧ Supplementary (String.utf8EncodeChar c) ∧
      canonical (String.utf8EncodeChar c) = String.utf8EncodeChar c ∧
      halves (String.utf8EncodeChar c) = (utf16 c).map unitBytes := by
  have hrange := char_range c
  rcases Nat.lt_or_ge c.toNat 0x10000 with h | h
  · rw [utf8EncodeChar_of_lt h, canonical, halves, utf16, if_pos h,
      if_neg (length_unitBytes_ne_four _), if_neg (length_unitBytes_ne_four _)]
    exact ⟨isCharacter_unitBytes h, fun h4 => absurd h4 (length_unitBytes_ne_four _), rfl, rfl⟩
  · have hpoint := codePoint_fourBytes (u := c.toNat) (by omega)
    have hfour : (fourBytes c.toNat).length = 4 := rfl
    rw [utf8EncodeChar_of_le h, Supplementary, canonical, halves, utf16, if_pos hfour, if_pos hfour,
      hpoint, if_neg (by omega)]
    refine ⟨isCharacter_fourBytes (by omega), fun _ => by omega, rfl, ?_⟩
    rw [List.map_cons, List.map_singleton, unitBytes, unitBytes, highSurrogate, lowSurrogate,
      if_neg (by omega), if_neg (by omega), if_neg (by omega), if_neg (by omega)]

/-- No character is a first half of a pair. -/
theorem not_isHighSurrogate_utf8EncodeChar (c : Char) :
    ¬ isHighSurrogate (String.utf8EncodeChar c) := by
  intro hhigh
  have hlen := isHighSurrogate_length hhigh
  have hrange := char_range c
  rcases Nat.lt_or_ge c.toNat 0x10000 with h | h
  · rw [utf8EncodeChar_of_lt h, unitBytes] at hhigh hlen
    split_ifs at hhigh hlen with h₁ h₂
    · cases hlen
    · cases hlen
    · rw [threeBytes, isHighSurrogate, decide_eq_true_eq, ← UInt8.toNat_inj,
        toNat_ofNat (by omega), toNat_ofNat (by omega)] at hhigh
      simp only [UInt8.reduceToNat] at hhigh
      omega
  · rw [utf8EncodeChar_of_le h] at hlen
    cases hlen

variable (text : List Char)

theorem utf8_eq_flatten : utf8 text = (text.map String.utf8EncodeChar).flatten := rfl

theorem isCharacter_of_text : ∀ c ∈ text.map String.utf8EncodeChar, IsCharacter c :=
  List.forall_mem_map.2 fun c _ => (utf8EncodeChar_spec c).1

theorem supplementary_of_text : ∀ c ∈ text.map String.utf8EncodeChar, Supplementary c :=
  List.forall_mem_map.2 fun c _ => (utf8EncodeChar_spec c).2.1

/-- The units of a text are what its characters are split into. -/
theorem flatMap_halves_text :
    (text.map String.utf8EncodeChar).flatMap halves = (text.flatMap utf16).map unitBytes := by
  rw [List.flatMap_map, List.map_flatMap]
  exact List.flatMap_congr fun c _ => (utf8EncodeChar_spec c).2.2.2

/-- The units of a text are joined to it. -/
theorem joined_units : (joined ((text.flatMap utf16).map unitBytes)).flatten = utf8 text := by
  have hunpaired : Unpaired (text.map String.utf8EncodeChar) := by
    refine List.Pairwise.isChain (List.pairwise_of_forall_mem_list ?_)
    rintro c hc d - ⟨hhigh, -⟩
    obtain ⟨c, -, rfl⟩ := List.mem_map.1 hc
    exact not_isHighSurrogate_utf8EncodeChar c hhigh
  rw [← flatMap_halves_text, joined_halves (supplementary_of_text text), utf8_eq_flatten]
  exact flatten_canonical_eq_iff.2
    ⟨hunpaired, List.forall_mem_map.2 fun c _ => (utf8EncodeChar_spec c).2.2.1⟩

theorem isCharacter_units : ∀ c ∈ (text.flatMap utf16).map unitBytes, IsCharacter c := by
  rw [← flatMap_halves_text]
  intro e he
  obtain ⟨c, hc, he⟩ := List.mem_flatMap.1 he
  exact isCharacter_halves (isCharacter_of_text text c hc) (supplementary_of_text text c hc) he

/-- The bytes of the units. -/
theorem flatMap_unitBytes : (text.flatMap utf16).flatMap unitBytes = text.flatMap javaBytes := by
  rw [List.flatMap_assoc]
  refine List.flatMap_congr fun c _ => ?_
  have hspec := (utf8EncodeChar_spec c).2.2.2
  rw [utf16, javaBytes]
  split
  · next h => rw [List.flatMap_singleton, utf8EncodeChar_of_lt h]
  · next h =>
    have hrange := char_range c
    rw [List.flatMap_cons, List.flatMap_singleton, unitBytes, unitBytes, highSurrogate,
      lowSurrogate, if_neg (by omega), if_neg (by omega), if_neg (by omega), if_neg (by omega)]

/-! ### Chunks of code units -/

/-- Chunks of code units: the non-final ones and a final one with the given header. -/
def unitChunks (chunks : List (List ℕ)) (header : Bytes) (last : List ℕ) : Bytes :=
  chunks.flatMap (fun chunk =>
    0x52 :: (bigEndianBytes .uint16 chunk.length ++ chunk.flatMap unitBytes)) ++
  (header ++ last.flatMap unitBytes)

theorem characters_units {us : List ℕ} (h : ∀ u ∈ us, IsCharacter (unitBytes u)) :
    Characters us.length (us.flatMap unitBytes) :=
  Words.split_iff_words.2
    ⟨us.map unitBytes, List.length_map unitBytes, List.forall_mem_map.2 h, rfl⟩

/-- Chunks of code units are a sentence, whatever their sizes. -/
theorem unitChunks_sentence {chunks : List (List ℕ)} {header : Bytes} {last : List ℕ}
    (hsize : ∀ chunk ∈ chunks, chunk.length ≤ 65535) (hh : FinalHeader header last.length)
    (hu : ∀ u ∈ chunks.flatten ++ last, IsCharacter (unitBytes u)) :
    StringSentence (unitChunks chunks header last)
      ((chunks.flatten ++ last).map unitBytes).flatten := by
  induction chunks with
  | nil => exact .final hh (characters_units hu)
  | cons chunk chunks ih =>
    rw [List.forall_mem_cons] at hsize
    rw [List.flatten_cons, List.append_assoc, List.forall_mem_append] at hu
    obtain ⟨hi, lo, hbytes⟩ := List.length_eq_two.1 (length_bigEndianBytes .uint16 chunk.length)
    have hcount := bigEndian_uint16 (n := chunk.length) (by omega)
    rw [hbytes, bigEndian_pair] at hcount
    have hchars := characters_units hu.1
    rw [← hcount] at hchars
    have hchunk := StringSentence.chunk hchars (ih hsize.2 hu.2)
    rw [List.flatten_cons, List.append_assoc, List.map_append, List.flatten_append]
    simpa only [unitChunks, List.flatMap_cons, hbytes, List.cons_append, List.nil_append,
      List.append_assoc, ← List.flatMap_def] using hchunk

/-- A sentence for the units of a text is read as the text. -/
theorem units_reads {text : List Char} {sentence : Bytes}
    (h : StringSentence sentence ((text.flatMap utf16).map unitBytes).flatten) (t : Tables) :
    Reads (decodeString P.java) t sentence (utf8 text) t := by
  rw [← joined_units text]
  exact decodeString_java_reads (isCharacter_units text) h t

/-- **Text is read from any chunks of its code units**, also from chunks that are cut inside a pair
of surrogates. -/
theorem decodeString_java (P : Platform) (text : List Char) (chunks : List (List ℕ))
    (last : List ℕ) (header : Bytes) (hcut : chunks.flatten ++ last = text.flatMap utf16)
    (hsize : ∀ chunk ∈ chunks, chunk.length ≤ 65535) (hh : FinalHeader header last.length)
    (t : Tables) :
    Reads (decodeString P.java) t (unitChunks chunks header last) (utf8 text) t := by
  have hsentence := unitChunks_sentence hsize hh fun u hu =>
    isCharacter_units text _ (List.mem_map_of_mem (hcut ▸ hu))
  rw [hcut] at hsentence
  exact units_reads hsentence t

/-- The last code point, cut between its surrogates. -/
theorem decodeString_java_cut : Reads (decodeString Platform.simple.java) .empty
    (unitChunks [[0xDBFF]] [0x53, 0x00, 0x01] [0xDFFF]) (utf8 [⟨0x10FFFF, by decide⟩]) .empty :=
  decodeString_java .simple [⟨0x10FFFF, by decide⟩] [[0xDBFF]] [0xDFFF] [0x53, 0x00, 0x01]
    (by decide) (by decide) (.long 0x00 0x01) .empty

/-! ### Text as it is written -/

theorem exists_words {n : ℕ} {chunks : List Bytes} (h : ∀ chunk ∈ chunks, Characters n chunk) :
    ∃ wss : List (List Bytes), wss.map List.flatten = chunks ∧
      ∀ ws ∈ wss, ws.length = n ∧ ∀ w ∈ ws, IsCharacter w := by
  induction chunks with
  | nil => exact ⟨[], rfl, by simp⟩
  | cons chunk chunks ih =>
    rw [List.forall_mem_cons] at h
    obtain ⟨wss, rfl, hall⟩ := ih h.2
    obtain ⟨ws, hlen, hws, rfl⟩ := Words.split_iff_words.1 h.1
    exact ⟨ws :: wss, rfl, List.forall_mem_cons.2 ⟨⟨hlen, hws⟩, hall⟩⟩

/-- The chunks of a canonical output as lists of characters. -/
theorem CanonicalString.words {n : ℕ} {es : List Bytes} {output : Bytes}
    (hes : ∀ e ∈ es, IsCharacter e) (h : CanonicalString n es.flatten output) :
    ∃ (chunks : List (List Bytes)) (last : List Bytes), chunks.flatten ++ last = es ∧
      (∀ chunk ∈ chunks, chunk.length = 32768) ∧ last.length ≤ 32768 ∧
      output = stringChunks (chunks.map List.flatten) last.length last.flatten := by
  obtain ⟨bytes, last, m, -, -, hm, hall, hlast, hjoin, rfl⟩ := h
  obtain ⟨chunks, rfl, hchunks⟩ := exists_words hall
  obtain ⟨ws, rfl, hws, rfl⟩ := Words.split_iff_words.1 hlast
  refine ⟨chunks, ws, ?_, fun chunk hc => (hchunks chunk hc).1, hm, rfl⟩
  refine Words.eq_of_flatten_eq (fun w hw => ?_) hes ?_
  · rcases List.mem_append.1 hw with hw | hw
    · obtain ⟨chunk, hc, hw⟩ := List.mem_flatten.1 hw
      exact (hchunks chunk hc).2 w hw
    · exact hws w hw
  · rw [List.flatten_append, List.flatten_flatten, hjoin]

/-- A list that is cut after it has been mapped can be cut before. -/
theorem exists_cut {α β : Type} {f : α → β} {as : List α} {wss : List (List β)}
    (h : as.map f = wss.flatten) :
    ∃ ass : List (List α), ass.flatten = as ∧ ass.map (List.map f) = wss := by
  induction wss generalizing as with
  | nil => exact ⟨[], by simpa using h.symm, rfl⟩
  | cons ws wss ih =>
    obtain ⟨as₁, as₂, rfl, rfl, hrest⟩ := List.map_eq_append_iff.1 h
    obtain ⟨ass, rfl, rfl⟩ := ih hrest
    exact ⟨as₁ :: ass, rfl, rfl⟩

/-- **Text is written in chunks of 32768 code units and a final one with the shortest header, and
read back.**  The payloads are the text with the supplementary characters rewritten. -/
theorem encodeString_java (P : Platform) (text : List Char)
    (hlen : (text.flatMap javaBytes).length < 2 ^ 32) :
    ∃ (chunks : List (List ℕ)) (last : List ℕ),
      chunks.flatten ++ last = text.flatMap utf16 ∧
      (chunks.flatten ++ last).flatMap unitBytes = text.flatMap javaBytes ∧
      (∀ chunk ∈ chunks, chunk.length = 32768) ∧ last.length ≤ 32768 ∧
      FinalHeader (shortestHeader last.length) last.length ∧
      (∀ e, encodeString P.java (utf8 text) e =
        .ok (true, e.write (unitChunks chunks (shortestHeader last.length) last))) ∧
      ∀ t, Reads (decodeString P.java) t (unitChunks chunks (shortestHeader last.length) last)
        (utf8 text) t := by
  have hunits := isCharacter_units text
  have hbytes := flatMap_unitBytes text
  obtain ⟨output, hcanonical, hwrite⟩ := encodeString_java_characters (P := P)
    (isCharacter_of_text text) (supplementary_of_text text)
    (by rw [flatMap_halves_text, ← List.flatMap_def, hbytes]; exact hlen)
  rw [flatMap_halves_text] at hcanonical
  obtain ⟨wss, ws, hjoin, hfull, hle, rfl⟩ := hcanonical.words hunits
  obtain ⟨us, last, hus, hwss, rfl⟩ := List.map_eq_append_iff.1 hjoin.symm
  obtain ⟨chunks, rfl, rfl⟩ := exists_cut hwss
  rw [List.length_map] at hle
  have hsize : ∀ chunk ∈ chunks, chunk.length = 32768 := fun chunk hc => by
    rw [← hfull _ (List.mem_map_of_mem hc), List.length_map]
  have hheader := shortestHeader_final hle
  -- the chunks of the bytes are the bytes of the chunks of code units
  have hsame : stringChunks ((chunks.map (List.map unitBytes)).map List.flatten)
      (last.map unitBytes).length (last.map unitBytes).flatten =
        unitChunks chunks (shortestHeader last.length) last := by
    have hcount : bigEndianBytes .uint16 (32768 : ℕ) = [0x80, 0x00] := by decide
    rw [stringChunks, unitChunks, List.length_map, List.flatMap_map, List.flatMap_map]
    congr 1
    refine List.flatMap_congr fun chunk hc => ?_
    rw [hsize chunk hc, hcount]
    rfl
  have hsentence := unitChunks_sentence (fun chunk hc => by rw [hsize chunk hc]; decide) hheader
    fun u hu => hunits _ (List.mem_map_of_mem (hus ▸ hu))
  rw [hsame] at hwrite
  rw [← hus] at hsentence
  exact ⟨chunks, last, hus.symm, by rw [← hus, hbytes], hsize, hle, hheader, hwrite,
    units_reads hsentence⟩

/-- A text of two supplementary characters. -/
theorem encodeString_java_pair :
    ∃ (chunks : List (List ℕ)) (last : List ℕ),
      chunks.flatten ++ last = [(⟨0x10000, by decide⟩ : Char), ⟨0x10FFFF, by decide⟩].flatMap utf16 ∧
      (chunks.flatten ++ last).flatMap unitBytes =
        [(⟨0x10000, by decide⟩ : Char), ⟨0x10FFFF, by decide⟩].flatMap javaBytes ∧
      (∀ chunk ∈ chunks, chunk.length = 32768) ∧ last.length ≤ 32768 ∧
      FinalHeader (shortestHeader last.length) last.length ∧
      (∀ e, encodeString Platform.simple.java
          (utf8 [(⟨0x10000, by decide⟩ : Char), ⟨0x10FFFF, by decide⟩]) e =
        .ok (true, e.write (unitChunks chunks (shortestHeader last.length) last))) ∧
      ∀ t, Reads (decodeString Platform.simple.java) t
        (unitChunks chunks (shortestHeader last.length) last)
        (utf8 [(⟨0x10000, by decide⟩ : Char), ⟨0x10FFFF, by decide⟩]) t :=
  encodeString_java .simple [⟨0x10000, by decide⟩, ⟨0x10FFFF, by decide⟩] (by decide)

end Hessian2
