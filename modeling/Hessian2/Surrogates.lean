import Hessian2.StringOutput

/-!
# Surrogates

Supplementary characters in builds that are compatible with the Java library: `string_codec.cc`
writes each as the 3-byte sequences of its two surrogates and joins them when it reads.  Strings are
taken as lists of characters here.

* `codePoint`, `threeBytes`, `fourBytes` : the bit arithmetic, in terms of sums.
* `isHighSurrogate`, `isLowSurrogate`, `joined` : what `unescapeFourBytesUtf8Char` joins.
* `halves` : what `escapeFourBytesUtf8Char` splits.
* `joined_halves` : what joining makes of a string that has been split.
-/

namespace Hessian2

open Parsing Parsing.Parser Reader

/-- A character: a lead byte with the bytes that it asks for. -/
abbrev IsCharacter (c : Bytes) : Prop := Words.IsWord charWidth c

/-! ### Bits -/

theorem or_eq_add {a b k : ℕ} (hb : b < 2 ^ k) : a * 2 ^ k ||| b = a * 2 ^ k + b := by
  rw [← Nat.shiftLeft_eq, Nat.shiftLeft_add_eq_or_of_lt hb]

/-- The 16-bit unit of a 3-byte sequence. -/
theorem unit_eq (a b c : ℕ) : (a &&& 0x0F) <<< 12 ||| (b &&& 0x3F) <<< 6 ||| (c &&& 0x3F) =
    a % 16 * 4096 + b % 64 * 64 + c % 64 := by
  have ha : a &&& 0x0F = a % 16 := Nat.and_two_pow_sub_one_eq_mod a 4
  have hb : b &&& 0x3F = b % 64 := Nat.and_two_pow_sub_one_eq_mod b 6
  have hc : c &&& 0x3F = c % 64 := Nat.and_two_pow_sub_one_eq_mod c 6
  rw [ha, hb, hc, Nat.or_assoc, Nat.shiftLeft_eq, Nat.shiftLeft_eq, or_eq_add (k := 6) (by omega),
    or_eq_add (k := 12) (by omega)]
  omega

/-- The code point of two surrogates. -/
theorem pair_eq (high low : ℕ) : ((high &&& 0x3FF) <<< 10 ||| (low &&& 0x3FF)) + 0x10000 =
    0x10000 + high % 1024 * 1024 + low % 1024 := by
  have hh : high &&& 0x3FF = high % 1024 := Nat.and_two_pow_sub_one_eq_mod high 10
  have hl : low &&& 0x3FF = low % 1024 := Nat.and_two_pow_sub_one_eq_mod low 10
  rw [hh, hl, Nat.shiftLeft_eq, or_eq_add (by omega)]
  omega

/-- The code point of a 4-byte sequence. -/
def codePoint : Bytes → ℕ
  | [b₀, b₁, b₂, b₃] =>
    b₀.toNat % 8 * 262144 + b₁.toNat % 64 * 4096 + b₂.toNat % 64 * 64 + b₃.toNat % 64
  | _ => 0

theorem codePoint_eq (b₀ b₁ b₂ b₃ : UInt8) :
    (b₀.toNat &&& 0x07) <<< 18 ||| (b₁.toNat &&& 0x3F) <<< 12 ||| (b₂.toNat &&& 0x3F) <<< 6 |||
      (b₃.toNat &&& 0x3F) = codePoint [b₀, b₁, b₂, b₃] := by
  have h₀ : b₀.toNat &&& 0x07 = b₀.toNat % 8 := Nat.and_two_pow_sub_one_eq_mod _ 3
  have h₁ : b₁.toNat &&& 0x3F = b₁.toNat % 64 := Nat.and_two_pow_sub_one_eq_mod _ 6
  have h₂ : b₂.toNat &&& 0x3F = b₂.toNat % 64 := Nat.and_two_pow_sub_one_eq_mod _ 6
  have h₃ : b₃.toNat &&& 0x3F = b₃.toNat % 64 := Nat.and_two_pow_sub_one_eq_mod _ 6
  rw [h₀, h₁, h₂, h₃, Nat.or_assoc, Nat.or_assoc, Nat.shiftLeft_eq, Nat.shiftLeft_eq,
    Nat.shiftLeft_eq, or_eq_add (k := 6) (by omega), or_eq_add (k := 12) (by omega),
    or_eq_add (k := 18) (by omega), codePoint]
  omega

/-- The 3-byte sequence of a 16-bit unit. -/
def threeBytes (u : ℕ) : Bytes :=
  [.ofNat (0xE0 + u / 4096), .ofNat (0x80 + u / 64 % 64), .ofNat (0x80 + u % 64)]

/-- The 4-byte sequence of a code point. -/
def fourBytes (u : ℕ) : Bytes :=
  [.ofNat (0xF0 + u / 262144), .ofNat (0x80 + u / 4096 % 64), .ofNat (0x80 + u / 64 % 64),
    .ofNat (0x80 + u % 64)]

theorem tail_eq (u : ℕ) : 0x80 ||| (u &&& 0x3F) = 0x80 + u % 64 := by
  have hu : u &&& 0x3F = u % 64 := Nat.and_two_pow_sub_one_eq_mod u 6
  rw [hu]
  exact or_eq_add (a := 2) (k := 6) (by omega)

theorem threeBytes_eq {u : ℕ} (hu : u < 0x10000) :
    [.ofNat (0xE0 ||| u >>> 12), .ofNat (0x80 ||| (u >>> 6 &&& 0x3F)),
      .ofNat (0x80 ||| (u &&& 0x3F))] = threeBytes u := by
  have h : 0xE0 ||| u / 4096 = 0xE0 + u / 4096 := or_eq_add (a := 14) (k := 4) (by omega)
  simp only [tail_eq, Nat.shiftRight_eq_div_pow, Nat.reducePow, h]
  rfl

theorem fourBytes_eq {u : ℕ} (hu : u < 0x200000) :
    [.ofNat (0xF0 ||| u >>> 18), .ofNat (0x80 ||| (u >>> 12 &&& 0x3F)),
      .ofNat (0x80 ||| (u >>> 6 &&& 0x3F)), .ofNat (0x80 ||| (u &&& 0x3F))] = fourBytes u := by
  have h : 0xF0 ||| u / 262144 = 0xF0 + u / 262144 := or_eq_add (a := 30) (k := 3) (by omega)
  simp only [tail_eq, Nat.shiftRight_eq_div_pow, Nat.reducePow, h]
  rfl

/-- The surrogates of a supplementary code point. -/
def highSurrogate (u : ℕ) : ℕ := 0xD800 + (u - 0x10000) / 1024

def lowSurrogate (u : ℕ) : ℕ := 0xDC00 + (u - 0x10000) % 1024

theorem surrogateBytes_eq {u : ℕ} (hu : u ≤ 0x10FFFF) :
    surrogateBytes u = threeBytes (highSurrogate u) ++ threeBytes (lowSurrogate u) := by
  have hl : (u - 0x10000) &&& 0x3FF = (u - 0x10000) % 1024 :=
    Nat.and_two_pow_sub_one_eq_mod _ 10
  rw [surrogateBytes, Nat.shiftRight_eq_div_pow, hl]
  simp only [Nat.reducePow]
  rw [threeBytes_eq (by omega), threeBytes_eq (by omega)]
  rfl

/-! ### Pairs -/

/-- The first half of a pair: `0xED`, a byte from `0xA0` to `0xAF`, and any byte. -/
def isHighSurrogate : Bytes → Bool
  | [a, b, _] => a = 0xED ∧ 0xA0 ≤ b.toNat ∧ b.toNat ≤ 0xAF
  | _ => false

/-- The second half of a pair: `0xED`, a byte from `0xB0` to `0xBF`, and any byte. -/
def isLowSurrogate : Bytes → Bool
  | [a, b, _] => a = 0xED ∧ 0xB0 ≤ b.toNat ∧ b.toNat ≤ 0xBF
  | _ => false

/-- The code point of a pair. -/
def pairPoint : Bytes → Bytes → ℕ
  | [_, b₁, b₂], [_, b₄, b₅] =>
    0x10000 + (b₁.toNat % 16 * 64 + b₂.toNat % 64) * 1024 + (b₄.toNat % 16 * 64 + b₅.toNat % 64)
  | _, _ => 0

/-- Join the pairs among the characters. -/
def joined : List Bytes → List Bytes
  | [] => []
  | [c] => [c]
  | c :: d :: cs =>
    if isHighSurrogate c ∧ isLowSurrogate d then fourBytes (pairPoint c d) :: joined cs
    else c :: joined (d :: cs)

theorem and_eq_high (b : UInt8) : b &&& 0xF0 = 0xA0 ↔ 0xA0 ≤ b.toNat ∧ b.toNat ≤ 0xAF := by
  have h : ∀ n < 256, n &&& 0xF0 = 0xA0 ↔ 0xA0 ≤ n ∧ n ≤ 0xAF := by decide +kernel
  rw [← UInt8.toNat_inj, UInt8.toNat_and]
  exact h b.toNat b.toNat_lt

theorem and_eq_low (b : UInt8) : b &&& 0xF0 = 0xB0 ↔ 0xB0 ≤ b.toNat ∧ b.toNat ≤ 0xBF := by
  have h : ∀ n < 256, n &&& 0xF0 = 0xB0 ↔ 0xB0 ≤ n ∧ n ≤ 0xBF := by decide +kernel
  rw [← UInt8.toNat_inj, UInt8.toNat_and]
  exact h b.toNat b.toNat_lt

/-- A pair begins with `0xED`, and so does its second half. -/
theorem surrogatePair?_eq_none {bs : Bytes} (h : bs.head? ≠ some 0xED ∨ bs[3]? ≠ some 0xED) :
    surrogatePair? bs = none := by
  unfold surrogatePair?
  split
  · rw [if_neg]
    rintro ⟨-, h₀, -, h₃, -⟩
    simp [h₀, h₃] at h
  · rfl

theorem surrogatePair?_eq (b₁ b₂ b₄ b₅ : UInt8) (rest : Bytes) :
    surrogatePair? (0xED :: b₁ :: b₂ :: 0xED :: b₄ :: b₅ :: rest) =
      if isHighSurrogate [0xED, b₁, b₂] ∧ isLowSurrogate [0xED, b₄, b₅] then
        some (fourBytes (pairPoint [0xED, b₁, b₂] [0xED, b₄, b₅])) else none := by
  have hwidth : utf8CharLength 0xED = 3 := by rw [utf8CharLength_eq]; rfl
  simp only [surrogatePair?, hwidth, and_eq_high, and_eq_low, isHighSurrogate, isLowSurrogate,
    decide_eq_true_eq, true_and, UInt8.reduceToNat]
  split
  · rw [unit_eq, unit_eq, pair_eq, fourBytes_eq (by omega), pairPoint]
    refine congrArg (fun u => some (fourBytes u)) ?_
    omega
  · rfl

/-- The lead of a half. -/
theorem isHighSurrogate_lead {b : UInt8} {tail : Bytes} (h : isHighSurrogate (b :: tail)) :
    b = 0xED := by
  unfold isHighSurrogate at h
  split at h
  · next heq => cases heq; simp at h; exact h.1
  · cases h

theorem isLowSurrogate_lead {b : UInt8} {tail : Bytes} (h : isLowSurrogate (b :: tail)) :
    b = 0xED := by
  unfold isLowSurrogate at h
  split at h
  · next heq => cases heq; simp at h; exact h.1
  · cases h

/-- Behind complete characters a pair is seen exactly if the first two are one. -/
theorem surrogatePair?_append {c d : Bytes} (hc : IsCharacter c) (hd : IsCharacter d)
    (rest : Bytes) : surrogatePair? (c ++ (d ++ rest)) =
      if isHighSurrogate c ∧ isLowSurrogate d then some (fourBytes (pairPoint c d)) else none := by
  obtain ⟨b, tail, rfl, hb⟩ := hc
  obtain ⟨b', tail', rfl, hb'⟩ := hd
  have hwidth : charWidth 0xED = 3 := rfl
  by_cases h : b = 0xED
  · subst h
    obtain ⟨b₁, b₂, rfl⟩ := List.length_eq_two.1 (Nat.succ.inj (hb.symm.trans hwidth))
    by_cases h' : b' = 0xED
    · subst h'
      obtain ⟨b₄, b₅, rfl⟩ := List.length_eq_two.1 (Nat.succ.inj (hb'.symm.trans hwidth))
      exact surrogatePair?_eq b₁ b₂ b₄ b₅ rest
    · rw [if_neg fun hp => h' (isLowSurrogate_lead hp.2)]
      exact surrogatePair?_eq_none (.inr (by simpa using h'))
  · rw [if_neg fun hp => h (isHighSurrogate_lead hp.1)]
    exact surrogatePair?_eq_none (.inl (by simpa using h))

theorem surrogatePair?_character {c : Bytes} (hc : IsCharacter c) : surrogatePair? c = none := by
  have hle : ∀ b, charWidth b ≤ 4 := by
    intro b
    unfold charWidth
    split_ifs <;> omega
  obtain ⟨b, tail, rfl, hb⟩ := hc
  have hlen := hle b
  unfold surrogatePair?
  split
  · next heq => rw [heq] at hb; simp only [List.length_cons] at hb; omega
  · rfl

/-! ### Joining -/

theorem unescapeFrom_skip {ts rest : Bytes} :
    unescapeFrom ts.length (ts ++ rest) = unescapeFrom 0 rest := by
  induction ts with
  | nil => rfl
  | cons t ts ih => rw [List.length_cons, List.cons_append, unescapeFrom, ih]

/-- A character at which no pair is seen is copied. -/
theorem unescapeFrom_copy {c rest : Bytes} (hc : IsCharacter c)
    (h : surrogatePair? (c ++ rest) = none) :
    unescapeFrom 0 (c ++ rest) = (unescapeFrom 0 rest).map (c ++ ·) := by
  obtain ⟨b, tail, rfl, hb⟩ := hc
  rw [List.length_cons] at hb
  have htake : (b :: (tail ++ rest)).take (tail.length + 1) = b :: tail := by
    rw [List.take_succ_cons, List.take_left]
  rw [List.cons_append] at h ⊢
  rw [unescapeFrom, h]
  dsimp only
  rw [utf8CharLength_eq, hb, if_pos (by simp), Nat.add_sub_cancel, htake, unescapeFrom_skip]

/-- `unescapeFourBytesUtf8Char` joins the pairs of a string. -/
theorem unescapeFrom_joined {cs : List Bytes} (hcs : ∀ c ∈ cs, IsCharacter c) :
    unescapeFrom 0 cs.flatten = some (joined cs).flatten := by
  induction cs using joined.induct with
  | case1 => rfl
  | case2 c =>
    have hc := hcs c List.mem_cons_self
    have hcopy := unescapeFrom_copy hc
      (by rw [List.append_nil, surrogatePair?_character hc])
    simpa [unescapeFrom, joined] using hcopy
  | case3 c d cs hpair ih =>
    simp only [List.forall_mem_cons] at hcs
    obtain ⟨hc, hd, hcs⟩ := hcs
    have hsee := surrogatePair?_append hc hd cs.flatten
    rw [if_pos hpair] at hsee
    rw [joined, if_pos hpair, List.flatten_cons, List.flatten_cons, List.flatten_cons]
    obtain ⟨b, tail, rfl, hb⟩ := hc
    obtain ⟨b', tail', rfl, hb'⟩ := hd
    obtain rfl := isHighSurrogate_lead hpair.1
    obtain rfl := isLowSurrogate_lead hpair.2
    -- both surrogates are three bytes long
    have hlen : 5 = (tail ++ 0xED :: tail').length := by
      have hwidth : charWidth 0xED = 3 := rfl
      simp only [List.length_cons, List.length_append] at hb hb' ⊢
      omega
    rw [List.cons_append] at hsee ⊢
    rw [unescapeFrom, hsee, ← List.append_assoc]
    dsimp only
    rw [hlen, unescapeFrom_skip, ih hcs]
    rfl
  | case4 c d cs hpair ih =>
    rw [List.forall_mem_cons] at hcs
    have hsee := surrogatePair?_append hcs.1 (hcs.2 d List.mem_cons_self) cs.flatten
    rw [if_neg hpair, ← List.flatten_cons] at hsee
    rw [joined, if_neg hpair, List.flatten_cons, unescapeFrom_copy hcs.1 hsee, ih hcs.2]
    rfl

/-! ### Splitting -/

/-- Replace a 4-byte character by its surrogates. -/
def halves (c : Bytes) : List Bytes :=
  if c.length = 4 then
    [threeBytes (highSurrogate (codePoint c)), threeBytes (lowSurrogate (codePoint c))]
  else [c]

/-- The code point of a 4-byte character is a supplementary one. -/
def Supplementary (c : Bytes) : Prop :=
  c.length = 4 → 0x10000 ≤ codePoint c ∧ codePoint c ≤ 0x10FFFF

instance (c : Bytes) : Decidable (Supplementary c) :=
  inferInstanceAs (Decidable (_ → _))

/-- The positions of the 4-byte characters, of which the first stands at `pos`. -/
def fourBytePositions : ℕ → List Bytes → List ℕ
  | _, [] => []
  | pos, c :: cs =>
    if c.length = 4 then pos :: fourBytePositions (pos + c.length) cs
    else fourBytePositions (pos + c.length) cs

theorem offsetsFrom_fourBytes {inSize : ℕ} {cs : List Bytes} (hcs : ∀ c ∈ cs, IsCharacter c) :
    ∀ {index : ℕ} {s s' : OffsetLoop}, offsetsFrom inSize 0 index cs.flatten s = some s' →
      index + cs.flatten.length ≤ inSize →
      s'.fourBytesCharOffsets = s.fourBytesCharOffsets ++ fourBytePositions index cs := by
  induction cs with
  | nil =>
    intro index s s' h _
    cases h
    rw [fourBytePositions, List.append_nil]
  | cons c cs ih =>
    intro index s s' h hsize
    rw [List.forall_mem_cons] at hcs
    obtain ⟨⟨b, tail, rfl, hb⟩, hcs⟩ := hcs
    rw [List.flatten_cons, List.length_append, List.length_cons] at hsize
    rw [List.flatten_cons, List.cons_append, offsetsFrom_cons hb (by omega)] at h
    rw [ih hcs h (by omega), fourBytePositions, List.length_cons]
    by_cases hfour : tail.length + 1 = 4
    · simp only [OffsetLoop.count, if_pos hfour, List.append_assoc, List.singleton_append]
    · simp only [OffsetLoop.count, if_neg hfour]

/-- The 4-byte characters of a string that the first pass accepts. -/
theorem getUtf8StringLengthAndPerChunkOffsets_fourBytes {cs : List Bytes} {offsets : OffsetLoop}
    (hcs : ∀ c ∈ cs, IsCharacter c)
    (h : getUtf8StringLengthAndPerChunkOffsets cs.flatten = some offsets) :
    offsets.fourBytesCharOffsets = fourBytePositions 0 cs := by
  obtain ⟨s, hs, rfl⟩ := Option.map_eq_some_iff.1 h
  have hfour := offsetsFrom_fourBytes hcs hs (by omega)
  split <;> exact hfour

/-- A 4-byte character is split, behind what stands between it and the last one. -/
theorem escapeFrom_cons {input before c rest : Bytes} {lastPos : ℕ} {positions : List ℕ}
    (hinput : input = before ++ (c ++ rest)) (hle : lastPos ≤ before.length) (hc : c.length = 4) :
    escapeFrom input lastPos (before.length :: positions) =
      if Supplementary c then (escapeFrom input (before ++ c).length positions).map fun rest =>
        before.drop lastPos ++ ((halves c).flatten ++ rest) else none := by
  obtain ⟨b₀, b₁, b₂, b₃, rfl⟩ := List.length_eq_four.1 hc
  have hget (i : ℕ) : input.getD (before.length + i) 0 = (b₀ :: b₁ :: b₂ :: b₃ :: rest).getD i 0 := by
    rw [hinput, List.getD_eq_getElem?_getD, List.getElem?_append_right (Nat.le_add_right _ _),
      Nat.add_sub_cancel_left, List.getD_eq_getElem?_getD]
    rfl
  have hbetween : substr input lastPos (before.length - lastPos) = before.drop lastPos := by
    rw [substr, hinput, List.drop_append_of_le_length hle, ← List.length_drop, List.take_left]
  have hlen : (before ++ [b₀, b₁, b₂, b₃]).length = before.length + 4 := List.length_append
  rw [escapeFrom, hlen]
  simp only [hget, List.getD_cons_zero, List.getD_cons_succ, codePoint_eq, hbetween]
  by_cases hs : Supplementary [b₀, b₁, b₂, b₃]
  · have hrange := hs rfl
    rw [if_pos hs, if_neg (by omega)]
    simp only [surrogateBytes_eq hrange.2, halves, List.length_cons, List.length_nil, if_true,
      List.flatten_cons, List.flatten_nil, List.append_nil, List.append_assoc]
  · have hrange : ¬ (0x10000 ≤ codePoint [b₀, b₁, b₂, b₃] ∧ codePoint [b₀, b₁, b₂, b₃] ≤ 0x10FFFF) :=
      fun h => hs fun _ => h
    rw [if_neg hs, if_pos (by omega)]

/-- `escapeFourBytesUtf8Char` splits the 4-byte characters. -/
theorem escapeFrom_halves {cs : List Bytes} (hs : ∀ c ∈ cs, Supplementary c) :
    ∀ {input before : Bytes} {lastPos : ℕ}, input = before ++ cs.flatten →
      lastPos ≤ before.length → escapeFrom input lastPos (fourBytePositions before.length cs) =
        some (before.drop lastPos ++ (cs.flatMap halves).flatten) := by
  induction cs with
  | nil =>
    intro input before lastPos hinput hle
    rw [List.flatten_nil, List.append_nil] at hinput
    rw [fourBytePositions, escapeFrom, hinput, List.flatMap_nil, List.flatten_nil, List.append_nil]
  | cons c cs ih =>
    intro input before lastPos hinput hle
    rw [List.forall_mem_cons] at hs
    rw [List.flatten_cons] at hinput
    have hlen : before.length + c.length = (before ++ c).length := List.length_append.symm
    have hstep {pos : ℕ} (hpos : pos ≤ (before ++ c).length) :=
      ih hs.2 (hinput.trans (List.append_assoc before c cs.flatten).symm) hpos
    rw [fourBytePositions, hlen, List.flatMap_cons, List.flatten_append]
    split
    · next hc =>
      rw [escapeFrom_cons hinput hle hc, if_pos hs.1, hstep (Nat.le_refl _), List.drop_length]
      rfl
    · next hc =>
      rw [hstep (by rw [← hlen]; omega), List.drop_append_of_le_length hle, List.append_assoc,
        halves, if_neg hc, List.flatten_singleton]

/-- A 4-byte character that is no supplementary one is refused. -/
theorem escapeFrom_eq_none {cs : List Bytes} (hs : ¬ ∀ c ∈ cs, Supplementary c) :
    ∀ {input before : Bytes} {lastPos : ℕ}, input = before ++ cs.flatten →
      lastPos ≤ before.length → escapeFrom input lastPos (fourBytePositions before.length cs) =
        none := by
  induction cs with
  | nil => exact absurd (by simp) hs
  | cons c cs ih =>
    intro input before lastPos hinput hle
    rw [List.forall_mem_cons] at hs
    rw [List.flatten_cons] at hinput
    have hlen : before.length + c.length = (before ++ c).length := List.length_append.symm
    have hassoc := hinput.trans (List.append_assoc before c cs.flatten).symm
    rw [fourBytePositions, hlen]
    split
    · next hc =>
      rw [escapeFrom_cons hinput hle hc]
      split
      · next hsc =>
        rw [ih (fun h => hs ⟨hsc, h⟩) hassoc (Nat.le_refl _)]
        rfl
      · rfl
    · next hc =>
      exact ih (fun h => hs ⟨fun h4 => absurd h4 hc, h⟩) hassoc (by rw [← hlen]; omega)

theorem fourBytePositions_eq_nil {cs : List Bytes} :
    ∀ {pos : ℕ}, fourBytePositions pos cs = [] ↔ ∀ c ∈ cs, c.length ≠ 4 := by
  induction cs with
  | nil => simp [fourBytePositions]
  | cons c cs ih =>
    intro pos
    rw [fourBytePositions, List.forall_mem_cons]
    split
    · next h => simp [h]
    · next h => simp [h, ih]

/-! ### Joining what has been split -/

/-- A 4-byte character with the continuation bytes that its code point asks for. -/
def canonical (c : Bytes) : Bytes := if c.length = 4 then fourBytes (codePoint c) else c

theorem length_canonical (c : Bytes) : (canonical c).length = c.length := by
  rw [canonical]
  split
  · next h => rw [h]; rfl
  · rfl

theorem toNat_ofNat {n : ℕ} (h : n < 256) : (UInt8.ofNat n).toNat = n :=
  UInt8.toNat_ofNat_of_lt' h

theorem codePoint_fourBytes {u : ℕ} (hu : u < 0x200000) : codePoint (fourBytes u) = u := by
  rw [fourBytes, codePoint, toNat_ofNat (by omega), toNat_ofNat (by omega), toNat_ofNat (by omega),
    toNat_ofNat (by omega)]
  omega

theorem isHighSurrogate_threeBytes {u : ℕ} (hu : 0xD800 ≤ u ∧ u < 0xDC00) :
    isHighSurrogate (threeBytes u) := by
  have h₀ : 0xE0 + u / 4096 = 0xED := by omega
  rw [threeBytes, h₀, isHighSurrogate, toNat_ofNat (by omega)]
  exact decide_eq_true ⟨rfl, by omega, by omega⟩

theorem isLowSurrogate_threeBytes {u : ℕ} (hu : u < 0xE000) :
    isLowSurrogate (threeBytes u) ↔ 0xDC00 ≤ u := by
  rw [threeBytes, isLowSurrogate, decide_eq_true_eq, ← UInt8.toNat_inj, toNat_ofNat (by omega),
    toNat_ofNat (by omega)]
  constructor
  · rintro ⟨h₀, h₁, -⟩
    simp only [UInt8.reduceToNat] at h₀
    omega
  · intro h
    exact ⟨by simp only [UInt8.reduceToNat]; omega, by omega, by omega⟩

theorem pairPoint_surrogates {u : ℕ} (hu : 0x10000 ≤ u ∧ u ≤ 0x10FFFF) :
    pairPoint (threeBytes (highSurrogate u)) (threeBytes (lowSurrogate u)) = u := by
  rw [threeBytes, threeBytes, pairPoint, highSurrogate, lowSurrogate, toNat_ofNat (by omega),
    toNat_ofNat (by omega), toNat_ofNat (by omega), toNat_ofNat (by omega)]
  omega

theorem isHighSurrogate_length {c : Bytes} (h : isHighSurrogate c) : c.length = 3 := by
  unfold isHighSurrogate at h
  split at h
  · rfl
  · cases h

theorem isLowSurrogate_length {c : Bytes} (h : isLowSurrogate c) : c.length = 3 := by
  unfold isLowSurrogate at h
  split at h
  · rfl
  · cases h

theorem pairPoint_lt (c d : Bytes) : pairPoint c d < 0x200000 := by
  unfold pairPoint
  split <;> omega

/-- The halves of a supplementary character are joined. -/
theorem joined_four {c : Bytes} (hs : Supplementary c) (hc : c.length = 4) (es : List Bytes) :
    joined (halves c ++ es) = canonical c :: joined es := by
  have hrange := hs hc
  have hhigh : 0xD800 ≤ highSurrogate (codePoint c) ∧ highSurrogate (codePoint c) < 0xDC00 := by
    rw [highSurrogate]
    omega
  have hlow : 0xDC00 ≤ lowSurrogate (codePoint c) ∧ lowSurrogate (codePoint c) < 0xE000 := by
    rw [lowSurrogate]
    omega
  rw [halves, if_pos hc, canonical, if_pos hc, List.cons_append, List.cons_append, List.nil_append,
    joined, if_pos ⟨isHighSurrogate_threeBytes hhigh, (isLowSurrogate_threeBytes hlow.2).2 hlow.1⟩,
    pairPoint_surrogates hrange]

theorem joined_cons {c : Bytes} {es : List Bytes}
    (h : ∀ d ∈ es.head?, ¬ (isHighSurrogate c ∧ isLowSurrogate d)) :
    joined (c :: es) = c :: joined es := by
  cases es with
  | nil => rfl
  | cons d es => rw [joined, if_neg (h d rfl)]

/-- What splitting puts in front is no second half that was not there before. -/
theorem head?_flatMap_halves {d e : Bytes} {cs : List Bytes} (hs : Supplementary d)
    (he : e ∈ ((d :: cs).flatMap halves).head?) (hlow : isLowSurrogate e) : e = d := by
  rw [List.flatMap_cons, halves] at he
  split at he
  · next hd =>
    have hrange := hs hd
    cases he
    rw [isLowSurrogate_threeBytes (by rw [highSurrogate]; omega), highSurrogate] at hlow
    omega
  · cases he
    rfl

/-- **Joining a string that has been split** makes the characters of code points canonical, and
joins the pairs that stood in the string before. -/
theorem joined_halves {cs : List Bytes} (hs : ∀ c ∈ cs, Supplementary c) :
    joined (cs.flatMap halves) = (joined cs).map canonical := by
  induction cs using joined.induct with
  | case1 => rfl
  | case2 c =>
    rw [List.forall_mem_singleton] at hs
    rw [List.flatMap_singleton]
    by_cases hc : c.length = 4
    · have h := joined_four hs hc []
      rwa [List.append_nil] at h
    · rw [halves, if_neg hc, joined, List.map_singleton, canonical, if_neg hc]
  | case3 c d cs hpair ih =>
    simp only [List.forall_mem_cons] at hs
    have hc := isHighSurrogate_length hpair.1
    have hd := isLowSurrogate_length hpair.2
    rw [joined, if_pos hpair, List.map_cons, ← ih hs.2.2, canonical, if_pos (by rfl),
      codePoint_fourBytes (pairPoint_lt c d), List.flatMap_cons, List.flatMap_cons, halves,
      if_neg (by omega), halves, if_neg (by omega), List.singleton_append, List.singleton_append,
      joined, if_pos hpair]
  | case4 c d cs hpair ih =>
    rw [List.forall_mem_cons] at hs
    rw [joined, if_neg hpair, List.map_cons, ← ih hs.2, List.flatMap_cons]
    by_cases hc : c.length = 4
    · exact joined_four hs.1 hc _
    · rw [halves, if_neg hc, canonical, if_neg hc, List.singleton_append]
      refine joined_cons fun e he hp => hpair ⟨hp.1, ?_⟩
      rw [← head?_flatMap_halves (hs.2 d List.mem_cons_self) he hp.2]
      exact hp.2

/-! ### Strings that joining leaves alone -/

/-- No second half of a pair stands directly behind a first one. -/
def Unpaired (cs : List Bytes) : Prop :=
  cs.IsChain fun c d => ¬ (isHighSurrogate c ∧ isLowSurrogate d)

theorem joined_eq_self {cs : List Bytes} (h : Unpaired cs) : joined cs = cs := by
  induction cs using joined.induct with
  | case1 => rfl
  | case2 c => rfl
  | case3 c d cs hpair ih => exact absurd hpair (List.isChain_cons_cons.1 h).1
  | case4 c d cs hpair ih => rw [joined, if_neg hpair, ih (List.isChain_cons_cons.1 h).2]

/-- A pair becomes shorter when it is joined. -/
theorem length_joined (cs : List Bytes) : (joined cs).flatten.length ≤ cs.flatten.length ∧
    (¬ Unpaired cs → (joined cs).flatten.length < cs.flatten.length) := by
  induction cs using joined.induct with
  | case1 => exact ⟨Nat.le_refl _, fun h => absurd .nil h⟩
  | case2 c => exact ⟨Nat.le_refl _, fun h => absurd (.singleton c) h⟩
  | case3 c d cs hpair ih =>
    have hc := isHighSurrogate_length hpair.1
    have hd := isLowSurrogate_length hpair.2
    have hfour : (fourBytes (pairPoint c d)).length = 4 := rfl
    rw [joined, if_pos hpair]
    simp only [List.flatten_cons, List.length_append]
    omega
  | case4 c d cs hpair ih =>
    rw [joined, if_neg hpair, Unpaired, List.isChain_cons_cons]
    rw [Unpaired] at ih
    simp only [List.flatten_cons, List.length_append] at ih ⊢
    exact ⟨by omega, fun h => by have := ih.2 fun h' => h ⟨hpair, h'⟩; omega⟩

/-- The string that splitting and joining lead back to. -/
theorem flatten_canonical_eq_iff {cs : List Bytes} :
    ((joined cs).map canonical).flatten = cs.flatten ↔
      Unpaired cs ∧ ∀ c ∈ cs, canonical c = c := by
  have hlength (cs : List Bytes) : (cs.map canonical).map List.length = cs.map List.length := by
    rw [List.map_map]
    exact List.map_congr_left fun c _ => length_canonical c
  constructor
  · intro h
    have hunpaired : Unpaired cs := by
      by_contra hpaired
      have hlt := (length_joined cs).2 hpaired
      rw [List.length_flatten] at hlt
      rw [← h, List.length_flatten, hlength] at hlt
      exact Nat.lt_irrefl _ hlt
    rw [joined_eq_self hunpaired] at h
    have hsame := List.eq_iff_flatten_eq.2 ⟨h, hlength cs⟩
    exact ⟨hunpaired, List.map_inj_left.1 (hsame.trans (List.map_id cs).symm)⟩
  · rintro ⟨hunpaired, h⟩
    rw [joined_eq_self hunpaired, List.map_congr_left h, List.map_id']

/-- The continuation bytes of a 4-byte character are continuation bytes. -/
def Continued (c : Bytes) : Prop :=
  c.length = 4 → ∀ b ∈ c.tail, 0x80 ≤ b.toNat ∧ b.toNat ≤ 0xBF

theorem canonical_eq_self_iff {c : Bytes} (hc : IsCharacter c) :
    canonical c = c ↔ Continued c := by
  rw [canonical, Continued]
  split
  · next hfour =>
    obtain ⟨b₀, tail, rfl, hb⟩ := hc
    obtain ⟨b₁, b₂, b₃, rfl⟩ := List.length_eq_three.1 (Nat.succ.inj hfour)
    have hlead : 0xF0 ≤ b₀.toNat ∧ b₀.toNat ≤ 0xF7 := by
      simp only [List.length_cons, List.length_nil] at hb
      unfold charWidth at hb
      split_ifs at hb <;> omega
    have h₀ := b₀.toNat_lt
    have h₁ := b₁.toNat_lt
    have h₂ := b₂.toNat_lt
    have h₃ := b₃.toNat_lt
    simp only [fourBytes, codePoint, List.cons.injEq, ← UInt8.toNat_inj, UInt8.toNat_ofNat',
      Nat.reducePow, List.tail_cons, List.forall_mem_cons, hfour, true_imp_iff]
    constructor
    · rintro ⟨-, e₁, e₂, e₃, -⟩
      exact ⟨by omega, by omega, by omega, by simp⟩
    · rintro ⟨e₁, e₂, e₃, -⟩
      exact ⟨by omega, by omega, by omega, by omega, trivial⟩
  · next hfour => simp [hfour]

end Hessian2
