import Hessian2.Text

/-!
# The grammar of strings

What `decode<std::string>` accepts in a plain build.

* `charWidth`, `Characters` : characters and sequences of characters.
* `StringSentence` : the sentences of the grammar with the strings they stand for.
* `decodeString_iff` : **`decode<std::string>` accepts exactly the sentences.**
-/

namespace Hessian2

open Parsing Parsing.Parser Reader

/-- The length of the character with the given lead byte; 0 if it is no lead byte. -/
def charWidth (b : UInt8) : ℕ :=
  if b.toNat ≤ 0x7f then 1
  else if 0xc0 ≤ b.toNat ∧ b.toNat ≤ 0xdf then 2
  else if 0xe0 ≤ b.toNat ∧ b.toNat ≤ 0xef then 3
  else if 0xf0 ≤ b.toNat ∧ b.toNat ≤ 0xf7 then 4
  else 0

/-- `bs` is a sequence of `n` characters, each a lead byte with arbitrary bytes behind it. -/
def Characters (n : ℕ) (bs : Bytes) : Prop := Words.Split charWidth n bs

/-- The headers of a final chunk of `n` characters. -/
inductive FinalHeader : Bytes → ℕ → Prop where
  | compact {b : UInt8} (hb : b.toNat ≤ 0x1f) : FinalHeader [b] b.toNat
  | short {b c : UInt8} (hb : 0x30 ≤ b.toNat ∧ b.toNat ≤ 0x33) :
    FinalHeader [b, c] (256 * (b.toNat - 0x30) + c.toNat)
  | long (hi lo : UInt8) : FinalHeader [0x53, hi, lo] (256 * hi.toNat + lo.toNat)

/-- The sentences that stand for a string: non-final chunks and a final one. -/
inductive StringSentence : Bytes → Bytes → Prop where
  | final {header chars : Bytes} {n : ℕ} (hh : FinalHeader header n) (hc : Characters n chars) :
    StringSentence (header ++ chars) chars
  | chunk {hi lo : UInt8} {chars rest value : Bytes}
    (hc : Characters (256 * hi.toNat + lo.toNat) chars) (h : StringSentence rest value) :
    StringSentence (0x52 :: hi :: lo :: (chars ++ rest)) (chars ++ value)

/-- The table of character lengths is indexed by the first five bits. -/
theorem utf8CharLength_eq : utf8CharLength = charWidth := by
  funext b
  have h : ∀ n < 256, utf8CharLengths.getD (n / 8) 0 =
      if n ≤ 0x7f then 1 else if 0xc0 ≤ n ∧ n ≤ 0xdf then 2
      else if 0xe0 ≤ n ∧ n ≤ 0xef then 3 else if 0xf0 ≤ n ∧ n ≤ 0xf7 then 4 else 0 := by
    decide +kernel
  exact h b.toNat b.toNat_lt

theorem getUtf8StringLength_eq (data : Bytes) :
    getUtf8StringLength data = (Words.scan charWidth 0 data).map fun r =>
      (r.1.length, data.length + r.2, decide (0xED ∈ r.1)) := by
  rw [getUtf8StringLength, utf8CharLength_eq]

variable {P : Platform}

/-! ### The characters of a chunk -/

/-- The coarse check for surrogates: one of the characters begins with `0xED`. -/
def startsSurrogate (ws : Bytes) : Bool := decide (0xED ∈ Words.leads charWidth ws)

@[simp] theorem startsSurrogate_nil : startsSurrogate [] = false := rfl

theorem startsSurrogate_append {m n : ℕ} {ws ws' : Bytes} (hw : Characters m ws)
    (hw' : Characters n ws') :
    startsSurrogate (ws ++ ws') = (startsSurrogate ws || startsSurrogate ws') := by
  simp only [startsSurrogate, hw.leads_append hw', List.mem_append, Bool.decide_or]

/-- A turn of the loop reads the characters that begin in its first read, whole. -/
theorem finalReadStep_ok {s : StringLoop} {r : StringLoop ⊕ (Bytes × Bool)}
    {c c' : State UInt8 Tables} (h : finalReadStep P s c = .ok r c') :
    (s.length = 0 ∧ r = .inr (s.output, s.hasSurrogate) ∧ c' = c) ∨
    ∃ ws k sur, c.cursor.unread = ws ++ c'.cursor.unread ∧ c'.aux = c.aux ∧ k ≤ s.length ∧
      Characters k ws ∧ r = .inl ⟨s.output ++ ws, sur, s.length - k⟩ := by
  rw [finalReadStep_eq] at h
  split at h
  · obtain ⟨data, c₁, h₁, h⟩ := bind_eq_ok.1 h
    obtain ⟨hu, hlen, ha⟩ := take_eq_ok h₁
    rw [getUtf8StringLength_eq] at h
    rcases hscan : Words.scan charWidth 0 data with _ | ⟨leads, excess⟩ <;>
      simp only [hscan, Option.map_none, Option.map_some] at h
    · cases h
    -- the characters that begin in the data end in it or in the padding
    have hle := Words.leads_le hscan
    split at h
    · obtain ⟨padding, c₂, h₂, h⟩ := bind_eq_ok.1 h
      obtain ⟨hu₂, hlen₂, ha₂⟩ := take_eq_ok h₂
      cases h
      obtain ⟨ts, ws, he, ht, hs⟩ := Words.split_of_scan hscan
        (show padding.length = excess by omega)
      rw [List.length_eq_zero_iff] at ht
      subst ht
      rw [List.nil_append] at he
      subst he
      exact .inr ⟨data ++ padding, leads.length, s.hasSurrogate || decide (0xED ∈ leads),
        by rw [hu, hu₂, List.append_assoc], ha₂.trans ha, by omega, hs, by simp⟩
    · next hover =>
      cases h
      obtain ⟨ts, ws, he, ht, hs⟩ := Words.split_of_scan hscan
        (show ([] : Bytes).length = excess by rw [List.length_nil]; omega)
      rw [List.length_eq_zero_iff] at ht
      subst ht
      rw [List.nil_append, List.append_nil] at he
      subst he
      exact .inr ⟨data, leads.length, _, hu, ha, by omega, hs, rfl⟩
  · next hs =>
    cases h
    exact .inl ⟨by omega, rfl, rfl⟩

theorem finalReadUtf8String_ok {output : Bytes} {sur : Bool} {n : ℕ} {c c' : State UInt8 Tables}
    {r : Bytes × Bool} (h : finalReadUtf8String P output sur n c = .ok r c') :
    ∃ ws, c.cursor.unread = ws ++ c'.cursor.unread ∧ c'.aux = c.aux ∧ Characters n ws ∧
      r.1 = output ++ ws := by
  refine iter_ok_induct (Q := fun s c r c' => ∃ ws, c.cursor.unread = ws ++ c'.cursor.unread ∧
    c'.aux = c.aux ∧ Characters s.length ws ∧ r.1 = s.output ++ ws) ?_ ?_ h
  · rintro s c j c₁ r c' hstep ⟨ws, hu, ha, hw, hr⟩
    rcases finalReadStep_ok hstep with ⟨-, hj, -⟩ | ⟨ws₁, k, sur, hu₁, ha₁, hk, hw₁, hj⟩
    · cases hj
    · cases hj
      refine ⟨ws₁ ++ ws, by rw [hu₁, hu, List.append_assoc], ha.trans ha₁, ?_, by simp [hr]⟩
      have hsum := hw₁.append hw
      rwa [Nat.add_sub_cancel' hk] at hsum
  · intro s c r c' hstep
    rcases finalReadStep_ok hstep with ⟨h0, hj, hc⟩ | ⟨ws₁, k, sur, hu₁, ha₁, hk, hw₁, hj⟩
    · cases hj
      subst hc
      exact ⟨[], rfl, rfl, by rw [h0]; exact .nil, by simp⟩
    · cases hj

/-- A turn of the loop on an input that begins with the characters it asks for. -/
theorem finalReadStep_reads {s : StringLoop} (hs : 0 < s.length) {ws : Bytes}
    (hw : Characters s.length ws) (t : Tables) :
    ∃ ws₁ ws₂ k, ws = ws₁ ++ ws₂ ∧ 0 < k ∧ k ≤ s.length ∧ Characters k ws₁ ∧
      Characters (s.length - k) ws₂ ∧
      Reads (finalReadStep P s) t ws₁
        (.inl ⟨s.output ++ ws₁, s.hasSurrogate || startsSurrogate ws₁, s.length - k⟩) t := by
  have hlen := hw.length_le
  -- as many bytes are taken as there are characters, which are at least that long
  have hdata : (ws.take s.length).length = s.length := by simpa using hlen
  obtain ⟨leads, cs, ws', hscan, hrest, hk, hw'⟩ := Words.scan_of_split hw
    (List.length_nil (α := UInt8)) (List.take_append_drop s.length ws).symm
  -- one of them at least, so that fewer are left
  have hpos : 0 < leads.length := by
    obtain ⟨b, bs, hb⟩ := List.exists_cons_of_length_pos (hdata ▸ hs)
    rw [hb] at hscan
    exact Words.leads_pos hscan
  obtain ⟨ts, ws₁, he, ht, hw₁⟩ := Words.split_of_scan hscan rfl
  rw [List.length_eq_zero_iff] at ht
  subst ht
  rw [List.nil_append] at he
  refine ⟨ws.take s.length ++ cs, ws', leads.length,
    by rw [List.append_assoc, ← hrest, List.take_append_drop], hpos, hk, he ▸ hw₁, hw', ?_⟩
  rw [finalReadStep_eq, if_pos hs, startsSurrogate, Words.leads_of_scan rfl hscan]
  have htake := reads_take (ε := Fault) (ws.take s.length) t
  rw [hdata] at htake
  refine htake.bind ?_
  simp only [getUtf8StringLength_eq, hscan, Option.map_some, hdata, Nat.lt_add_right_iff_pos,
    Nat.add_sub_cancel_left]
  split
  · rw [← List.append_assoc]
    exact reads_take_map _ rfl rfl t
  · obtain rfl : cs = [] := List.length_eq_zero_iff.1 (by omega)
    rw [List.append_nil]
    exact reads_pure _ t

theorem finalReadUtf8String_reads {n : ℕ} : ∀ {ws : Bytes} (output : Bytes) (sur : Bool)
    (t : Tables), Characters n ws →
      Reads (finalReadUtf8String P output sur n) t ws (output ++ ws, sur || startsSurrogate ws) t := by
  induction n using Nat.strong_induction_on with
  | _ n ih =>
    intro ws output sur t hw
    rw [finalReadUtf8String, Tame.iter_eq fun s =>
      finalReadStep_tame (P := P) s (fun _ => True) False 0]
    rcases Nat.eq_zero_or_pos n with rfl | hn
    · obtain rfl := Words.split_zero.1 hw
      rw [finalReadStep_eq, if_neg (Nat.lt_irrefl 0), List.append_nil, startsSurrogate_nil,
        Bool.or_false]
      exact reads_pure (ε := Fault) (output, sur) t
    · obtain ⟨ws₁, ws₂, k, rfl, hk, hkn, hw₁, hw₂, hstep⟩ :=
        finalReadStep_reads (P := P) (s := ⟨output, sur, n⟩) hn hw t
      have hloop := ih (n - k) (Nat.sub_lt hn hk) (output ++ ws₁) (sur || startsSurrogate ws₁) t hw₂
      rw [List.append_assoc, Bool.or_assoc, ← startsSurrogate_append hw₁ hw₂] at hloop
      exact hstep.bind hloop

/-! ### Sentences -/

/-- What has been read of a string, and then some characters more. -/
def join (out : Bytes × Bool) (ws : Bytes) : Bytes × Bool :=
  (out.1 ++ ws, out.2 || startsSurrogate ws)

@[simp] theorem join_fst (out : Bytes × Bool) (ws : Bytes) : (join out ws).1 = out.1 ++ ws := rfl

theorem join_join {m n : ℕ} {out : Bytes × Bool} {ws ws' : Bytes} (hw : Characters m ws)
    (hw' : Characters n ws') : join (join out ws) ws' = join out (ws ++ ws') := by
  simp only [join, List.append_assoc, Bool.or_assoc, startsSurrogate_append hw hw']

theorem StringSentence.characters {sentence value : Bytes} (h : StringSentence sentence value) :
    ∃ n, Characters n value := by
  induction h with
  | final hh hc => exact ⟨_, hc⟩
  | chunk hc h ih =>
    obtain ⟨n, hv⟩ := ih
    exact ⟨_, hc.append hv⟩

theorem readChunkString_reads {n : ℕ} {ws : Bytes} (hw : Characters n ws) (out : Bytes × Bool)
    (last : Bool) (t : Tables) :
    Reads (readChunkString P out n last) t ws
      (if last then .inr (join out ws) else .inl (join out ws)) t := by
  have h := (finalReadUtf8String_reads (P := P) out.1 out.2 t hw).bind
    (f := fun out => pure (if last then Sum.inr out else Sum.inl out)) (reads_pure _ t)
  rwa [List.append_nil] at h

theorem readChunkString_ok {n : ℕ} {out : Bytes × Bool} {last : Bool} {c c' : State UInt8 Tables}
    {r : Bytes × Bool ⊕ Bytes × Bool} (h : readChunkString P out n last c = .ok r c') :
    ∃ ws sur, c.cursor.unread = ws ++ c'.cursor.unread ∧ c'.aux = c.aux ∧ Characters n ws ∧
      r = if last then .inr (out.1 ++ ws, sur) else .inl (out.1 ++ ws, sur) := by
  obtain ⟨r', c₁, h₁, h⟩ := bind_eq_ok.1 h
  obtain ⟨ws, hu, ha, hw, hr⟩ := finalReadUtf8String_ok h₁
  cases h
  exact ⟨ws, r'.2, hu, ha, hw, by rw [← hr]⟩

/-- The turns of `decodeStringWithReader`: a final chunk ends it, a non-final one does not. -/
theorem decodeStringStep_ok {out : Bytes × Bool} {c c' : State UInt8 Tables}
    {r : Bytes × Bool ⊕ Bytes × Bool} (h : decodeStringStep P out c = .ok r c') :
    ∃ header n ws sur, c.cursor.unread = header ++ (ws ++ c'.cursor.unread) ∧ c'.aux = c.aux ∧
      Characters n ws ∧
      ((FinalHeader header n ∧ r = .inr (out.1 ++ ws, sur)) ∨
        ∃ hi lo : UInt8, header = [0x52, hi, lo] ∧ n = 256 * hi.toNat + lo.toNat ∧
          r = .inl (out.1 ++ ws, sur)) := by
  rw [decodeStringStep_eq] at h
  obtain ⟨code, c₁, h₁, h⟩ := bind_eq_ok.1 h
  obtain ⟨hu₁, ha₁⟩ := next_eq_ok h₁
  rw [chunkForm] at h
  -- one case for each lead byte, in the order of the `switch`
  split_ifs at h with hc₁ hc₂ hc₃ hc₄
  · obtain ⟨ws, sur, hu, ha, hw, rfl⟩ := readChunkString_ok h
    exact ⟨[code], code.toNat, ws, sur, by rw [hu₁, hu]; rfl, ha.trans ha₁, hw,
      .inl ⟨.compact hc₁, rfl⟩⟩
  · obtain ⟨b, c₂, h₂, h⟩ := bind_eq_ok.1 h
    obtain ⟨hu₂, ha₂⟩ := next_eq_ok h₂
    obtain ⟨ws, sur, hu, ha, hw, rfl⟩ := readChunkString_ok h
    rw [Nat.mul_comm] at hw
    exact ⟨[code, b], _, ws, sur, by rw [hu₁, hu₂, hu]; rfl, ha.trans (ha₂.trans ha₁), hw,
      .inl ⟨.short hc₂, rfl⟩⟩
  · obtain ⟨bs, c₂, h₂, h⟩ := bind_eq_ok.1 h
    obtain ⟨hu₂, hlen, ha₂⟩ := take_eq_ok h₂
    obtain ⟨hi, lo, rfl⟩ := List.length_eq_two.1 hlen
    obtain ⟨ws, sur, hu, ha, hw, rfl⟩ := readChunkString_ok h
    rw [bigEndian_pair] at hw
    have hcode : code = 0x53 := UInt8.toNat_inj.1 hc₃
    exact ⟨[0x53, hi, lo], _, ws, sur, by rw [hu₁, hu₂, hu, hcode]; rfl,
      ha.trans (ha₂.trans ha₁), hw, .inl ⟨.long hi lo, rfl⟩⟩
  · obtain ⟨bs, c₂, h₂, h⟩ := bind_eq_ok.1 h
    obtain ⟨hu₂, hlen, ha₂⟩ := take_eq_ok h₂
    obtain ⟨hi, lo, rfl⟩ := List.length_eq_two.1 hlen
    obtain ⟨ws, sur, hu, ha, hw, rfl⟩ := readChunkString_ok h
    rw [bigEndian_pair] at hw
    have hcode : code = 0x52 := UInt8.toNat_inj.1 hc₄
    exact ⟨[0x52, hi, lo], _, ws, sur, by rw [hu₁, hu₂, hu, hcode]; rfl,
      ha.trans (ha₂.trans ha₁), hw, .inr ⟨hi, lo, rfl, rfl, rfl⟩⟩
  · cases h

theorem finalHeader_reads {header ws : Bytes} {n : ℕ} (hh : FinalHeader header n)
    (hw : Characters n ws) (out : Bytes × Bool) (t : Tables) :
    Reads (decodeStringStep P out) t (header ++ ws) (.inr (join out ws)) t := by
  have h := readChunkString_reads (P := P) hw out true t
  rw [decodeStringStep_eq]
  cases hh with
  | compact hb =>
    refine reads_form ?_
    rw [chunkForm, if_pos hb]
    exact h
  | @short b c hb =>
    refine reads_form ?_
    rw [chunkForm, if_neg (by omega), if_pos hb, Nat.mul_comm]
    exact reads_form h
  | long hi lo =>
    refine reads_form ?_
    rw [chunkForm, if_neg (by decide), if_neg (by decide), if_pos (by decide)]
    refine (reads_take (ε := Fault) [hi, lo] t).bind ?_
    rw [bigEndian_pair]
    exact h

theorem chunk_reads {hi lo : UInt8} {ws : Bytes} (hw : Characters (256 * hi.toNat + lo.toNat) ws)
    (out : Bytes × Bool) (t : Tables) :
    Reads (decodeStringStep P out) t (0x52 :: hi :: lo :: ws) (.inl (join out ws)) t := by
  have h := readChunkString_reads (P := P) hw out false t
  rw [decodeStringStep_eq]
  refine reads_form ?_
  rw [chunkForm, if_neg (by decide), if_neg (by decide), if_neg (by decide), if_pos (by decide)]
  refine (reads_take (ε := Fault) [hi, lo] t).bind ?_
  rw [bigEndian_pair]
  exact h

/-- Every sentence is read. -/
theorem StringSentence.reads {sentence value : Bytes} (h : StringSentence sentence value)
    (t : Tables) : ∀ out : Bytes × Bool,
      Reads (iter (decodeStringStep P) out) t sentence (join out value) t := by
  induction h with
  | final hh hc =>
    intro out
    have hstep := finalHeader_reads (P := P) hh hc out t
    rw [Tame.iter_eq fun out => decodeStringStep_tame (P := P) out (fun _ => True) False 0]
    have h := hstep.bind (f := Sum.elim (iter (decodeStringStep P)) pure) (reads_pure _ t)
    rwa [List.append_nil] at h
  | chunk hc hs ih =>
    intro out
    have hstep := chunk_reads (P := P) hc out t
    obtain ⟨n, hv⟩ := hs.characters
    rw [Tame.iter_eq fun out => decodeStringStep_tame (P := P) out (fun _ => True) False 0]
    have h := hstep.bind (f := Sum.elim (iter (decodeStringStep P)) pure) (ih _)
    rwa [join_join hc hv] at h

/-- What is read is a sentence. -/
theorem decodeStringWithReader_ok {out : Bytes × Bool} {c c' : State UInt8 Tables}
    {r : Bytes × Bool} (h : iter (decodeStringStep P) out c = .ok r c') :
    ∃ sentence value, c.cursor.unread = sentence ++ c'.cursor.unread ∧ c'.aux = c.aux ∧
      StringSentence sentence value ∧ r.1 = out.1 ++ value := by
  refine iter_ok_induct (Q := fun out c r c' => ∃ sentence value,
    c.cursor.unread = sentence ++ c'.cursor.unread ∧ c'.aux = c.aux ∧
      StringSentence sentence value ∧ r.1 = out.1 ++ value) ?_ ?_ h
  · rintro out c j c₁ r c' hstep ⟨sentence, value, hu, ha, hs, hr⟩
    obtain ⟨header, n, ws, sur, hu₁, ha₁, hw, ⟨-, hj⟩ | ⟨hi, lo, rfl, rfl, hj⟩⟩ :=
      decodeStringStep_ok hstep
    · cases hj
    · cases hj
      exact ⟨_, _, by rw [hu₁, hu]; simp, ha.trans ha₁, .chunk hw hs, by simp [hr]⟩
  · intro out c r c' hstep
    obtain ⟨header, n, ws, sur, hu₁, ha₁, hw, ⟨hh, hj⟩ | ⟨hi, lo, -, -, hj⟩⟩ :=
      decodeStringStep_ok hstep
    · cases hj
      exact ⟨_, _, by rw [hu₁, List.append_assoc], ha₁, .final hh hw, rfl⟩
    · cases hj

theorem decodeString_plain : decodeString P.plain = decodeStringWithReader P.plain >>= fun out =>
    pure out.1 := by
  simp [decodeString]

theorem decodeString_ok_iff {s s' : State UInt8 Tables} {value : Bytes} :
    decodeString P.plain s = .ok value s' ↔
      ∃ (sentence rest : Bytes) (h : s.cursor.unread = sentence ++ rest),
        StringSentence sentence value ∧
          s' = ⟨s.cursor.advance sentence.length (by simp [h]), s.aux⟩ := by
  constructor
  · intro h
    have hb := (decodeString_leaf (fun _ => False) False 0).delimited.before h
    rw [decodeString_plain] at h
    obtain ⟨r, s₁, h₁, h⟩ := bind_eq_ok.1 h
    obtain ⟨sentence, value, hu, ha, hs, hr⟩ := decodeStringWithReader_ok h₁
    cases h
    refine ⟨sentence, _, hu, by rw [hr]; exact hs, ?_⟩
    rw [← hb.eq_advance hu, ← ha]
  · rintro ⟨sentence, rest, hu, hs, rfl⟩
    have hr := hs.reads (P := P.plain) s.aux ([], false)
    have h := (hr.bind (f := fun out => pure out.1) (reads_pure _ s.aux)) s.cursor rest
      (by simpa using hu)
    rw [decodeString_plain, decodeStringWithReader]
    simpa using h

/-- **`decode<std::string>` accepts exactly the sentences of the grammar**, reads a sentence whole
and nothing behind it, and returns the string it stands for; every other input is refused. -/
theorem decodeString_iff (P : Platform) (s : State UInt8 Tables) :
    (∀ value s', decodeString P.plain s = .ok value s' ↔
      ∃ (sentence rest : Bytes) (h : s.cursor.unread = sentence ++ rest),
        StringSentence sentence value ∧
          s' = ⟨s.cursor.advance sentence.length (by simp [h]), s.aux⟩) ∧
    ((¬ ∃ sentence rest value, s.cursor.unread = sentence ++ rest ∧
        StringSentence sentence value) →
      ∃ s', decodeString P.plain s = .fail s') := by
  refine ⟨fun value s' => decodeString_ok_iff, fun hno => ?_⟩
  have htame := decodeString_leaf (P := P.plain) (fun _ => False) True
    (s.cursor.unread.length + 1)
  cases h : decodeString P.plain s with
  | ok value s' =>
    obtain ⟨sentence, rest, hu, hs, -⟩ := decodeString_ok_iff.1 h
    exact absurd ⟨sentence, rest, value, hu, hs⟩ hno
  | fail s' => exact ⟨s', rfl⟩
  | fault e s' => exact (htame.delimited.fault h).1.elim
  | exhausted => exact absurd h ((htame.agree s (Nat.lt_succ_self _)).2 trivial)

end Hessian2
