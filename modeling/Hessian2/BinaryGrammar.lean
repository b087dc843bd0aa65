import Hessian2.Scalar
import Hessian2.StringGrammar

/-!
# The grammar of binary data

What `decode<std::vector<uint8_t>>` accepts, compared with the chunked form of binary data.

* `BinarySentence` : the sentences of the grammar with the data they stand for.
* `StopsEarly` : the inputs on which `readBytes` takes an empty non-final chunk for the end.
* `decodeBytes_joins_iff` : **`decode<std::vector<uint8_t>>` joins the chunks of exactly the other
  inputs.**
-/

namespace Hessian2

open Parsing Parsing.Parser Reader

/-- The headers of a final chunk of `n` bytes. -/
inductive BinaryHeader : Bytes → ℕ → Prop where
  | compact {b : UInt8} (hb : 0x20 ≤ b.toNat ∧ b.toNat ≤ 0x2f) : BinaryHeader [b] (b.toNat - 0x20)
  | short {b c : UInt8} (hb : 0x34 ≤ b.toNat ∧ b.toNat ≤ 0x37) :
    BinaryHeader [b, c] (256 * (b.toNat - 0x34) + c.toNat)
  | long (hi lo : UInt8) : BinaryHeader [0x42, hi, lo] (256 * hi.toNat + lo.toNat)

/-- The sentences that stand for binary data: non-final chunks and a final one. -/
inductive BinarySentence : Bytes → Bytes → Prop where
  | final {header data : Bytes} (hh : BinaryHeader header data.length) :
    BinarySentence (header ++ data) data
  | chunk {hi lo : UInt8} {data rest value : Bytes}
    (hd : data.length = 256 * hi.toNat + lo.toNat) (h : BinarySentence rest value) :
    BinarySentence (0x41 :: hi :: lo :: (data ++ rest)) (data ++ value)

/-- The input starts with non-final chunks of which only the last one is empty. -/
inductive StopsEarly : Bytes → Prop where
  | empty (rest : Bytes) : StopsEarly (0x41 :: 0 :: 0 :: rest)
  | chunk {hi lo : UInt8} {data rest : Bytes} (hd : data.length = 256 * hi.toNat + lo.toNat)
    (hne : data ≠ []) (h : StopsEarly rest) : StopsEarly (0x41 :: hi :: lo :: (data ++ rest))

/-- What the chunks at the beginning of the input promise: a sentence is read whole, with all of its
data, and any other input is refused. -/
structure Joins (m : Dec Bytes) (s : State UInt8 Tables) : Prop where
  sentence : ∀ (sentence value rest : Bytes) (h : s.cursor.unread = sentence ++ rest),
    BinarySentence sentence value →
      m s = .ok value ⟨s.cursor.advance sentence.length (by simp [h]), s.aux⟩
  refused : (¬ ∃ sentence value rest, s.cursor.unread = sentence ++ rest ∧
    BinarySentence sentence value) → ∃ s', m s = .fail s'

variable {P : Platform}

/-- Two bytes are known by the number they stand for. -/
theorem byte_pair_zero {hi lo : UInt8} (h : 256 * hi.toNat + lo.toNat = 0) : hi = 0 ∧ lo = 0 := by
  refine ⟨UInt8.toNat_inj.1 ?_, UInt8.toNat_inj.1 ?_⟩
  · rw [UInt8.toNat_zero]; omega
  · rw [UInt8.toNat_zero]; omega

/-- The header of a final chunk is none of a non-final one. -/
theorem BinaryHeader.lead {header : Bytes} {n : ℕ} (h : BinaryHeader header n) :
    ∃ b bs, header = b :: bs ∧ b ≠ 0x41 := by
  cases h with
  | compact hb => exact ⟨_, _, rfl, by rintro rfl; exact absurd hb (by decide)⟩
  | short hb => exact ⟨_, _, rfl, by rintro rfl; exact absurd hb (by decide)⟩
  | long hi lo => exact ⟨_, _, rfl, by decide⟩

theorem BinarySentence.length_pos {sentence data : Bytes} (h : BinarySentence sentence data) :
    0 < sentence.length := by
  cases h with
  | final hh =>
    obtain ⟨b, bs, rfl, -⟩ := hh.lead
    exact Nat.succ_pos _
  | chunk hd h => exact Nat.succ_pos _

/-- A sentence that starts with a non-final chunk goes on behind it. -/
theorem BinarySentence.behind_chunk {hi lo : UInt8} {data input sentence value rest : Bytes}
    (hd : data.length = 256 * hi.toNat + lo.toNat) (h : BinarySentence sentence value)
    (hu : 0x41 :: hi :: lo :: (data ++ input) = sentence ++ rest) :
    ∃ sentence' value', BinarySentence sentence' value' ∧ input = sentence' ++ rest ∧
      sentence.length = 3 + data.length + sentence'.length := by
  cases h with
  | final hh =>
    obtain ⟨b, bs, rfl, hb⟩ := hh.lead
    rw [List.cons_append, List.cons_append, List.cons.injEq] at hu
    exact absurd hu.1.symm hb
  | @chunk hi' lo' data' sentence' value' hd' h =>
    simp only [List.cons_append, List.cons.injEq, true_and, List.append_assoc] at hu
    obtain ⟨rfl, rfl, hu⟩ := hu
    obtain ⟨rfl, htail⟩ := List.append_inj hu (hd.trans hd'.symm)
    refine ⟨sentence', value', h, htail, ?_⟩
    simp only [List.length_cons, List.length_append]
    omega

/-! ### Sentences are read -/

theorem binaryHeader_reads {header data : Bytes} (hh : BinaryHeader header data.length)
    (output : Bytes) (t : Tables) :
    Reads (iter (decodeBytesStep P) output) t (header ++ data) (output ++ data) t := by
  have hdata := chunkData_reads data (fun _ => rfl) output t
  generalize hn : data.length = n at hh hdata
  cases hh with
  | @compact b hb =>
    refine finalChunk_reads ?_
    rw [bytesForm, if_pos hb]
    exact hdata
  | @short b c hb =>
    refine finalChunk_reads ?_
    rw [bytesForm, if_neg (by omega), if_pos hb]
    refine reads_form ?_
    rw [Nat.mul_comm]
    exact hdata
  | long hi lo =>
    refine finalChunk_reads ?_
    rw [bytesForm, if_neg (by decide), if_neg (by decide), if_pos (by decide)]
    refine (reads_take (ε := Fault) [hi, lo] t).bind ?_
    rw [bigEndian_pair]
    exact hdata

/-- A non-final chunk, however long. -/
theorem bytesForm_chunk_reads {hi lo : UInt8} {data : Bytes}
    (hd : data.length = 256 * hi.toNat + lo.toNat) (output : Bytes) (t : Tables)
    {r : Bytes ⊕ Bytes} (h : Reads (chunkData output data.length false) t data r t) :
    Reads (bytesForm output 0x41) t (hi :: lo :: data) r t := by
  rw [bytesForm, if_neg (by decide), if_neg (by decide), if_neg (by decide), if_pos (by decide)]
  refine (reads_take (ε := Fault) [hi, lo] t).bind ?_
  rw [bigEndian_pair, ← hd]
  exact h

theorem binaryChunk_reads {hi lo : UInt8} {data rest value : Bytes}
    (hd : data.length = 256 * hi.toNat + lo.toNat) (hne : data ≠ []) {output : Bytes} {t : Tables}
    (h : Reads (iter (decodeBytesStep P) (output ++ data)) t rest value t) :
    Reads (iter (decodeBytesStep P) output) t (0x41 :: hi :: lo :: (data ++ rest)) value t := by
  rw [decodeBytes_iter]
  have hform := bytesForm_chunk_reads hd output t
    (chunkData_reads data (fun h => absurd h hne) output t)
  exact (reads_form hform).bind (f := Sum.elim (iter (decodeBytesStep P)) pure) h

/-- An empty non-final chunk ends the data. -/
theorem emptyChunk_reads (output : Bytes) (t : Tables) :
    Reads (iter (decodeBytesStep P) output) t [0x41, 0, 0] output t := by
  rw [decodeBytes_iter]
  have hempty : Reads (chunkData output ([] : Bytes).length false) t [] (.inr output) t := by
    rw [chunkData, if_pos List.length_nil]
    exact reads_pure _ t
  have hlength : ([] : Bytes).length = 256 * (0 : UInt8).toNat + (0 : UInt8).toNat := rfl
  have hform := bytesForm_chunk_reads hlength output t hempty
  exact (reads_form hform).bind (f := Sum.elim (iter (decodeBytesStep P)) pure) (reads_pure _ t)

/-- A sentence is read unless the reader stops in it. -/
theorem BinarySentence.reads {sentence value : Bytes} (h : BinarySentence sentence value)
    (rest : Bytes) (hs : ¬ StopsEarly (sentence ++ rest)) (t : Tables) : ∀ output,
      Reads (iter (decodeBytesStep P) output) t sentence (output ++ value) t := by
  induction h with
  | final hh => exact fun output => binaryHeader_reads hh output t
  | @chunk hi lo data rest' value hd h ih =>
    intro output
    have hne : data ≠ [] := by
      rintro rfl
      obtain ⟨rfl, rfl⟩ := byte_pair_zero hd.symm
      exact hs (.empty _)
    have hrest : ¬ StopsEarly (rest' ++ rest) := fun h' => hs (by
      rw [List.cons_append, List.cons_append, List.cons_append, List.append_assoc]
      exact .chunk hd hne h')
    have hread := ih hrest (output ++ data)
    rw [List.append_assoc] at hread
    exact binaryChunk_reads hd hne hread

/-- Where the reader stops early, it returns the data so far and leaves the rest. -/
theorem StopsEarly.reads {input : Bytes} (h : StopsEarly input) (t : Tables) : ∀ output,
    ∃ front rest value, input = front ++ rest ∧
      Reads (iter (decodeBytesStep P) output) t front value t ∧
      (∀ sentence data rest', input = sentence ++ rest' → BinarySentence sentence data →
        front.length < sentence.length) := by
  induction h with
  | empty rest =>
    intro output
    refine ⟨[0x41, 0, 0], rest, output, rfl, emptyChunk_reads output t, ?_⟩
    intro sentence data rest' hu hs
    have hd : ([] : Bytes).length = 256 * (0 : UInt8).toNat + (0 : UInt8).toNat := rfl
    obtain ⟨sentence', value', hs', -, hlen⟩ := hs.behind_chunk hd hu
    have := hs'.length_pos
    simp only [List.length_cons, List.length_nil]
    omega
  | @chunk hi lo data rest hd hne h ih =>
    intro output
    obtain ⟨front, rest', value, rfl, hread, hlong⟩ := ih (output ++ data)
    refine ⟨0x41 :: hi :: lo :: (data ++ front), rest', value, by simp,
      binaryChunk_reads hd hne hread, ?_⟩
    intro sentence value' rest'' hu hs
    obtain ⟨sentence', value'', hs', hu', hlen⟩ := hs.behind_chunk hd hu
    have := hlong sentence' value'' rest'' hu' hs'
    simp only [List.length_cons, List.length_append]
    omega

/-! ### What is read -/

theorem chunkData_ok {n : ℕ} {output : Bytes} {last : Bool} {c c' : State UInt8 Tables}
    {r : Bytes ⊕ Bytes} (h : chunkData output n last c = .ok r c') :
    ∃ data, c.cursor.unread = data ++ c'.cursor.unread ∧ data.length = n ∧ c'.aux = c.aux ∧
      r = if n = 0 ∨ last = true then .inr (output ++ data) else .inl (output ++ data) := by
  rw [chunkData] at h
  split at h
  · next h0 =>
    cases h
    exact ⟨[], rfl, h0.symm, rfl, by simp [h0]⟩
  · next h0 =>
    obtain ⟨data, c₁, h₁, h⟩ := bind_eq_ok.1 h
    obtain ⟨hu, hlen, ha⟩ := take_eq_ok h₁
    cases h
    exact ⟨data, hu, hlen, ha, by simp [h0]⟩

/-- The turns of `decodeBytesWithReader`. -/
theorem decodeBytesStep_ok {output : Bytes} {c c' : State UInt8 Tables} {r : Bytes ⊕ Bytes}
    (h : decodeBytesStep P output c = .ok r c') :
    ∃ header data, c.cursor.unread = header ++ (data ++ c'.cursor.unread) ∧ c'.aux = c.aux ∧
      ((BinaryHeader header data.length ∧ r = .inr (output ++ data)) ∨
        ∃ hi lo : UInt8, header = [0x41, hi, lo] ∧ data.length = 256 * hi.toNat + lo.toNat ∧
          r = if data = [] then .inr output else .inl (output ++ data)) := by
  rw [decodeBytesStep_eq] at h
  obtain ⟨code, c₁, h₁, h⟩ := bind_eq_ok.1 h
  obtain ⟨hu₁, ha₁⟩ := next_eq_ok h₁
  rw [bytesForm] at h
  -- one case for each lead byte; only the last of them goes on behind its chunk
  split_ifs at h with hc₁ hc₂ hc₃ hc₄
  · obtain ⟨data, hu, hlen, ha, rfl⟩ := chunkData_ok h
    refine ⟨[code], data, by rw [hu₁, hu]; rfl, ha.trans ha₁, .inl ⟨?_, by simp⟩⟩
    rw [hlen]
    exact .compact hc₁
  · obtain ⟨b, c₂, h₂, h⟩ := bind_eq_ok.1 h
    obtain ⟨hu₂, ha₂⟩ := next_eq_ok h₂
    obtain ⟨data, hu, hlen, ha, rfl⟩ := chunkData_ok h
    refine ⟨[code, b], data, by rw [hu₁, hu₂, hu]; rfl, ha.trans (ha₂.trans ha₁),
      .inl ⟨?_, by simp⟩⟩
    rw [hlen, Nat.mul_comm]
    exact .short hc₂
  · obtain ⟨bs, c₂, h₂, h⟩ := bind_eq_ok.1 h
    obtain ⟨hu₂, hbs, ha₂⟩ := take_eq_ok h₂
    obtain ⟨hi, lo, rfl⟩ := List.length_eq_two.1 hbs
    obtain ⟨data, hu, hlen, ha, rfl⟩ := chunkData_ok h
    have hcode : code = 0x42 := UInt8.toNat_inj.1 hc₃
    refine ⟨[0x42, hi, lo], data, by rw [hu₁, hu₂, hu, hcode]; rfl, ha.trans (ha₂.trans ha₁),
      .inl ⟨?_, by simp⟩⟩
    rw [hlen, bigEndian_pair]
    exact .long hi lo
  · obtain ⟨bs, c₂, h₂, h⟩ := bind_eq_ok.1 h
    obtain ⟨hu₂, hbs, ha₂⟩ := take_eq_ok h₂
    obtain ⟨hi, lo, rfl⟩ := List.length_eq_two.1 hbs
    obtain ⟨data, hu, hlen, ha, rfl⟩ := chunkData_ok h
    have hcode : code = 0x41 := UInt8.toNat_inj.1 hc₄
    refine ⟨[0x41, hi, lo], data, by rw [hu₁, hu₂, hu, hcode]; rfl, ha.trans (ha₂.trans ha₁),
      .inr ⟨hi, lo, rfl, by rw [hlen, bigEndian_pair], ?_⟩⟩
    rw [← hlen]
    by_cases h0 : data = []
    · simp [h0]
    · simp [h0]
  · cases h

/-- The loop goes on behind a non-empty chunk that is not the last. -/
theorem decodeBytesStep_more {output output' : Bytes} {c c' : State UInt8 Tables}
    (h : decodeBytesStep P output c = .ok (.inl output') c') :
    ∃ (hi lo : UInt8) (data : Bytes), c.cursor.unread = 0x41 :: hi :: lo :: (data ++ c'.cursor.unread) ∧
      c'.aux = c.aux ∧ data.length = 256 * hi.toNat + lo.toNat ∧ data ≠ [] ∧
        output' = output ++ data := by
  obtain ⟨header, data, hu, haux, ⟨-, hj⟩ | ⟨hi, lo, rfl, hd, hj⟩⟩ := decodeBytesStep_ok h
  · cases hj
  split_ifs at hj with hne
  cases hj
  exact ⟨hi, lo, data, hu, haux, hd, hne, rfl⟩

/-- It stops behind the last chunk, and behind an empty one. -/
theorem decodeBytesStep_done {output value : Bytes} {c c' : State UInt8 Tables}
    (h : decodeBytesStep P output c = .ok (.inr value) c') :
    c'.aux = c.aux ∧ ((∃ header data, c.cursor.unread = header ++ data ++ c'.cursor.unread ∧
        BinaryHeader header data.length ∧ value = output ++ data) ∨
      c.cursor.unread = 0x41 :: 0 :: 0 :: c'.cursor.unread ∧ value = output) := by
  obtain ⟨header, data, hu, haux, ⟨hh, hj⟩ | ⟨hi, lo, rfl, hd, hj⟩⟩ := decodeBytesStep_ok h
  · cases hj
    exact ⟨haux, .inl ⟨header, data, by rw [hu, List.append_assoc], hh, rfl⟩⟩
  split_ifs at hj with h0
  subst h0
  cases hj
  obtain ⟨rfl, rfl⟩ := byte_pair_zero hd.symm
  exact ⟨haux, .inr ⟨hu, rfl⟩⟩

/-- What is read is a sentence, or the reader stopped early. -/
theorem decodeBytes_ok {output value : Bytes} {c c' : State UInt8 Tables}
    (h : iter (decodeBytesStep P) output c = .ok value c') :
    StopsEarly c.cursor.unread ∨
      ∃ sentence data, c.cursor.unread = sentence ++ c'.cursor.unread ∧
        BinarySentence sentence data := by
  refine iter_ok_induct (Q := fun _ c _ c' => StopsEarly c.cursor.unread ∨
    ∃ sentence data, c.cursor.unread = sentence ++ c'.cursor.unread ∧
      BinarySentence sentence data) ?_ ?_ h
  · intro output c j c₁ value c' hstep ih
    obtain ⟨hi, lo, data, hu, -, hd, hne, -⟩ := decodeBytesStep_more hstep
    rw [hu]
    rcases ih with hs | ⟨sentence, value', hu', hs⟩
    · exact .inl (.chunk hd hne hs)
    · exact .inr ⟨_, _, by rw [hu']; simp, .chunk hd hs⟩
  · intro output c value c' hstep
    obtain ⟨-, ⟨header, data, hu, hh, -⟩ | ⟨hu, -⟩⟩ := decodeBytesStep_done hstep
    · exact .inr ⟨header ++ data, data, hu, .final hh⟩
    · rw [hu]
      exact .inl (.empty _)

/-- Where the reader stops early, the chunks are not joined. -/
theorem StopsEarly.not_joins {s : State UInt8 Tables} (h : StopsEarly s.cursor.unread) :
    ¬ Joins (decodeBytes P) s := by
  intro hj
  obtain ⟨front, rest, value, hu, hread, hlong⟩ := h.reads (P := P) s.aux []
  have hok : decodeBytes P s = .ok value
      ⟨s.cursor.advance front.length (by simp [hu]), s.aux⟩ := hread s.cursor rest hu
  by_cases hsentence : ∃ sentence data rest, s.cursor.unread = sentence ++ rest ∧
      BinarySentence sentence data
  · obtain ⟨sentence, data, rest', hu', hs⟩ := hsentence
    have heq := (hj.sentence sentence data rest' hu' hs).symm.trans hok
    injection heq with _ hstate
    have hoffset := congrArg (fun s => s.cursor.offset) hstate
    simp only [Cursor.advance_offset] at hoffset
    have := hlong sentence data rest' hu' hs
    omega
  · obtain ⟨s', hfail⟩ := hj.refused hsentence
    rw [hfail] at hok
    cases hok

/-- **`decode<std::vector<uint8_t>>` joins any sequence of chunks, with any final form, and refuses
any other input, exactly if no empty non-final chunk comes up.** -/
theorem decodeBytes_joins_iff (P : Platform) (s : State UInt8 Tables) :
    Joins (decodeBytes P) s ↔ ¬ StopsEarly s.cursor.unread := by
  refine ⟨fun hj h => h.not_joins hj, fun h => ⟨fun sentence value rest hu hs => ?_, fun hno => ?_⟩⟩
  · exact hs.reads rest (hu ▸ h) s.aux [] s.cursor rest hu
  · have htame := decodeBytes_leaf (P := P) (fun _ => False) True (s.cursor.unread.length + 1)
    cases hm : decodeBytes P s with
    | ok value s' =>
      rcases decodeBytes_ok hm with hs | ⟨sentence, data, hu, hs⟩
      · exact absurd hs h
      · exact absurd ⟨sentence, data, _, hu, hs⟩ hno
    | fail s' => exact ⟨s', rfl⟩
    | fault e s' => exact (htame.delimited.fault hm).1.elim
    | exhausted => exact absurd hm ((htame.agree s (Nat.lt_succ_self _)).2 trivial)

/-- A chunk without data in front of a final chunk of one byte. -/
theorem emptyChunk_not_joined :
    ¬ Joins (decodeBytes .simple) ⟨.ofList [0x41, 0x00, 0x00, 0x21, 0x61], .empty⟩ :=
  StopsEarly.not_joins (.empty [0x21, 0x61])

end Hessian2
