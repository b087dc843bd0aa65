import Hessian2.BinaryGrammar
import Hessian2.DefinitionGrammar

/-!
# The grammar of scalars

What the decoders of values without objects in them accept, besides strings and `int32_t`.

* `LongSentence`, `DoubleSentence`, `DateSentence`, `BoolSentence` : the bytes of these values.
* `BinaryReading` : the bytes that are read as binary data.
* `ScalarSentence` : the bytes of an object without objects in it.
-/

namespace Hessian2

open Parsing Parsing.Parser Reader

variable {P : Platform} {t t' : Tables} {bs : Bytes}

/-- The bytes of an `int64_t`. -/
inductive LongSentence : Bytes → Int64 → Prop where
  | one {b : UInt8} (hb : 0xd8 ≤ b.toNat ∧ b.toNat ≤ 0xef) : LongSentence [b] (.ofInt (b.toNat - 0xe0))
  | two {b : UInt8} {bs : Bytes} (hb : 0xf0 ≤ b.toNat) (hbs : bs.length = 1) :
    LongSentence (b :: bs) (.ofInt ((b.toNat - 0xf8) * 2 ^ 8 + bigEndian bs))
  | three {b : UInt8} {bs : Bytes} (hb : 0x38 ≤ b.toNat ∧ b.toNat ≤ 0x3f) (hbs : bs.length = 2) :
    LongSentence (b :: bs) (.ofInt ((b.toNat - 0x3c) * 2 ^ 16 + bigEndian bs))
  | five {bs : Bytes} (hbs : bs.length = 4) :
    LongSentence (0x59 :: bs) (.ofInt (IntegralType.int32.ofBits (bigEndian bs)))
  | nine {bs : Bytes} (hbs : bs.length = 8) :
    LongSentence (0x4c :: bs) (.ofInt (IntegralType.int64.ofBits (bigEndian bs)))

/-- The bytes of a `double`. -/
inductive DoubleSentence : Bytes → UInt64 → Prop where
  | zero : DoubleSentence [0x5b] (Double.ofInt 0)
  | one : DoubleSentence [0x5c] (Double.ofInt 1)
  | byte {bs : Bytes} (hbs : bs.length = 1) :
    DoubleSentence (0x5d :: bs) (Double.ofInt (IntegralType.int8.ofBits (bigEndian bs)))
  | short {bs : Bytes} (hbs : bs.length = 2) :
    DoubleSentence (0x5e :: bs) (Double.ofInt (IntegralType.int16.ofBits (bigEndian bs)))
  | thousandths {bs : Bytes} (hbs : bs.length = 4) : DoubleSentence (0x5f :: bs)
      (Double.thousandths (.ofInt (IntegralType.int32.ofBits (bigEndian bs))))
  | full {bs : Bytes} (hbs : bs.length = 8) : DoubleSentence (0x44 :: bs) (.ofNat (bigEndian bs))

/-- The bytes of a date, and its milliseconds. -/
inductive DateSentence : Bytes → Int64 → Prop where
  | minutes {bs : Bytes} (hbs : bs.length = 4) : DateSentence (0x4b :: bs)
      (.ofInt (durationCast .minutes .milliseconds (IntegralType.int32.ofBits (bigEndian bs))))
  | milliseconds {bs : Bytes} (hbs : bs.length = 8) : DateSentence (0x4a :: bs)
      (.ofInt (durationCast .milliseconds .milliseconds (IntegralType.int64.ofBits (bigEndian bs))))

/-- The bytes of a `bool`. -/
inductive BoolSentence : Bytes → Bool → Prop where
  | false : BoolSentence [0x46] false
  | true : BoolSentence [0x54] true

/-- The bytes that are read as binary data: an empty non-final chunk ends it. -/
inductive BinaryReading : Bytes → Bytes → Prop where
  | final {header data : Bytes} (hh : BinaryHeader header data.length) :
    BinaryReading (header ++ data) data
  | empty : BinaryReading [0x41, 0, 0] []
  | chunk {hi lo : UInt8} {data rest value : Bytes}
    (hd : data.length = 256 * hi.toNat + lo.toNat) (hne : data ≠ []) (h : BinaryReading rest value) :
    BinaryReading (0x41 :: hi :: lo :: (data ++ rest)) (data ++ value)

/-- The bytes of an object without objects in it. -/
inductive ScalarSentence (P : Platform) : Bytes → Object → Prop where
  | null : ScalarSentence P [0x4e] .null
  | boolean {bs : Bytes} {data : Bool} (h : BoolSentence bs data) :
    ScalarSentence P bs (.boolean data)
  | integer {bs : Bytes} {data : Int32} (h : IntSentence bs data) :
    ScalarSentence P bs (.integer data)
  | long {bs : Bytes} {data : Int64} (h : LongSentence bs data) : ScalarSentence P bs (.long data)
  | double {bs : Bytes} {data : UInt64} (h : DoubleSentence bs data) :
    ScalarSentence P bs (.double data)
  | date {bs : Bytes} {data : Int64} (h : DateSentence bs data) : ScalarSentence P bs (.date data)
  | string {bs data : Bytes} (h : StringReading P bs data) : ScalarSentence P bs (.string data)
  | binary {bs data : Bytes} (h : BinaryReading bs data) : ScalarSentence P bs (.binary data)

/-! ### Numbers -/

theorem reads_int64Form_iff {code : UInt8} {v : Int64} :
    Reads (int64Form code) t bs v t' ↔ t' = t ∧ LongSentence (code :: bs) v := by
  unfold int64Form
  constructor
  · intro h
    split_ifs at h with h₁ h₂ h₃ h₄ h₅
    · obtain ⟨rfl, rfl, rfl⟩ := reads_pure_iff.1 h
      exact ⟨rfl, .one h₁⟩
    · obtain ⟨hlen, rfl, rfl⟩ := reads_take_map_iff.1 h
      exact ⟨rfl, .two h₂ hlen⟩
    · obtain ⟨hlen, rfl, rfl⟩ := reads_take_map_iff.1 h
      exact ⟨rfl, .three h₃ hlen⟩
    · obtain ⟨hlen, rfl, rfl⟩ := reads_take_map_iff.1 h
      obtain rfl : code = 0x59 := UInt8.toNat_inj.1 h₄
      exact ⟨rfl, .five hlen⟩
    · obtain ⟨hlen, rfl, rfl⟩ := reads_take_map_iff.1 h
      obtain rfl : code = 0x4c := UInt8.toNat_inj.1 h₅
      exact ⟨rfl, .nine hlen⟩
    · exact absurd h not_reads_fail
  · rintro ⟨rfl, h⟩
    cases h with
    | one hb =>
      rw [if_pos hb]
      exact reads_pure _ _
    | two hb hbs =>
      rw [if_neg (by omega), if_pos hb]
      exact reads_take_map_iff.2 ⟨hbs, rfl, rfl⟩
    | three hb hbs =>
      rw [if_neg (by omega), if_neg (by omega), if_pos hb]
      exact reads_take_map_iff.2 ⟨hbs, rfl, rfl⟩
    | five hbs =>
      rw [if_neg (by decide), if_neg (by decide), if_neg (by decide), if_pos (by decide)]
      exact reads_take_map_iff.2 ⟨hbs, rfl, rfl⟩
    | nine hbs =>
      rw [if_neg (by decide), if_neg (by decide), if_neg (by decide), if_neg (by decide),
        if_pos (by decide)]
      exact reads_take_map_iff.2 ⟨hbs, rfl, rfl⟩

theorem reads_doubleForm_iff {code : UInt8} {v : UInt64} :
    Reads (doubleForm code) t bs v t' ↔ t' = t ∧ DoubleSentence (code :: bs) v := by
  unfold doubleForm
  constructor
  · intro h
    split_ifs at h with h₁ h₂ h₃ h₄ h₅ h₆
    · obtain ⟨rfl, rfl, rfl⟩ := reads_pure_iff.1 h
      obtain rfl : code = 0x5b := UInt8.toNat_inj.1 h₁
      exact ⟨rfl, .zero⟩
    · obtain ⟨rfl, rfl, rfl⟩ := reads_pure_iff.1 h
      obtain rfl : code = 0x5c := UInt8.toNat_inj.1 h₂
      exact ⟨rfl, .one⟩
    · obtain ⟨hlen, rfl, rfl⟩ := reads_take_map_iff.1 h
      obtain rfl : code = 0x5d := UInt8.toNat_inj.1 h₃
      exact ⟨rfl, .byte hlen⟩
    · obtain ⟨hlen, rfl, rfl⟩ := reads_take_map_iff.1 h
      obtain rfl : code = 0x5e := UInt8.toNat_inj.1 h₄
      exact ⟨rfl, .short hlen⟩
    · obtain ⟨hlen, rfl, rfl⟩ := reads_take_map_iff.1 h
      obtain rfl : code = 0x5f := UInt8.toNat_inj.1 h₅
      exact ⟨rfl, .thousandths hlen⟩
    · obtain ⟨hlen, rfl, rfl⟩ := reads_take_map_iff.1 h
      obtain rfl : code = 0x44 := UInt8.toNat_inj.1 h₆
      exact ⟨rfl, .full hlen⟩
    · exact absurd h not_reads_fail
  · rintro ⟨rfl, h⟩
    cases h with
    | zero => exact reads_pure _ _
    | one => exact reads_pure _ _
    | byte hbs => exact reads_take_map_iff.2 ⟨hbs, rfl, rfl⟩
    | short hbs => exact reads_take_map_iff.2 ⟨hbs, rfl, rfl⟩
    | thousandths hbs => exact reads_take_map_iff.2 ⟨hbs, rfl, rfl⟩
    | full hbs => exact reads_take_map_iff.2 ⟨hbs, rfl, rfl⟩

theorem reads_dateForm_iff {code : UInt8} {v : Int64} :
    Reads (dateForm .milliseconds code) t bs v t' ↔ t' = t ∧ DateSentence (code :: bs) v := by
  unfold dateForm
  constructor
  · intro h
    split_ifs at h with h₁ h₂
    · obtain ⟨hlen, rfl, rfl⟩ := reads_take_map_iff.1 h
      obtain rfl : code = 0x4b := UInt8.toNat_inj.1 h₁
      exact ⟨rfl, .minutes hlen⟩
    · obtain ⟨hlen, rfl, rfl⟩ := reads_take_map_iff.1 h
      obtain rfl : code = 0x4a := UInt8.toNat_inj.1 h₂
      exact ⟨rfl, .milliseconds hlen⟩
    · exact absurd h not_reads_fail
  · rintro ⟨rfl, h⟩
    cases h with
    | minutes hbs => exact reads_take_map_iff.2 ⟨hbs, rfl, rfl⟩
    | milliseconds hbs => exact reads_take_map_iff.2 ⟨hbs, rfl, rfl⟩

theorem reads_boolForm_iff {code : UInt8} {v : Bool} :
    Reads (boolForm code) t bs v t' ↔ t' = t ∧ BoolSentence (code :: bs) v := by
  unfold boolForm
  constructor
  · intro h
    split_ifs at h with h₁ h₂
    · obtain ⟨rfl, rfl, rfl⟩ := reads_pure_iff.1 h
      obtain rfl : code = 0x46 := UInt8.toNat_inj.1 h₁
      exact ⟨rfl, .false⟩
    · obtain ⟨rfl, rfl, rfl⟩ := reads_pure_iff.1 h
      obtain rfl : code = 0x54 := UInt8.toNat_inj.1 h₂
      exact ⟨rfl, .true⟩
    · exact absurd h not_reads_fail
  · rintro ⟨rfl, h⟩
    cases h with
    | false => exact reads_pure _ _
    | true => exact reads_pure _ _

/-- A lead byte and a form of which it is known what they read. -/
theorem reads_sentence_iff {α : Type} {m : Dec α} {form : UInt8 → Dec α} {S : Bytes → α → Prop}
    (hm : m = next >>= form)
    (hform : ∀ code, Delimited (fun _ => False) (form code))
    (h : ∀ {code : UInt8} {t t' : Tables} {bs : Bytes} {v : α},
      Reads (form code) t bs v t' ↔ t' = t ∧ S (code :: bs) v)
    (hnil : ∀ v, ¬ S [] v) {v : α} : Reads m t bs v t' ↔ t' = t ∧ S bs v := by
  rw [hm, reads_form_iff hform]
  simp only [h]
  constructor
  · rintro ⟨code, bs', rfl, h⟩
    exact h
  · rintro ⟨rfl, h⟩
    cases bs with
    | nil => exact absurd h (hnil v)
    | cons code bs' => exact ⟨code, bs', rfl, rfl, h⟩

theorem reads_int64_iff {v : Int64} : Reads (decodeInt64 P) t bs v t' ↔ t' = t ∧ LongSentence bs v :=
  reads_sentence_iff decodeInt64_eq (fun code => (int64Form_tame code _ False 0).delimited)
    reads_int64Form_iff fun _ h => by cases h

theorem reads_double_iff {v : UInt64} :
    Reads (decodeDouble P) t bs v t' ↔ t' = t ∧ DoubleSentence bs v :=
  reads_sentence_iff decodeDouble_eq (fun code => (doubleForm_tame code _ False 0).delimited)
    reads_doubleForm_iff fun _ h => by cases h

theorem reads_date_iff {v : Int64} :
    Reads (readDate P .milliseconds) t bs v t' ↔ t' = t ∧ DateSentence bs v := by
  refine reads_sentence_iff (readDate_eq .milliseconds) (fun code => ?_) reads_dateForm_iff
    fun _ h => by cases h
  exact .ite (fun _ => (Delimited.take 4).bind fun _ => .pure _) fun _ =>
    .ite (fun _ => (Delimited.take 8).bind fun _ => .pure _) fun _ => .failure

theorem reads_bool_iff {v : Bool} : Reads (decodeBool P) t bs v t' ↔ t' = t ∧ BoolSentence bs v := by
  rw [decodeBool_eq, reads_onFail_iff]
  refine reads_sentence_iff rfl (fun code => ?_) reads_boolForm_iff fun _ h => by cases h
  exact .ite (fun _ => .pure _) fun _ => .ite (fun _ => .pure _) fun _ => .failure

/-! ### Binary data -/

theorem BinaryReading.reads {value : Bytes} (h : BinaryReading bs value) (t : Tables)
    (output : Bytes) : Reads (iter (decodeBytesStep P) output) t bs (output ++ value) t := by
  induction h generalizing output with
  | final hh => exact binaryHeader_reads hh output t
  | empty =>
    rw [List.append_nil]
    exact emptyChunk_reads output t
  | @chunk hi lo data rest value hd hne h ih =>
    have hrest := ih (output ++ data)
    rw [List.append_assoc] at hrest
    exact binaryChunk_reads hd hne hrest

/-- What is read as binary data, behind the data so far. -/
theorem binaryReading_of_ok {output v : Bytes} {s s' : State UInt8 Tables}
    (h : iter (decodeBytesStep P) output s = .ok v s') : ∃ sentence value,
      s.cursor.unread = sentence ++ s'.cursor.unread ∧ v = output ++ value ∧ s'.aux = s.aux ∧
        BinaryReading sentence value := by
  -- the data so far is part of the invariant of the loop
  refine iter_ok_induct (Q := fun output s v s' => ∃ sentence value,
    s.cursor.unread = sentence ++ s'.cursor.unread ∧ v = output ++ value ∧ s'.aux = s.aux ∧
      BinaryReading sentence value) ?_ ?_ h
  · rintro output s j s₁ v s' hstep ⟨sentence, value, hu', rfl, haux', hs⟩
    obtain ⟨hi, lo, data, hu, haux, hd, hne, rfl⟩ := decodeBytesStep_more hstep
    exact ⟨_, _, by rw [hu, hu']; simp, List.append_assoc _ _ _, haux'.trans haux, .chunk hd hne hs⟩
  · intro output s v s' hstep
    obtain ⟨haux, ⟨header, data, hu, hh, rfl⟩ | ⟨hu, rfl⟩⟩ := decodeBytesStep_done hstep
    · exact ⟨_, data, hu, rfl, haux, .final hh⟩
    · exact ⟨_, [], hu, (List.append_nil _).symm, haux, .empty⟩

theorem reads_bytes_iff {v : Bytes} :
    Reads (decodeBytes P) t bs v t' ↔ t' = t ∧ BinaryReading bs v := by
  constructor
  · intro h
    obtain ⟨c, hrun, hc⟩ := h.ofList
    obtain ⟨sentence, value, hu, rfl, haux, hs⟩ := binaryReading_of_ok hrun
    rw [Cursor.unread_ofList, hc, List.append_nil] at hu
    exact ⟨haux, hu ▸ hs⟩
  · rintro ⟨rfl, h⟩
    exact h.reads _ []

/-! ### Lead bytes -/

theorem BinaryReading.lead {value : Bytes} (h : BinaryReading bs value) :
    ∃ b rest, bs = b :: rest ∧ BinaryLead b := by
  cases h with
  | final hh =>
    generalize value.length = n at hh
    cases hh with
    | compact hb => exact ⟨_, _, rfl, .inl hb⟩
    | short hb => exact ⟨_, _, rfl, .inr (.inl hb)⟩
    | long => exact ⟨_, _, rfl, .inr (.inr (.inr rfl))⟩
  | empty => exact ⟨_, _, rfl, .inr (.inr (.inl rfl))⟩
  | chunk => exact ⟨_, _, rfl, .inr (.inr (.inl rfl))⟩

theorem LongSentence.lead {v : Int64} (h : LongSentence bs v) :
    ∃ b rest, bs = b :: rest ∧ LongLead b := by
  cases h with
  | one hb => exact ⟨_, _, rfl, .inr (.inl hb.1)⟩
  | two hb => exact ⟨_, _, rfl, .inr (.inl (by omega))⟩
  | three hb => exact ⟨_, _, rfl, .inl hb⟩
  | five => exact ⟨_, _, rfl, .inr (.inr (.inl rfl))⟩
  | nine => exact ⟨_, _, rfl, .inr (.inr (.inr rfl))⟩

theorem DoubleSentence.lead {v : UInt64} (h : DoubleSentence bs v) :
    ∃ b rest, bs = b :: rest ∧ DoubleLead b := by
  cases h with
  | full => exact ⟨_, _, rfl, .inr rfl⟩
  | _ => exact ⟨_, _, rfl, .inl (by decide)⟩

end Hessian2
