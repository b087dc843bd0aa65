import Hessian2.JavaString
import Hessian2.Parsing.Sentences
import Hessian2.Silent

/-!
# The grammar of definitions

What `decode<Definition>` accepts, in terms of the strings and integers in it.

* `IntSentence`, `StringReading` : the bytes of an `int32_t` and of a string.
* `DefinitionSentence` : a definition, or the number of one that came before.
* `Handles` : `decode<Definition>` accepts exactly the sentences, and returns in any case.
* `definition_handled_iff` : **it does so exactly if the number of fields is not negative, and there is
  memory for as many.**
-/

namespace Hessian2

open Parsing Parsing.Parser Reader

variable {P : Platform}

/-! ### Integers and strings -/

/-- The bytes of an `int32_t`. -/
inductive IntSentence : Bytes → Int32 → Prop where
  | one {b : UInt8} (hb : 0x80 ≤ b.toNat ∧ b.toNat ≤ 0xbf) : IntSentence [b] (.ofInt (b.toNat - 0x90))
  | two {b : UInt8} {bs : Bytes} (hb : 0xc0 ≤ b.toNat ∧ b.toNat ≤ 0xcf) (hbs : bs.length = 1) :
    IntSentence (b :: bs) (.ofInt ((b.toNat - 0xc8) * 2 ^ 8 + bigEndian bs))
  | three {b : UInt8} {bs : Bytes} (hb : 0xd0 ≤ b.toNat ∧ b.toNat ≤ 0xd7) (hbs : bs.length = 2) :
    IntSentence (b :: bs) (.ofInt ((b.toNat - 0xd4) * 2 ^ 16 + bigEndian bs))
  | five {bs : Bytes} (hbs : bs.length = 4) :
    IntSentence (0x49 :: bs) (.ofInt (IntegralType.int32.ofBits (bigEndian bs)))

theorem int32Form_delimited (code : UInt8) : Delimited (fun _ : Fault => False) (int32Form code) :=
  (int32Form_tame code _ False 0).delimited

theorem reads_take_map_iff {α : Type} {n : ℕ} {f : Bytes → α} {t t' : Tables} {bs : Bytes} {a : α} :
    Reads (take n >>= fun bs => pure (f bs) : Dec α) t bs a t' ↔
      bs.length = n ∧ a = f bs ∧ t' = t := by
  rw [reads_map_iff (Delimited.take (E := fun _ => False) n)]
  constructor
  · rintro ⟨bs', h, rfl⟩
    obtain ⟨rfl, hlen, rfl⟩ := reads_take_iff.1 h
    exact ⟨hlen, rfl, rfl⟩
  · rintro ⟨hlen, rfl, rfl⟩
    exact ⟨bs, reads_take_iff.2 ⟨rfl, hlen, rfl⟩, rfl⟩

theorem reads_int32Form_iff {code : UInt8} {t t' : Tables} {bs : Bytes} {v : Int32} :
    Reads (int32Form code) t bs v t' ↔ t' = t ∧ IntSentence (code :: bs) v := by
  unfold int32Form
  constructor
  · intro h
    split_ifs at h with h₁ h₂ h₃ h₄
    · obtain ⟨rfl, rfl, rfl⟩ := reads_pure_iff.1 h
      exact ⟨rfl, .one h₁⟩
    · obtain ⟨hlen, rfl, rfl⟩ := reads_take_map_iff.1 h
      exact ⟨rfl, .two h₂ hlen⟩
    · obtain ⟨hlen, rfl, rfl⟩ := reads_take_map_iff.1 h
      exact ⟨rfl, .three h₃ hlen⟩
    · obtain ⟨hlen, rfl, rfl⟩ := reads_take_map_iff.1 h
      obtain rfl : code = 0x49 := UInt8.toNat_inj.1 h₄
      exact ⟨rfl, .five hlen⟩
    · exact absurd h not_reads_fail
  · rintro ⟨rfl, h⟩
    cases h with
    | one hb =>
      rw [if_pos hb]
      exact reads_pure _ _
    | two hb hbs =>
      rw [if_neg (by omega), if_pos hb]
      exact reads_take_map_iff.2 ⟨hbs, rfl, rfl⟩
    | three hb hbs =>
      rw [if_neg (by omega), if_neg (by omega), if_pos hb]
      exact reads_take_map_iff.2 ⟨hbs, rfl, rfl⟩
    | five hbs =>
      rw [if_neg (by decide), if_neg (by decide), if_neg (by decide), if_pos (by decide)]
      exact reads_take_map_iff.2 ⟨hbs, rfl, rfl⟩

theorem reads_form_iff {α : Type} {form : UInt8 → Dec α} {E : Fault → Prop}
    (hf : ∀ code, Delimited E (form code)) {t t' : Tables} {bs : Bytes} {v : α} :
    Reads (next >>= form) t bs v t' ↔ ∃ code bs', bs = code :: bs' ∧ Reads (form code) t bs' v t' := by
  rw [reads_bind_iff Delimited.next hf]
  constructor
  · rintro ⟨bs₁, bs₂, code, t₁, rfl, h, hr⟩
    obtain ⟨rfl, rfl⟩ := reads_next_iff.1 h
    exact ⟨code, bs₂, rfl, hr⟩
  · rintro ⟨code, bs', rfl, hr⟩
    exact ⟨[code], bs', code, t, rfl, reads_next code t, hr⟩

theorem reads_int32_iff {t t' : Tables} {bs : Bytes} {v : Int32} :
    Reads (decodeInt32 P) t bs v t' ↔ t' = t ∧ IntSentence bs v := by
  rw [decodeInt32_eq, reads_form_iff int32Form_delimited]
  simp only [reads_int32Form_iff]
  constructor
  · rintro ⟨code, bs', rfl, h⟩
    exact h
  · rintro ⟨rfl, h⟩
    cases h with
    | one hb => exact ⟨_, _, rfl, rfl, .one hb⟩
    | two hb hbs => exact ⟨_, _, rfl, rfl, .two hb hbs⟩
    | three hb hbs => exact ⟨_, _, rfl, rfl, .three hb hbs⟩
    | five hbs => exact ⟨_, _, rfl, rfl, .five hbs⟩

/-- The bytes of a string: in a build that is compatible with the Java library the pairs of
surrogates are joined. -/
inductive StringReading (P : Platform) : Bytes → Bytes → Prop where
  | intro {sentence : Bytes} {cs : List Bytes} (hcs : ∀ c ∈ cs, IsCharacter c)
    (h : StringSentence sentence cs.flatten) :
    StringReading P sentence (if P.javaHessianLite then joined cs else cs).flatten

theorem reads_plain_iff {t t' : Tables} {bs value : Bytes} :
    Reads (decodeString P.plain) t bs value t' ↔ t' = t ∧ StringSentence bs value := by
  constructor
  · intro h
    obtain ⟨c, hrun, hc⟩ := h.ofList
    obtain ⟨sentence, rest, hu, hs, hs'⟩ := decodeString_ok_iff.1 hrun
    injection hs' with hcur haux
    have hrest : rest = [] := by rw [← unread_advance_append hu, ← hcur, hc]
    rw [Cursor.unread_ofList, hrest, List.append_nil] at hu
    exact ⟨haux, hu ▸ hs⟩
  · rintro ⟨rfl, hs⟩ c rest hu
    exact decodeString_ok_iff.2 ⟨bs, rest, hu, hs, rfl⟩

theorem reads_java_iff {t t' : Tables} {bs value : Bytes} :
    Reads (decodeString P.java) t bs value t' ↔ t' = t ∧ ∃ cs : List Bytes,
      (∀ c ∈ cs, IsCharacter c) ∧ StringSentence bs cs.flatten ∧ value = (joined cs).flatten := by
  constructor
  · intro h
    obtain ⟨c, hrun, hc⟩ := h.ofList
    obtain ⟨value', hplain⟩ := decodeString_plain_of_java hrun
    have hd := (decodeString_leaf (P := P.plain) (fun _ => False) False 0).delimited
    obtain ⟨rfl, hs⟩ := reads_plain_iff.1 (hd.reads hplain hc)
    obtain ⟨n, hn⟩ := hs.characters
    obtain ⟨cs, -, hcs, rfl⟩ := Words.split_iff_words.1 hn
    obtain ⟨-, rfl, -⟩ := h.unique (decodeString_java_reads hcs hs t')
      (rfl : bs ++ [] = bs ++ [])
    exact ⟨rfl, cs, hcs, hs, rfl⟩
  · rintro ⟨rfl, cs, hcs, hs, rfl⟩
    exact decodeString_java_reads hcs hs _

theorem reads_string_iff {t t' : Tables} {bs value : Bytes} :
    Reads (decodeString P) t bs value t' ↔ t' = t ∧ StringReading P bs value := by
  cases hlite : P.javaHessianLite with
  | false =>
    have hP : P = P.plain := by rw [Platform.plain, ← hlite]
    rw [hP, reads_plain_iff]
    refine and_congr_right fun _ => ⟨fun h => ?_, fun h => ?_⟩
    · obtain ⟨n, hn⟩ := h.characters
      obtain ⟨cs, -, hcs, rfl⟩ := Words.split_iff_words.1 hn
      exact .intro (P := P.plain) hcs h
    · cases h with
      | intro hcs h => exact h
  | true =>
    have hP : P = P.java := by rw [Platform.java, ← hlite]
    rw [hP, reads_java_iff]
    refine and_congr_right fun _ => ⟨fun h => ?_, fun h => ?_⟩
    · obtain ⟨cs, hcs, h, rfl⟩ := h
      exact .intro (P := P.java) hcs h
    · cases h with
      | @intro cs hcs h => exact ⟨cs, hcs, h, rfl⟩

/-! ### Definitions -/

/-- The bytes of a definition, behind those in `table`, and the table behind it. -/
inductive DefinitionSentence (P : Platform) (table : List RawDefinition) :
    Bytes → RawDefinition → List RawDefinition → Prop where
  | full {type count typeName : Bytes} {n : Int32} {fields fieldNames : List Bytes}
    (ht : StringReading P type typeName) (hc : IntSentence count n) (hn : 0 ≤ n.toInt)
    (hlen : (fieldNames.length : ℤ) = n.toInt)
    (hf : List.Forall₂ (StringReading P) fields fieldNames) :
    DefinitionSentence P table (0x43 :: (type ++ (count ++ fields.flatten))) ⟨typeName, fieldNames⟩
      (table ++ [⟨typeName, fieldNames⟩])
  | number {count : Bytes} {n : Int32} {d : RawDefinition} (hc : IntSentence count n)
    (h : table[n.toUInt32.toNat]? = some d) : DefinitionSentence P table (0x4f :: count) d table
  | compact {b : UInt8} {d : RawDefinition} (hb : 0x60 ≤ b.toNat ∧ b.toNat ≤ 0x6f)
    (h : table[b.toNat - 0x60]? = some d) : DefinitionSentence P table [b] d table

/-- The strings of a counted loop. -/
theorem sequence_strings_iff {t t' : Tables} {bs : Bytes} {values : List Bytes} :
    Sequence (Reads (decodeString P)) t bs values t' ↔
      t' = t ∧ ∃ parts : List Bytes, bs = parts.flatten ∧
        List.Forall₂ (StringReading P) parts values := by
  constructor
  · intro h
    induction h with
    | nil t => exact ⟨rfl, [], rfl, .nil⟩
    | cons h hs ih =>
      obtain ⟨rfl, hread⟩ := reads_string_iff.1 h
      obtain ⟨rfl, parts, rfl, hparts⟩ := ih
      exact ⟨rfl, _ :: parts, rfl, .cons hread hparts⟩
  · rintro ⟨rfl, parts, rfl, hparts⟩
    induction hparts with
    | nil => exact .nil _
    | cons h hs ih => exact .cons (reads_string_iff.2 ⟨rfl, h⟩) ih

theorem reads_lookup_iff {α : Type} {f : Tables → Option α} {t t' : Tables} {bs : Bytes} {a : α} :
    Reads (Dec.lookup f) t bs a t' ↔ bs = [] ∧ t' = t ∧ f t = some a := by
  constructor
  · intro h
    obtain ⟨c, hrun, hc⟩ := h.ofList
    rw [Dec.lookup, bind_apply, aux_apply, Outcome.ok_andThen] at hrun
    cases hf : f t with
    | none =>
      rw [hf] at hrun
      cases hrun
    | some b =>
      rw [hf] at hrun
      cases hrun
      exact ⟨hc, rfl, rfl⟩
  · rintro ⟨rfl, rfl, hf⟩
    exact Dec.lookup_reads hf

/-- The only fault of `decode<Definition>`. -/
def IsLengthError (e : Fault) : Prop := e = .lengthError

theorem decodeString_delimited : Delimited IsLengthError (decodeString P) :=
  (decodeString_leaf IsLengthError False 0).delimited

theorem decodeInt32_delimited : Delimited IsLengthError (decodeInt32 P) :=
  (decodeInt32_leaf IsLengthError False 0).delimited

theorem lookup_delimited {α : Type} (f : Tables → Option α) :
    Delimited IsLengthError (Dec.lookup f) :=
  (Dec.lookup_tame IsLengthError False 0 f).delimited

theorem reserve_delimited (n : Int32) : Delimited IsLengthError (reserve ample n) := by
  rw [reserve_ample]
  exact .ite (fun _ => .stop rfl) fun _ => .pure ()

/-- The end of a definition: its field names, and its entry in the table. -/
def definitionEnd (P : Platform) (typeName : Bytes) (n : Int32) : Dec RawDefinition :=
  times (decodeString P) n.toInt.toNat >>= fun fieldNames =>
    modifyAux (fun t => { t with defRef := t.defRef ++ [⟨typeName, fieldNames⟩] }) >>= fun _ =>
      pure ⟨typeName, fieldNames⟩

theorem definitionEnd_delimited (typeName : Bytes) (n : Int32) :
    Delimited IsLengthError (definitionEnd P typeName n) :=
  (Delimited.times decodeString_delimited _).bind fun _ => (Delimited.modifyAux _).bind fun _ => .pure _

theorem reads_definitionEnd_iff {typeName : Bytes} {n : Int32} {t t' : Tables} {bs : Bytes}
    {d : RawDefinition} : Reads (definitionEnd P typeName n) t bs d t' ↔
      ∃ fields fieldNames : List Bytes, bs = fields.flatten ∧ d = ⟨typeName, fieldNames⟩ ∧
        fieldNames.length = n.toInt.toNat ∧ List.Forall₂ (StringReading P) fields fieldNames ∧
        t' = { t with defRef := t.defRef ++ [d] } := by
  rw [definitionEnd, reads_bind_iff (Delimited.times decodeString_delimited _) fun _ =>
    (Delimited.modifyAux _).bind fun _ => .pure _]
  simp only [reads_times_iff decodeString_delimited, sequence_strings_iff]
  constructor
  · rintro ⟨bs₁, bs₂, fieldNames, t₁, rfl, ⟨hlen, rfl, fields, rfl, hf⟩, h⟩
    rw [reads_bind_iff (Delimited.modifyAux _) fun _ => Delimited.pure (E := IsLengthError) _] at h
    obtain ⟨bs₃, bs₄, u, t₂, rfl, h₃, h₄⟩ := h
    obtain ⟨rfl, rfl⟩ := reads_modifyAux_iff.1 h₃
    obtain ⟨rfl, rfl, rfl⟩ := reads_pure_iff.1 h₄
    exact ⟨fields, fieldNames, by simp, rfl, hlen, hf, rfl⟩
  · rintro ⟨fields, fieldNames, rfl, rfl, hlen, hf, rfl⟩
    exact ⟨_, [], fieldNames, t, (List.append_nil _).symm, ⟨hlen, rfl, fields, rfl, hf⟩,
      (reads_modifyAux _ t).bind (reads_pure _ _)⟩

theorem reads_reserve_iff {n : Int32} {t t' : Tables} {bs : Bytes} {u : Unit} :
    Reads (reserve ample n) t bs u t' ↔ 0 ≤ n.toInt ∧ bs = [] ∧ t' = t := by
  rw [reserve_ample]
  split
  · next hn => exact ⟨fun h => absurd h not_reads_fault, fun h => absurd h.1 (by omega)⟩
  · next hn =>
    rw [reads_pure_iff]
    exact ⟨fun h => ⟨by omega, h.1, h.2.2⟩, fun h => ⟨h.2.1, rfl, h.2.2⟩⟩

theorem definitionCount_delimited (typeName : Bytes) : Delimited IsLengthError
    (decodeInt32 P >>= fun n => reserve ample n >>= fun _ => definitionEnd P typeName n) :=
  decodeInt32_delimited.bind fun n => (reserve_delimited n).bind fun _ => definitionEnd_delimited _ n

theorem decodeDefinitionBy_delimited (code : UInt8) :
    Delimited IsLengthError (decodeDefinitionBy P code) := by
  unfold decodeDefinitionBy decodeDefinitionByWith
  refine .ite (fun _ => decodeString_delimited.bind definitionCount_delimited) fun _ => ?_
  refine .ite (fun _ => decodeInt32_delimited.bind fun _ => lookup_delimited _) fun _ => ?_
  exact .ite (fun _ => lookup_delimited _) fun _ => .failure

/-- A definition behind its lead byte. -/
theorem reads_definitionBy_iff {code : UInt8} {t t' : Tables} {bs : Bytes} {d : RawDefinition} :
    Reads (decodeDefinitionBy P code) t bs d t' ↔
      ∃ table, DefinitionSentence P t.defRef (code :: bs) d table ∧
        t' = { t with defRef := table } := by
  unfold decodeDefinitionBy decodeDefinitionByWith
  constructor
  · intro h
    split_ifs at h with h₁ h₂ h₃
    · obtain ⟨bs₁, bs₂, typeName, t₁, rfl, htype, hcount⟩ :=
        (reads_bind_iff decodeString_delimited definitionCount_delimited).1 h
      obtain ⟨rfl, ht⟩ := reads_string_iff.1 htype
      obtain ⟨bs₃, bs₄, n, t₂, rfl, hint, hreserve⟩ := (reads_bind_iff decodeInt32_delimited fun n =>
        (reserve_delimited n).bind fun _ => definitionEnd_delimited typeName n).1 hcount
      obtain ⟨rfl, hc⟩ := reads_int32_iff.1 hint
      obtain ⟨bs₅, bs₆, u, t₃, rfl, hr, hend⟩ :=
        (reads_bind_iff (reserve_delimited n) fun _ => definitionEnd_delimited typeName n).1 hreserve
      obtain ⟨hn, rfl, rfl⟩ := reads_reserve_iff.1 hr
      obtain ⟨fields, fieldNames, rfl, rfl, hlen, hf, rfl⟩ := reads_definitionEnd_iff.1 hend
      -- the number of fields was not negative, or nothing would have been read
      rw [h₁]
      exact ⟨_, .full ht hc hn (by omega) hf, rfl⟩
    · obtain ⟨bs₁, bs₂, n, t₁, rfl, hint, hlookup⟩ :=
        (reads_bind_iff decodeInt32_delimited fun _ => lookup_delimited _).1 h
      obtain ⟨rfl, hc⟩ := reads_int32_iff.1 hint
      obtain ⟨rfl, rfl, hd⟩ := reads_lookup_iff.1 hlookup
      rw [h₂, List.append_nil]
      exact ⟨_, .number hc hd, rfl⟩
    · obtain ⟨rfl, rfl, hd⟩ := reads_lookup_iff.1 h
      exact ⟨_, .compact h₃ hd, rfl⟩
    · exact absurd h not_reads_fail
  · rintro ⟨table, h, rfl⟩
    generalize hbs : code :: bs = sentence at h
    cases h with
    | @full type count typeName n fields fieldNames ht hc hn hlen hf =>
      cases hbs
      rw [if_pos rfl]
      refine (reads_bind_iff decodeString_delimited definitionCount_delimited).2
        ⟨_, _, typeName, t, rfl, reads_string_iff.2 ⟨rfl, ht⟩, ?_⟩
      refine Reads.bind (reads_int32_iff.2 ⟨rfl, hc⟩) ?_
      have hr : Reads (reserve ample n) t [] () t := reads_reserve_iff.2 ⟨hn, rfl, rfl⟩
      refine hr.bind ?_
      exact reads_definitionEnd_iff.2 ⟨fields, fieldNames, rfl, rfl, by omega, hf, rfl⟩
    | @number count n _ hc hd =>
      cases hbs
      rw [if_neg (by decide), if_pos rfl]
      exact Reads.bind_nil (reads_int32_iff.2 ⟨rfl, hc⟩) (reads_lookup_iff.2 ⟨rfl, rfl, hd⟩)
    | compact hb hd =>
      cases hbs
      rw [if_neg (by rintro rfl; exact absurd hb (by decide)),
        if_neg (by rintro rfl; exact absurd hb (by decide)),
        if_pos (show 0x60 ≤ code ∧ code ≤ 0x6f from hb)]
      exact reads_lookup_iff.2 ⟨rfl, rfl, hd⟩

theorem reads_definition_iff {t t' : Tables} {bs : Bytes} {d : RawDefinition} :
    Reads (decodeDefinition P) t bs d t' ↔
      ∃ table, DefinitionSentence P t.defRef bs d table ∧ t' = { t with defRef := table } := by
  rw [decodeDefinition_eq, reads_form_iff decodeDefinitionBy_delimited]
  simp only [reads_definitionBy_iff]
  constructor
  · rintro ⟨code, bs', rfl, h⟩
    exact h
  · rintro ⟨table, h, rfl⟩
    cases h with
    | full ht hc hn hlen hf => exact ⟨_, _, rfl, _, .full ht hc hn hlen hf, rfl⟩
    | number hc hd => exact ⟨_, _, rfl, _, .number hc hd, rfl⟩
    | compact hb hd => exact ⟨_, _, rfl, _, .compact hb hd, rfl⟩

/-! ### Definitions that are refused -/

/-- The input begins with a definition whose number of fields is negative. -/
def StartsNegative (P : Platform) (bs : Bytes) : Prop :=
  ∃ (type count rest typeName : Bytes) (n : Int32), bs = 0x43 :: (type ++ (count ++ rest)) ∧
    StringReading P type typeName ∧ IntSentence count n ∧ n.toInt < 0

/-- The input begins with a definition whose field names cannot be reserved. -/
def StartsUnreservable (P : Platform) (allocates : Allocator) (bs : Bytes) : Prop :=
  ∃ (type count rest typeName : Bytes) (n : Int32), bs = 0x43 :: (type ++ (count ++ rest)) ∧
    StringReading P type typeName ∧ IntSentence count n ∧
      (n.toInt < 0 ∨ 0 < n.toInt ∧ allocates n.toInt.toNat = false)

theorem StartsNegative.unreservable {bs : Bytes} {allocates : Allocator} (h : StartsNegative P bs) :
    StartsUnreservable P allocates bs := by
  obtain ⟨type, count, rest, typeName, n, hbs, ht, hc, hn⟩ := h
  exact ⟨type, count, rest, typeName, n, hbs, ht, hc, .inl hn⟩

/-- `decode<Definition>` accepts exactly the sentences, reads a sentence whole and nothing behind
it, and enters exactly the definition in it; every other input is refused, with the table as it
was. -/
structure Handles (P : Platform) (allocates : Allocator) (s : State UInt8 Tables) : Prop where
  ok_iff : ∀ d s', decodeDefinitionWith P allocates s = .ok d s' ↔
    ∃ (sentence rest : Bytes) (table : List RawDefinition) (h : s.cursor.unread = sentence ++ rest),
      DefinitionSentence P s.aux.defRef sentence d table ∧
        s' = ⟨s.cursor.advance sentence.length (by simp [h]), { s.aux with defRef := table }⟩
  refused : (¬ ∃ sentence rest d table, s.cursor.unread = sentence ++ rest ∧
      DefinitionSentence P s.aux.defRef sentence d table) →
    ∃ s', decodeDefinitionWith P allocates s = .fail s' ∧ s'.aux.defRef = s.aux.defRef

/-- What is handled does not stop the program. -/
theorem Handles.not_fault {allocates : Allocator} {s s' : State UInt8 Tables} {e : Fault}
    (h : Handles P allocates s) : decodeDefinitionWith P allocates s ≠ .fault e s' := by
  intro hs'
  obtain ⟨s'', hs'', -⟩ := h.refused fun ⟨sentence, rest, d, table, hu, hd⟩ => by
    have hok := (h.ok_iff d _).2 ⟨sentence, rest, table, hu, hd, rfl⟩
    rw [hs'] at hok
    cases hok
  rw [hs'] at hs''
  cases hs''

theorem decodeDefinition_delimited : Delimited IsLengthError (decodeDefinition P) :=
  (decodeDefinition_tame (E := IsLengthError) rfl False 0).delimited

/-- What the accepted inputs are, whatever happens to the others. -/
theorem decodeDefinition_ok_iff {s s' : State UInt8 Tables} {d : RawDefinition} :
    decodeDefinition P s = .ok d s' ↔
      ∃ (sentence rest : Bytes) (table : List RawDefinition) (h : s.cursor.unread = sentence ++ rest),
        DefinitionSentence P s.aux.defRef sentence d table ∧
          s' = ⟨s.cursor.advance sentence.length (by simp [h]), { s.aux with defRef := table }⟩ := by
  rw [decodeDefinition_delimited.ok_iff]
  constructor
  · rintro ⟨sentence, rest, hu, hr, hs'⟩
    obtain ⟨table, htable, haux⟩ := reads_definition_iff.1 hr
    exact ⟨sentence, rest, table, hu, htable, by rw [hs', haux]⟩
  · rintro ⟨sentence, rest, table, hu, htable, rfl⟩
    exact ⟨sentence, rest, hu, reads_definition_iff.2 ⟨table, htable, rfl⟩, rfl⟩

/-- A refused definition leaves everything but the position as it was. -/
theorem decodeDefinition_fail {s s' : State UInt8 Tables} (h : decodeDefinition P s = .fail s') :
    s'.aux = s.aux := by
  have lookup {s s' : State UInt8 Tables} {f : Tables → Option RawDefinition}
      (h : Dec.lookup f s = .fail s') : s'.aux = s.aux :=
    ((lookup_evolves f : Evolves Eq (Dec.lookup f)).fail h).symm
  rw [decodeDefinition_eq] at h
  rcases bind_eq_fail.1 h with h | ⟨code, s₁, h₁, h⟩
  · exact ((Evolves.next : Evolves Eq (next : Dec UInt8)).fail h).symm
  rw [← (next_eq_ok h₁).2]
  unfold decodeDefinitionBy decodeDefinitionByWith at h
  split_ifs at h
  · have hstring : Evolves Eq (decodeString P) := decodeString_evolves
    have hint : Evolves Eq (decodeInt32 P) := decodeInt32_evolves
    rcases bind_eq_fail.1 h with h | ⟨typeName, s₂, h₂, h⟩
    · exact (hstring.fail h).symm
    rcases bind_eq_fail.1 h with h | ⟨n, s₃, h₃, h⟩
    · exact ((hstring.ok h₂).trans (hint.fail h)).symm
    rcases bind_eq_fail.1 h with h | ⟨u, s₄, h₄, h⟩
    · exact absurd h (by rw [reserve_ample]; split <;> rintro ⟨⟩)
    rcases bind_eq_fail.1 h with h | ⟨names, s₅, h₅, h⟩
    · have hreserve : Evolves Eq (reserve ample n) := reserve_evolves ample n
      exact ((hstring.ok h₂).trans ((hint.ok h₃).trans
        ((hreserve.ok h₄).trans ((hstring.times _).fail h)))).symm
    · cases h
  · rcases bind_eq_fail.1 h with h | ⟨n, s₂, h₂, h⟩
    · exact ((decodeInt32_evolves : Evolves Eq (decodeInt32 P)).fail h).symm
    · exact (lookup h).trans ((decodeInt32_evolves : Evolves Eq (decodeInt32 P)).ok h₂).symm
  · exact lookup h
  · cases h
    rfl

/-- A leaf does not stop the program. -/
theorem Dec.Leaf.not_fault {α : Type} {m : Dec α} (hm : Dec.Leaf m) {s s' : State UInt8 Tables}
    {e : Fault} : m s ≠ .fault e s' :=
  fun h => ((hm (fun _ => False) False 0).delimited.fault (c := s.cursor) (t := s.aux) h).1

/-- Strings and integers that are read begin with their sentences. -/
theorem decodeString_ok {s s' : State UInt8 Tables} {value : Bytes}
    (h : decodeString P s = .ok value s') : ∃ sentence,
      s.cursor.unread = sentence ++ s'.cursor.unread ∧ StringReading P sentence value := by
  obtain ⟨sentence, rest, hu, hr, hs'⟩ := decodeString_delimited.ok_iff.1 h
  rw [hs', unread_advance_append hu]
  exact ⟨sentence, hu, (reads_string_iff.1 hr).2⟩

theorem decodeInt32_ok {s s' : State UInt8 Tables} {n : Int32}
    (h : decodeInt32 P s = .ok n s') : ∃ sentence,
      s.cursor.unread = sentence ++ s'.cursor.unread ∧ IntSentence sentence n := by
  obtain ⟨sentence, rest, hu, hr, hs'⟩ := decodeInt32_delimited.ok_iff.1 h
  rw [hs', unread_advance_append hu]
  exact ⟨sentence, hu, (reads_int32_iff.1 hr).2⟩

/-- The program is stopped by a negative number of fields only. -/
theorem decodeDefinition_fault {s s' : State UInt8 Tables} {e : Fault}
    (h : decodeDefinition P s = .fault e s') : StartsNegative P s.cursor.unread := by
  have lookup {s : State UInt8 Tables} {f : Tables → Option RawDefinition} :
      Dec.lookup f s ≠ .fault e s' := fun h =>
    ((Dec.lookup_tame (fun _ => False) False 0 f).delimited.fault (c := s.cursor) (t := s.aux) h).1
  rw [decodeDefinition_eq] at h
  rcases bind_eq_fault.1 h with h | ⟨code, s₁, h₁, h⟩
  · exact ((Delimited.next (E := fun _ => False)).fault (c := s.cursor) (t := s.aux) h).1.elim
  obtain ⟨hu, -⟩ := next_eq_ok h₁
  unfold decodeDefinitionBy decodeDefinitionByWith at h
  split_ifs at h with hcode
  · rcases bind_eq_fault.1 h with h | ⟨typeName, s₂, h₂, h⟩
    · exact absurd h decodeString_leaf.not_fault
    rcases bind_eq_fault.1 h with h | ⟨n, s₃, h₃, h⟩
    · exact absurd h decodeInt32_leaf.not_fault
    obtain ⟨type, hu₂, ht⟩ := decodeString_ok h₂
    obtain ⟨count, hu₃, hc⟩ := decodeInt32_ok h₃
    refine ⟨type, count, _, typeName, n, by rw [hu, hcode, hu₂, hu₃], ht, hc, ?_⟩
    by_contra hn
    rcases bind_eq_fault.1 h with h | ⟨u, s₄, h₄, h⟩
    · rw [reserve_ample, if_neg hn] at h
      cases h
    rcases bind_eq_fault.1 h with h | ⟨names, s₅, h₅, h⟩
    · have htimes := (decodeString_leaf (P := P) (fun _ => False) False 0).delimited.times n.toInt.toNat
      exact (htimes.fault (c := s₄.cursor) (t := s₄.aux) h).1
    · cases h
  · rcases bind_eq_fault.1 h with h | ⟨n, s₂, h₂, h⟩
    · exact absurd h decodeInt32_leaf.not_fault
    · exact absurd h lookup
  · exact absurd h lookup
  · cases h

/-- A definition whose field names cannot be reserved stops the program. -/
theorem fault_of_reserve {allocates : Allocator} {e : Fault} {s : State UInt8 Tables}
    {type count rest typeName : Bytes} {n : Int32}
    (hu : s.cursor.unread = 0x43 :: (type ++ (count ++ rest))) (ht : StringReading P type typeName)
    (hc : IntSentence count n) (hr : reserve allocates n = fault e) :
    ∃ s', decodeDefinitionWith P allocates s = .fault e s' := by
  have hreserve : Raises (reserve allocates n) s.aux [] e := by
    rw [hr]
    exact fun c rest hu => ⟨⟨c, s.aux⟩, rfl⟩
  have hcount := Raises.bind_right
    (f := fun n => reserve allocates n >>= fun _ => definitionEnd P typeName n)
    (reads_int32_iff (P := P).2 ⟨rfl, hc⟩) (hreserve.bind_left _)
  have htype : Raises (decodeDefinitionByWith P allocates 0x43) s.aux (type ++ (count ++ [])) e :=
    Raises.bind_right (f := fun typeName => decodeInt32 P >>= fun n => reserve allocates n >>= fun _ =>
      definitionEnd P typeName n) (reads_string_iff.2 ⟨rfl, ht⟩) hcount
  have hlead := Raises.bind_right (f := decodeDefinitionByWith P allocates)
    (reads_next (0x43 : UInt8) s.aux) htype
  rw [decodeDefinitionWith_eq]
  exact hlead s.cursor rest (by rw [hu]; simp)

/-- A negative number of fields stops the program. -/
theorem StartsNegative.fault {s : State UInt8 Tables} (h : StartsNegative P s.cursor.unread) :
    ∃ s', decodeDefinition P s = .fault .lengthError s' := by
  obtain ⟨type, count, rest, typeName, n, hu, ht, hc, hn⟩ := h
  exact fault_of_reserve hu ht hc (by rw [reserve_ample, if_pos hn])

/-- So does any number of fields for which there is no memory. -/
theorem StartsUnreservable.fault {allocates : Allocator} {s : State UInt8 Tables}
    (h : StartsUnreservable P allocates s.cursor.unread) :
    ∃ e s', decodeDefinitionWith P allocates s = .fault e s' := by
  obtain ⟨type, count, rest, typeName, n, hu, ht, hc, hn | ⟨hn, hmemory⟩⟩ := h
  · exact ⟨_, fault_of_reserve hu ht hc (if_pos hn)⟩
  · refine ⟨_, fault_of_reserve (e := .badAlloc) hu ht hc ?_⟩
    rw [reserve, if_neg (by omega), if_neg (by rw [hmemory]; simp; omega)]

/-- Where the field names can be reserved, the allocator makes no difference. -/
theorem decodeDefinitionWith_of_reservable {allocates : Allocator} {s : State UInt8 Tables}
    (h : ¬ StartsUnreservable P allocates s.cursor.unread) :
    decodeDefinitionWith P allocates s = decodeDefinition P s := by
  rw [decodeDefinitionWith_eq, decodeDefinition_eq]
  refine bind_congr_ok fun code s₁ h₁ => ?_
  obtain ⟨hu, -⟩ := next_eq_ok h₁
  unfold decodeDefinitionBy decodeDefinitionByWith
  split_ifs with hcode
  · refine bind_congr_ok fun typeName s₂ h₂ => bind_congr_ok fun n s₃ h₃ => ?_
    obtain ⟨type, hu₂, ht⟩ := decodeString_ok h₂
    obtain ⟨count, hu₃, hc⟩ := decodeInt32_ok h₃
    have hn : ¬ (n.toInt < 0 ∨ 0 < n.toInt ∧ allocates n.toInt.toNat = false) := fun hn =>
      h ⟨type, count, _, typeName, n, by rw [hu, hcode, hu₂, hu₃], ht, hc, hn⟩
    have hmemory : n.toInt = 0 ∨ allocates n.toInt.toNat = true := by
      rw [or_iff_not_imp_left, ← Bool.not_eq_false]
      exact fun h₀ hfalse => hn (.inr ⟨by omega, hfalse⟩)
    have hreserve : reserve allocates n = reserve ample n := by
      rw [reserve_ample, if_neg (by omega), reserve, if_neg (by omega), if_pos hmemory]
    rw [hreserve]
  · rfl
  · rfl
  · rfl

/-- **`decode<Definition>` accepts exactly the definitions and the numbers of definitions, and
refuses everything else with the table as it was, exactly if the input does not begin with a
definition whose field names cannot be reserved: there is a negative number of them, or the
allocator has no memory for as many.** -/
theorem definition_handled_iff (P : Platform) (allocates : Allocator) (s : State UInt8 Tables) :
    Handles P allocates s ↔ ¬ StartsUnreservable P allocates s.cursor.unread := by
  constructor
  · intro h hstop
    obtain ⟨e, s', hs'⟩ := hstop.fault
    exact h.not_fault hs'
  · intro hstop
    have heq := decodeDefinitionWith_of_reservable hstop
    refine ⟨fun d s' => by rw [heq, decodeDefinition_ok_iff], fun hno => ?_⟩
    rw [heq]
    cases h : decodeDefinition P s with
    | ok d s' =>
      obtain ⟨sentence, rest, table, hu, hd, -⟩ := decodeDefinition_ok_iff.1 h
      exact absurd ⟨sentence, rest, d, table, hu, hd⟩ hno
    | fail s' => exact ⟨s', rfl, by rw [decodeDefinition_fail h]⟩
    | fault e s' => exact absurd (decodeDefinition_fault h).unreservable hstop
    | exhausted =>
      have htame := decodeDefinition_tame (P := P) (E := IsLengthError) rfl True
        (s.cursor.unread.length + 1)
      exact absurd h ((htame.agree s (Nat.lt_succ_self _)).2 trivial)

/-- A definition of a class without a name and with -1 fields, and one with 2147483647 fields in 16 GiB,
32 bytes for a string. -/
theorem definition_not_handled :
    ¬ Handles .simple ample ⟨.ofList [0x43, 0x00, 0x8f], .empty⟩ ∧
      ¬ Handles .simple (fun n => n * 32 ≤ 2 ^ 34)
        ⟨.ofList [0x43, 0x00, 0x49, 0x7f, 0xff, 0xff, 0xff], .empty⟩ := by
  constructor
  · intro h
    obtain ⟨s', hs'⟩ := Outcome.exists_of_fault? (e := Fault.lengthError)
      (o := decodeDefinitionWith .simple ample ⟨.ofList [0x43, 0x00, 0x8f], .empty⟩) (by decide +kernel)
    exact h.not_fault hs'
  · intro h
    obtain ⟨s', hs'⟩ := Outcome.exists_of_fault? (e := Fault.badAlloc)
      (o := decodeDefinitionWith .simple (fun n => n * 32 ≤ 2 ^ 34)
        ⟨.ofList [0x43, 0x00, 0x49, 0x7f, 0xff, 0xff, 0xff], .empty⟩) (by decide +kernel)
    exact h.not_fault hs'

end Hessian2
