import Hessian2.DefinitionGrammar

/-!
# The grammar of lists

What `decode<TypedListObject>` and `decode<UntypedListObject>` accept, in terms of the objects in
the list.

* `TypeSentence` : the name of a type, or the number of one that came before.
* `ListHeader`, `ListSentence` : a list in front of its elements, and a list.
* `Misread` : what the code takes for a list although it is none, and what stops the program.
* `list_decoded_iff` : **exactly the lists are accepted, and everything else is refused, exactly if
  the input is not misread.**
-/

namespace Hessian2

open Parsing Parsing.Parser Reader

variable {P : Platform} {t t' : Tables} {bs : Bytes}

/-! ### Types -/

/-- The bytes of a type, behind those in `table`, and the table behind it. -/
inductive TypeSentence (P : Platform) (table : List Bytes) : Bytes → Bytes → List Bytes → Prop where
  | name {type typeName : Bytes} (h : StringReading P type typeName) :
    TypeSentence P table type typeName (table ++ [typeName])
  | number {count typeName : Bytes} {n : Int32} (hn : IntSentence count n)
    (h : table[n.toUInt32.toNat]? = some typeName) : TypeSentence P table count typeName table

theorem StringReading.lead {sentence value : Bytes} (h : StringReading P sentence value) :
    ∃ b bs, sentence = b :: bs ∧ StringLead b := by
  cases h with
  | intro hcs h => exact h.lead

theorem IntSentence.lead {sentence : Bytes} {n : Int32} (h : IntSentence sentence n) :
    ∃ b bs, sentence = b :: bs ∧ IntLead b := by
  cases h with
  | one hb => exact ⟨_, _, rfl, .inl (by omega)⟩
  | two hb => exact ⟨_, _, rfl, .inl (by omega)⟩
  | three hb => exact ⟨_, _, rfl, .inl (by omega)⟩
  | five => exact ⟨_, _, rfl, .inr rfl⟩

/-- The comparison of `decode<TypeRef>` finds the lead bytes of strings. -/
theorem stringLead_iff (b : UInt8) :
    (b ≤ 31 ∨ (48 ≤ b ∧ b ≤ 51) ∨ b = 82 ∨ b = 83) ↔ StringLead b := by
  simp only [StringLead, UInt8.le_iff_toNat_le, ← UInt8.toNat_inj, UInt8.reduceToNat]

theorem not_stringLead {b : UInt8} (h : IntLead b) : ¬ StringLead b := by
  rw [StringLead]
  rw [IntLead] at h
  omega

theorem reads_typeName_iff {typeName : Bytes} :
    Reads (decodeString P >>= fun typeName =>
      modifyAux (fun t => { t with typesRef := t.typesRef ++ [typeName] }) >>= fun _ =>
        pure typeName) t bs typeName t' ↔
      StringReading P bs typeName ∧ t' = { t with typesRef := t.typesRef ++ [typeName] } := by
  rw [reads_bind_iff decodeString_delimited fun _ => (Delimited.modifyAux _).bind fun _ => .pure _]
  constructor
  · rintro ⟨bs₁, bs₂, a, t₁, rfl, hread, h⟩
    obtain ⟨rfl, hstring⟩ := reads_string_iff.1 hread
    rw [reads_bind_iff (Delimited.modifyAux _) fun _ => Delimited.pure (E := IsLengthError) _] at h
    obtain ⟨bs₃, bs₄, u, t₂, rfl, h₃, h₄⟩ := h
    obtain ⟨rfl, rfl⟩ := reads_modifyAux_iff.1 h₃
    obtain ⟨rfl, rfl, rfl⟩ := reads_pure_iff.1 h₄
    rw [List.append_nil, List.append_nil]
    exact ⟨hstring, rfl⟩
  · rintro ⟨hstring, rfl⟩
    exact ⟨bs, [], typeName, t, (List.append_nil bs).symm, reads_string_iff.2 ⟨rfl, hstring⟩,
      (reads_modifyAux _ t).bind (reads_pure _ _)⟩

theorem reads_typeRef_iff {typeName : Bytes} : Reads (decodeTypeRef P) t bs typeName t' ↔
    ∃ table, TypeSentence P t.typesRef bs typeName table ∧ t' = { t with typesRef := table } := by
  rw [decodeTypeRef_eq, reads_ahead_iff]
  constructor
  · rintro ⟨b, bs', rfl, h⟩
    unfold decodeTypeRefBy at h
    split_ifs at h
    · obtain ⟨hstring, rfl⟩ := reads_typeName_iff.1 h
      exact ⟨_, .name hstring, rfl⟩
    · obtain ⟨bs₁, bs₂, n, t₁, hbs, hint, hlookup⟩ :=
        (reads_bind_iff decodeInt32_delimited fun _ => lookup_delimited _).1 h
      obtain ⟨rfl, hn⟩ := reads_int32_iff.1 hint
      obtain ⟨rfl, rfl, hname⟩ := reads_lookup_iff.1 hlookup
      rw [List.append_nil] at hbs
      exact ⟨_, .number (hbs ▸ hn) hname, rfl⟩
  · rintro ⟨table, h, rfl⟩
    cases h with
    | name hstring =>
      obtain ⟨b, bs', rfl, hb⟩ := hstring.lead
      refine ⟨b, bs', rfl, ?_⟩
      rw [decodeTypeRefBy, if_pos ((stringLead_iff b).2 hb)]
      exact reads_typeName_iff.2 ⟨hstring, rfl⟩
    | number hn hname =>
      obtain ⟨b, bs', rfl, hb⟩ := hn.lead
      refine ⟨b, bs', rfl, ?_⟩
      rw [decodeTypeRefBy, if_neg fun h => not_stringLead hb ((stringLead_iff b).1 h)]
      exact Reads.bind_nil (reads_int32_iff.2 ⟨rfl, hn⟩) (reads_lookup_iff.2 ⟨rfl, rfl, hname⟩)

/-! ### Elements -/

/-- The tables when the contents of a container are set. -/
def Tables.finished (t : Tables) (self : ObjId) (contents : Object) : Tables :=
  { t with heap := t.heap.set self (.finished contents) }

/-- An object in element position; no object begins with `Z`. -/
def Element (P : Platform) (t : Tables) (bs : Bytes) (o : Object) (t' : Tables) : Prop :=
  bs.head? ≠ some 0x5a ∧ Reads (decodeObject P) t bs o t'

theorem decodeObject_delimited_hostile : Delimited Hostile (decodeObject P) :=
  (decodeObject_tame (P := P) (N := 0)).delimited

theorem element_eq : Element P = Reads (decodeObject P) := by
  funext t bs o t'
  refine propext (and_iff_right_of_imp fun h => ?_)
  rw [decodeObject_eq, reads_ahead_iff] at h
  obtain ⟨b, bs', rfl, h⟩ := h
  rintro ⟨⟩
  exact not_reads_fail h

/-- A turn of the loop reads the terminator or an element. -/
theorem readObjectUntilEndStep_ok {values : List Object} {r : List Object ⊕ List Object}
    {s s' : State UInt8 Tables} (h : readObjectUntilEndStep P (decodeObject P) values s = .ok r s') :
    (r = .inr values ∧ s.cursor.unread = 0x5a :: s'.cursor.unread ∧ s'.aux = s.aux) ∨
      ∃ es o, r = .inl (values ++ [o]) ∧ s.cursor.unread = es ++ s'.cursor.unread ∧
        Element P s.aux es o s'.aux := by
  rw [readObjectUntilEndStep_eq] at h
  rcases hu : s.cursor.unread with _ | ⟨b, bs⟩
  · rw [ahead_of_nil hu] at h
    cases h
  rw [ahead_of_cons hu] at h
  split at h
  · next hb =>
    obtain ⟨b', s₁, h₁, h⟩ := bind_eq_ok.1 h
    cases h
    obtain ⟨hu₁, haux⟩ := next_eq_ok h₁
    rw [hu] at hu₁
    cases hu₁
    exact .inl ⟨rfl, by rw [hb], haux⟩
  · obtain ⟨o, s₁, h₁, h⟩ := bind_eq_ok.1 h
    cases h
    obtain ⟨es, rest, hes, hr, hs'⟩ := decodeObject_delimited_hostile.ok_iff.1 h₁
    refine .inr ⟨es, o, rfl, ?_, by rwa [element_eq]⟩
    rw [hs', ← hu, unread_advance_append hes, hes]

theorem readObjectUntilEndStep_end (values : List Object) (t : Tables) :
    Reads (readObjectUntilEndStep P (decodeObject P) values) t [0x5a] (.inr values) t := by
  rw [readObjectUntilEndStep_eq]
  refine Reads.ahead ?_
  rw [if_pos rfl]
  exact Reads.bind_nil (reads_next _ t) (reads_pure _ t)

theorem readObjectUntilEndStep_element (values : List Object) {o : Object}
    (h : Element P t bs o t') :
    Reads (readObjectUntilEndStep P (decodeObject P) values) t bs (.inl (values ++ [o])) t' := by
  rw [element_eq] at h
  have hne : (Element P) t bs o t' := by rwa [element_eq]
  rw [readObjectUntilEndStep_eq]
  have hahead := h
  rw [decodeObject_eq, reads_ahead_iff] at hahead
  obtain ⟨b, bs', rfl, -⟩ := hahead
  refine Reads.ahead ?_
  rw [if_neg fun hb => hne.1 (by rw [hb]; rfl)]
  exact Reads.bind_nil h (reads_pure _ _)

/-- **A loop up to the terminator reads the elements in front of the first terminator in element
position**, and the terminator. -/
theorem reads_untilEnd_iff {values values' : List Object} :
    Reads (iter (readObjectUntilEndStep P (decodeObject P)) values) t bs values' t' ↔
      ∃ es os, bs = es ++ [0x5a] ∧ values' = values ++ os ∧ Sequence (Element P) t es os t' := by
  constructor
  · intro h
    obtain ⟨c, hrun, hc⟩ := h.ofList
    -- each turn of the run but the last reads an element
    have hloop := iter_ok_induct (Q := fun values s values' s' => ∃ es os,
      s.cursor.unread = es ++ 0x5a :: s'.cursor.unread ∧ values' = values ++ os ∧
        Sequence (Element P) s.aux es os s'.aux) ?_ ?_ hrun
    · obtain ⟨es, os, hu, hvalues, hs⟩ := hloop
      rw [hc] at hu
      exact ⟨es, os, hu, hvalues, hs⟩
    · rintro values s j s₁ values' s' hstep ⟨es, os, hu, rfl, hs⟩
      obtain ⟨hj, -⟩ | ⟨es₁, o, hj, hu₁, ho⟩ := readObjectUntilEndStep_ok hstep
      · cases hj
      · cases hj
        exact ⟨es₁ ++ es, o :: os, by rw [hu₁, hu, List.append_assoc], by simp, .cons ho hs⟩
    · rintro values s values' s' hstep
      obtain ⟨hj, hu, haux⟩ | ⟨es₁, o, hj, -⟩ := readObjectUntilEndStep_ok hstep
      · cases hj
        exact ⟨[], [], hu, (List.append_nil _).symm, haux ▸ .nil _⟩
      · cases hj
  · rintro ⟨es, os, rfl, rfl, hs⟩
    induction hs generalizing values with
    | nil t =>
      rw [readObjectUntilEnd_loop, List.append_nil]
      exact Reads.bind_nil (readObjectUntilEndStep_end values t) (reads_pure _ t)
    | @cons t t₁ t' bs bs' o os ho hs ih =>
      rw [readObjectUntilEnd_loop, List.append_assoc]
      have hrest := @ih (values ++ [o])
      rw [List.append_assoc] at hrest
      exact Reads.bind (f := Sum.elim (iter (readObjectUntilEndStep P (decodeObject P))) pure)
        (readObjectUntilEndStep_element values ho) hrest

/-! ### Lists -/

/-- `decode<TypedListObject>` and `decode<UntypedListObject>`. -/
def decodeList (P : Platform) (typed : Bool) : Dec Object :=
  if typed then decodeTypedList P (decodeObject P) else decodeUntypedList P (decodeObject P)

/-- The lead byte of a list up to a terminator. -/
def variableLead (typed : Bool) : UInt8 := if typed then 0x55 else 0x57

/-- The lead byte of a list with a length behind it. -/
def fixedLead (typed : Bool) : UInt8 := if typed then 0x56 else 0x58

/-- The lead byte of an empty list; the next seven are those of lists of up to seven elements. -/
def compactLead (typed : Bool) : UInt8 := if typed then 0x70 else 0x78

/-- The lead bytes of a list. -/
def ListLead (typed : Bool) (code : UInt8) : Prop :=
  code = variableLead typed ∨ code = fixedLead typed ∨
    (compactLead typed ≤ code ∧ code ≤ compactLead typed + 7)

/-- What the lead byte of a list and the bytes of its length announce: elements up to a terminator,
or this many. -/
inductive ListLength (typed : Bool) : UInt8 → Bytes → Option ℤ → Prop where
  | untilEnd {code : UInt8} (hc : code = variableLead typed) : ListLength typed code [] none
  | fixed {code : UInt8} {count : Bytes} {n : Int32} (hc : code = fixedLead typed)
    (hn : IntSentence count n) : ListLength typed code count (some n.toInt)
  | compact {code : UInt8} (hc : compactLead typed ≤ code ∧ code ≤ compactLead typed + 7) :
    ListLength typed code [] (some (code.toNat - (compactLead typed).toNat : ℕ))

/-- The type of a list, if it has one. -/
inductive ListType (P : Platform) (table : List Bytes) :
    Bool → Bytes → Option Bytes → List Bytes → Prop where
  | untyped : ListType P table false [] none table
  | typed {type typeName : Bytes} {table' : List Bytes}
    (h : TypeSentence P table type typeName table') : ListType P table true type (some typeName) table'

/-- The bytes of a list in front of its elements. -/
inductive ListHeader (P : Platform) (typed : Bool) (t : Tables) :
    Bytes → Option Bytes → Option ℤ → Tables → Prop where
  | intro {code : UInt8} {type count : Bytes} {typeName : Option Bytes} {declared : Option ℤ}
    {table : List Bytes} (ht : ListType P t.typesRef typed type typeName table)
    (hl : ListLength typed code count declared) :
    ListHeader P typed t (code :: (type ++ count)) typeName declared { t with typesRef := table }

/-- The bytes of the elements of a list: as many as declared, or all in front of the first
terminator in element position, and the terminator. -/
inductive ListBody (P : Platform) (t : Tables) :
    Option ℤ → Bytes → List Object → Tables → Prop where
  | untilEnd {elements : Bytes} {values : List Object} {t' : Tables}
    (hs : Sequence (Element P) t elements values t') :
    ListBody P t none (elements ++ [0x5a]) values t'
  | fixed {elements : Bytes} {values : List Object} {t' : Tables} {n : ℤ} (hn : values.length = n)
    (hs : Sequence (Element P) t elements values t') : ListBody P t (some n) elements values t'

/-- The bytes of a list. -/
inductive ListSentence (P : Platform) (typed : Bool) (t : Tables) : Bytes → Object → Tables → Prop where
  | intro {header body : Bytes} {typeName : Option Bytes} {declared : Option ℤ}
    {values : List Object} {t₁ t₂ : Tables}
    (hh : ListHeader P typed (t.started (.list typed)) header typeName declared t₁)
    (hb : ListBody P t₁ declared body values t₂) :
    ListSentence P typed t (header ++ body) (.list t.heap.length typeName values)
      (t₂.finished t.heap.length (.list t.heap.length typeName values))

/-- The `switch` of both decoders, which differ in the lead bytes and in the default. -/
def listValues (P : Platform) (typed : Bool) (code : UInt8) : Dec (List Object) :=
  if code = variableLead typed then readObjectUntilEnd P (decodeObject P)
  else if code = fixedLead typed then
    decodeInt32 P >>= fun n => times (decodeObject P) n.toInt.toNat
  else if compactLead typed ≤ code ∧ code ≤ compactLead typed + 7 then
    times (decodeObject P) (code.toNat - (compactLead typed).toNat)
  else if typed then fail else pure []

theorem typedListValues_eq (code : UInt8) :
    typedListValues P (decodeObject P) code = listValues P true code := by
  have hlen : ((code.toNat : ℤ) - 0x70).toNat = code.toNat - 0x70 := by omega
  rw [typedListValues, readNumsObject, hlen]
  rfl

theorem untypedListValues_eq (code : UInt8) :
    untypedListValues P (decodeObject P) code = listValues P false code := by
  have hlen : ((code.toNat : ℤ) - 0x78).toNat = code.toNat - 0x78 := by omega
  rw [untypedListValues, readNumsObject, hlen]
  rfl

/-- What the code takes for the elements of a list: besides them, nothing for a negative length, and
nothing behind a lead byte that is none of an untyped list. -/
inductive Taken (P : Platform) (typed : Bool) (code : UInt8) (t : Tables) :
    Bytes → List Object → Tables → Prop where
  | listed {count body : Bytes} {declared : Option ℤ} {values : List Object} {t' : Tables}
    (hl : ListLength typed code count declared) (hb : ListBody P t declared body values t') :
    Taken P typed code t (count ++ body) values t'
  | negative {count : Bytes} {n : ℤ} (hl : ListLength typed code count (some n)) (hn : n < 0) :
    Taken P typed code t count [] t
  | unlisted (hu : typed = false) (hc : ¬ ListLead typed code) : Taken P typed code t [] [] t

theorem reads_numsObject_iff {n : ℕ} {values : List Object} :
    Reads (times (decodeObject P) n) t bs values t' ↔
      values.length = n ∧ Sequence (Element P) t bs values t' := by
  rw [element_eq]
  exact reads_times_iff decodeObject_delimited_hostile

theorem numsObject_delimited (n : ℕ) : Delimited Hostile (times (decodeObject P) n) :=
  .times decodeObject_delimited_hostile n

theorem sequence_nil {values : List Object} (h : Sequence (Element P) t bs values t')
    (hlen : values.length = 0) : bs = [] ∧ values = [] ∧ t' = t := by
  cases h with
  | nil => exact ⟨rfl, rfl, rfl⟩
  | cons => cases hlen

theorem ListLength.lead {typed : Bool} {code : UInt8} {count : Bytes} {declared : Option ℤ}
    (h : ListLength typed code count declared) : ListLead typed code := by
  cases h with
  | untilEnd hc => exact .inl hc
  | fixed hc => exact .inr (.inl hc)
  | compact hc => exact .inr (.inr hc)

/-- The lead bytes announce different things. -/
theorem lead_disjoint (typed : Bool) : ∀ code : UInt8,
    (code = fixedLead typed → code ≠ variableLead typed) ∧
      (compactLead typed ≤ code ∧ code ≤ compactLead typed + 7 →
        code ≠ variableLead typed ∧ code ≠ fixedLead typed) := by
  cases typed
  all_goals exact forall_byte (by decide +kernel)

theorem reads_listValues_iff {typed : Bool} {code : UInt8} {values : List Object} :
    Reads (listValues P typed code) t bs values t' ↔ Taken P typed code t bs values t' := by
  have hcases := lead_disjoint typed code
  constructor
  · intro h
    unfold listValues at h
    split_ifs at h with h₁ h₂ h₃ h₄
    -- up to the terminator, a declared length, a length in the lead byte, and any other byte
    · obtain ⟨es, os, rfl, rfl, hs⟩ := reads_untilEnd_iff.1 h
      show Taken P typed code t ([] ++ (es ++ [0x5a])) _ t'
      exact .listed (.untilEnd h₁) (.untilEnd hs)
    · obtain ⟨count, body, n, t₁, rfl, hint, hnums⟩ :=
        (reads_bind_iff (decodeInt32_leaf Hostile False 0).delimited fun _ =>
          numsObject_delimited _).1 h
      obtain ⟨rfl, hn⟩ := reads_int32_iff.1 hint
      obtain ⟨hlen, hs⟩ := reads_numsObject_iff.1 hnums
      -- a negative length reads nothing behind it
      by_cases hneg : n.toInt < 0
      · obtain ⟨rfl, rfl, rfl⟩ := sequence_nil hs (by omega)
        rw [List.append_nil]
        exact .negative (.fixed h₂ hn) hneg
      · exact .listed (.fixed h₂ hn) (.fixed (by omega) hs)
    · obtain ⟨hlen, hs⟩ := reads_numsObject_iff.1 h
      show Taken P typed code t ([] ++ bs) values t'
      exact .listed (.compact h₃) (.fixed (congrArg Nat.cast hlen) hs)
    · exact absurd h not_reads_fail
    · obtain ⟨rfl, rfl, rfl⟩ := reads_pure_iff.1 h
      exact .unlisted (Bool.eq_false_iff.2 h₄) fun hlead => hlead.elim h₁ fun h => h.elim h₂ h₃
  · intro h
    unfold listValues
    cases h with
    | listed hl hb =>
      cases hl with
      | untilEnd hc =>
        cases hb with
        | untilEnd hs =>
          rw [if_pos hc]
          exact reads_untilEnd_iff.2 ⟨_, _, rfl, rfl, hs⟩
      | fixed hc hn =>
        cases hb with
        | fixed hlen hs =>
          rw [if_neg (hcases.1 hc), if_pos hc]
          exact Reads.bind (reads_int32_iff.2 ⟨rfl, hn⟩)
            (reads_numsObject_iff.2 ⟨by omega, hs⟩)
      | compact hc =>
        cases hb with
        | fixed hlen hs =>
          rw [if_neg (hcases.2 hc).1, if_neg (hcases.2 hc).2, if_pos hc]
          exact reads_numsObject_iff.2 ⟨by omega, hs⟩
    | negative hl hneg =>
      cases hl with
      | @fixed _ n hc hn =>
        rw [if_neg (hcases.1 hc), if_pos hc]
        have hzero : n.toInt.toNat = 0 := by omega
        refine Reads.bind_nil (reads_int32_iff.2 ⟨rfl, hn⟩) ?_
        rw [hzero]
        exact reads_pure _ _
      | compact hc => exact absurd hneg (by omega)
    | unlisted hu hc =>
      rw [if_neg fun h => hc (.inl h), if_neg fun h => hc (.inr (.inl h)),
        if_neg fun h => hc (.inr (.inr h)), hu]
      exact reads_pure _ _

/-! ### Containers -/

theorem container_ok_iff {kind : ContainerKind} {body : ObjId → Dec Object} {o : Object}
    {s s' : State UInt8 Tables} : Dec.container kind body s = .ok o s' ↔
      ∃ s₁, body s.aux.heap.length ⟨s.cursor, s.aux.started kind⟩ = .ok o s₁ ∧
        s' = ⟨s₁.cursor, s₁.aux.finished s.aux.heap.length o⟩ := by
  rw [Dec.container, Dec.owning, onFail_eq_iff (by rintro s' ⟨⟩), bind_eq_ok]
  constructor
  · rintro ⟨self, s₀, h₀, h⟩
    cases h₀
    obtain ⟨o', s₁, h₁, h₂⟩ := bind_eq_ok.1 h
    cases h₂
    exact ⟨s₁, h₁, rfl⟩
  · rintro ⟨s₁, h₁, rfl⟩
    exact ⟨_, _, rfl, bind_eq_ok.2 ⟨o, s₁, h₁, rfl⟩⟩

theorem container_fault_iff {kind : ContainerKind} {body : ObjId → Dec Object} {e : Fault}
    {s s' : State UInt8 Tables} : Dec.container kind body s = .fault e s' ↔
      body s.aux.heap.length ⟨s.cursor, s.aux.started kind⟩ = .fault e s' := by
  rw [Dec.container, Dec.owning, onFail_eq_iff (by rintro s' ⟨⟩), bind_eq_fault]
  constructor
  · rintro (h₀ | ⟨self, s₀, h₀, h⟩)
    · cases h₀
    · cases h₀
      rcases bind_eq_fault.1 h with h | ⟨o, s₁, -, h⟩
      · exact h
      · cases h
  · exact fun h => .inr ⟨_, _, rfl, bind_eq_fault.2 (.inl h)⟩

/-- The type of a list, if it has one. -/
def listType (P : Platform) (typed : Bool) : Dec (Option Bytes) :=
  if typed then decodeTypeRef P >>= fun typeName => pure (some typeName) else pure none

/-- A list, given the address of its object. -/
def listForm (P : Platform) (typed : Bool) (result : ObjId) : Dec Object :=
  next >>= fun code => listType P typed >>= fun typeName => listValues P typed code >>= fun values =>
    pure (.list result typeName values)

theorem decodeList_eq (typed : Bool) :
    decodeList P typed = Dec.container (.list typed) (listForm P typed) := by
  cases typed with
  | false =>
    refine decodeUntypedList_eq.trans (congrArg _ (funext fun result => ?_))
    simp only [untypedListForm, untypedListValues_eq]
    rfl
  | true =>
    refine decodeTypedList_eq.trans (congrArg _ (funext fun result => funext fun s => ?_))
    simp only [typedListForm, typedListValues_eq, listForm, listType, if_true, bind_apply]
    cases (next : Dec UInt8) s with
    | ok code s₁ =>
      simp only [Outcome.ok_andThen, bind_apply]
      cases decodeTypeRef P s₁ <;> rfl
    | _ => rfl

theorem listType_delimited (typed : Bool) : Delimited Hostile (listType P typed) :=
  .ite (fun _ => (decodeTypeRef_leaf Hostile False 0).delimited.bind fun _ => .pure _) fun _ => .pure _

theorem listValues_delimited (typed : Bool) (code : UInt8) :
    Delimited Hostile (listValues P typed code) := by
  cases typed with
  | false =>
    rw [← untypedListValues_eq]
    exact (untypedListValues_tame (decodeObject_tame (N := 0)) code).delimited
  | true =>
    rw [← typedListValues_eq]
    exact (typedListValues_tame (decodeObject_tame (N := 0)) code).delimited

theorem listEnd_delimited (typed : Bool) (code : UInt8) (result : ObjId) (typeName : Option Bytes) :
    Delimited Hostile (listValues P typed code >>= fun values =>
      pure (Object.list result typeName values)) :=
  (listValues_delimited typed code).bind fun _ => .pure _

theorem listForm_delimited (typed : Bool) (result : ObjId) :
    Delimited Hostile (listForm P typed result) :=
  Delimited.next.bind fun code => (listType_delimited typed).bind fun typeName =>
    listEnd_delimited typed code result typeName

theorem reads_listType_iff {typed : Bool} {typeName : Option Bytes} :
    Reads (listType P typed) t bs typeName t' ↔ ∃ table,
      ListType P t.typesRef typed bs typeName table ∧ t' = { t with typesRef := table } := by
  cases typed with
  | false =>
    rw [listType, if_neg Bool.false_ne_true, reads_pure_iff]
    constructor
    · rintro ⟨rfl, rfl, rfl⟩
      exact ⟨_, .untyped, rfl⟩
    · rintro ⟨table, h, rfl⟩
      cases h
      exact ⟨rfl, rfl, rfl⟩
  | true =>
    rw [listType, if_pos rfl, reads_map_iff (decodeTypeRef_leaf Hostile False 0).delimited]
    simp only [reads_typeRef_iff]
    constructor
    · rintro ⟨name, ⟨table, h, rfl⟩, rfl⟩
      exact ⟨table, .typed h, rfl⟩
    · rintro ⟨table, h, rfl⟩
      cases h with
      | typed h => exact ⟨_, ⟨table, h, rfl⟩, rfl⟩

theorem reads_listForm_iff {typed : Bool} {result : ObjId} {o : Object} :
    Reads (listForm P typed result) t bs o t' ↔
      ∃ code type rest typeName table values, bs = code :: (type ++ rest) ∧
        ListType P t.typesRef typed type typeName table ∧
        Taken P typed code { t with typesRef := table } rest values t' ∧
        o = .list result typeName values := by
  rw [listForm, reads_form_iff fun code => (listType_delimited typed).bind fun typeName =>
    listEnd_delimited typed code result typeName]
  constructor
  · rintro ⟨code, bs', rfl, h⟩
    obtain ⟨type, rest, typeName, t₁, rfl, htype, hrest⟩ :=
      (reads_bind_iff (listType_delimited typed) fun typeName =>
        listEnd_delimited typed code result typeName).1 h
    obtain ⟨table, ht, rfl⟩ := reads_listType_iff.1 htype
    obtain ⟨values, hvalues, rfl⟩ := (reads_map_iff (listValues_delimited typed code)).1 hrest
    exact ⟨code, type, rest, typeName, table, values, rfl, ht, reads_listValues_iff.1 hvalues, rfl⟩
  · rintro ⟨code, type, rest, typeName, table, values, rfl, ht, hv, rfl⟩
    exact ⟨code, _, rfl, Reads.bind (reads_listType_iff.2 ⟨table, ht, rfl⟩)
      (Reads.bind_nil (reads_listValues_iff.2 hv) (reads_pure _ _))⟩

/-! ### Elements that stop the program -/

/-- The input begins with elements of a list, fewer than declared, behind which an object stops the
program. -/
def ElementStops (P : Platform) (declared : Option ℤ) (t : Tables) (bs : Bytes) (e : Fault) : Prop :=
  ∃ elements rest values t', bs = elements ++ rest ∧ Sequence (Element P) t elements values t' ∧
    (∀ n ∈ declared, (values.length : ℤ) < n) ∧ Raises (decodeObject P) t' rest e

theorem numsObject_fault {n : ℕ} {s s' : State UInt8 Tables} {e : Fault}
    (h : times (decodeObject P) n s = .fault e s') :
    ElementStops P (some n) s.aux s.cursor.unread e := by
  obtain ⟨elements, rest, values, t', hu, hs, hlen, hr⟩ :=
    times_fault decodeObject_delimited_hostile h
  refine ⟨elements, rest, values, t', hu, by rwa [element_eq], fun m hm => ?_, hr⟩
  cases hm
  exact Int.ofNat_lt.2 hlen

/-- A loop that stops the program has read elements before. -/
theorem untilEnd_fault {s s' : State UInt8 Tables} {e : Fault}
    (h : readObjectUntilEnd P (decodeObject P) s = .fault e s') :
    ElementStops P none s.aux s.cursor.unread e := by
  refine iter_induct (Q := fun _ s o => ∀ e s', o = .fault e s' →
    ElementStops P none s.aux s.cursor.unread e) (fun _ _ _ _ h => by cases h) (fun values s => ?_)
    [] s e s' h
  cases hstep : readObjectUntilEndStep P (decodeObject P) values s with
  | ok r s₁ =>
    obtain ⟨rfl, -⟩ | ⟨es, o, rfl, hu, ho⟩ := readObjectUntilEndStep_ok hstep
    · rintro e s' ⟨⟩
    · intro out hout e s' he
      obtain ⟨elements, rest, values, t', hu', hs, -, hr⟩ := hout e s' he
      refine ⟨es ++ elements, rest, o :: values, t', ?_, .cons ho hs, by simp, hr⟩
      rw [hu, hu', List.append_assoc]
  | fail s₁ => rintro e s' ⟨⟩
  | fault e₁ s₁ =>
    rintro e s' ⟨⟩
    refine ⟨[], _, [], s.aux, rfl, .nil _, by simp, ?_⟩
    rw [readObjectUntilEndStep_eq] at hstep
    rcases hu : s.cursor.unread with _ | ⟨b, bs⟩
    · rw [ahead_of_nil hu] at hstep
      cases hstep
    rw [ahead_of_cons hu] at hstep
    split at hstep
    · rw [bind_apply, next_of_cons hu] at hstep
      cases hstep
    · rcases bind_eq_fault.1 hstep with h | ⟨o, s₂, -, h⟩
      · exact (decodeObject_delimited_hostile.fault (c := s.cursor) (t := s.aux) h).2.2
      · cases h
  | exhausted => trivial

theorem Raises.untilEnd {elements rest : Bytes} {values : List Object} {e : Fault}
    (hs : Sequence (Element P) t elements values t') (hr : Raises (decodeObject P) t' rest e)
    (acc : List Object) :
    Raises (iter (readObjectUntilEndStep P (decodeObject P)) acc) t (elements ++ rest) e := by
  induction hs generalizing acc with
  | nil t =>
    rw [readObjectUntilEnd_loop]
    refine Raises.bind_left (fun c rest' hu => ?_) _
    obtain ⟨s', hs'⟩ := hr c rest' hu
    rw [readObjectUntilEndStep_eq]
    rcases hc : c.unread with _ | ⟨b, bs⟩
    · rw [decodeObject_eq, ahead_of_nil hc] at hs'
      cases hs'
    rw [ahead_of_cons hc]
    have hne : b ≠ 0x5a := by
      rintro rfl
      rw [decodeObject_eq, ahead_of_cons hc] at hs'
      cases hs'
    rw [if_neg hne]
    exact ⟨s', bind_eq_fault.2 (.inl hs')⟩
  | cons ho hs ih =>
    rw [readObjectUntilEnd_loop, List.append_assoc]
    exact Raises.bind_right (f := Sum.elim (iter (readObjectUntilEndStep P (decodeObject P))) pure)
      (readObjectUntilEndStep_element acc ho) (ih hr _)

theorem listValues_fault {typed : Bool} {code : UInt8} {s s' : State UInt8 Tables} {e : Fault}
    (h : listValues P typed code s = .fault e s') :
    ∃ count rest declared, s.cursor.unread = count ++ rest ∧ ListLength typed code count declared ∧
      ElementStops P declared s.aux rest e := by
  unfold listValues at h
  split_ifs at h with h₁ h₂ h₃ h₄
  · exact ⟨[], _, none, rfl, .untilEnd h₁, untilEnd_fault h⟩
  · rcases bind_eq_fault.1 h with h | ⟨n, s₁, hint, h⟩
    · exact absurd h decodeInt32_leaf.not_fault
    obtain ⟨count, rest, hu, hr, hs₁⟩ := decodeInt32_delimited.ok_iff.1 hint
    obtain ⟨haux, hn⟩ := reads_int32_iff.1 hr
    obtain ⟨elements, rest', values, t', hu', hs, hlen, hraise⟩ := numsObject_fault h
    have hrest : s₁.cursor.unread = rest := by rw [hs₁, unread_advance_append hu]
    refine ⟨count, rest, some n.toInt, hu, .fixed h₂ hn, elements, rest', values, t',
      hrest.symm.trans hu', haux ▸ hs, fun m hm => ?_, hraise⟩
    cases hm
    have hlt := hlen _ rfl
    omega
  · exact ⟨[], _, _, rfl, .compact h₃, numsObject_fault h⟩
  · cases h

/-- The length and then the elements. -/
theorem ListLength.raises {typed : Bool} {code : UInt8} {count rest : Bytes} {declared : Option ℤ}
    {e : Fault} (hl : ListLength typed code count declared) (h : ElementStops P declared t rest e) :
    Raises (listValues P typed code) t (count ++ rest) e := by
  obtain ⟨elements, rest', values, t', rfl, hs, hlen, hr⟩ := h
  have hcases := lead_disjoint typed code
  have hnums {n : ℕ} (hn : values.length < n) :
      Raises (times (decodeObject P) n) t (elements ++ rest') e := by
    rw [element_eq] at hs
    exact hs.times_raises hn hr
  unfold listValues
  cases hl with
  | untilEnd hc =>
    rw [if_pos hc]
    exact Raises.untilEnd hs hr []
  | @fixed _ n hc hn =>
    rw [if_neg (hcases.1 hc), if_pos hc]
    have hlt := hlen _ rfl
    exact Raises.bind_right (f := fun n : Int32 => times (decodeObject P) n.toInt.toNat)
      (reads_int32_iff.2 ⟨rfl, hn⟩) (hnums (by omega))
  | compact hc =>
    rw [if_neg (hcases.2 hc).1, if_neg (hcases.2 hc).2, if_pos hc]
    exact hnums (Int.ofNat_lt.1 (hlen _ rfl))

/-! ### What is accepted -/

/-- The input begins with what is taken for a list although it is none, or with elements that stop
the program. -/
inductive Misread (P : Platform) (typed : Bool) (t : Tables) (input : Bytes) : Prop where
  | unlisted {code : UInt8} {rest : Bytes} (h : input = code :: rest) (hu : typed = false)
    (hc : ¬ ListLead typed code)
  | negative {header rest : Bytes} {typeName : Option Bytes} {n : ℤ} {t₁ : Tables}
    (h : input = header ++ rest)
    (hh : ListHeader P typed (t.started (.list typed)) header typeName (some n) t₁) (hn : n < 0)
  | stops {header rest : Bytes} {typeName : Option Bytes} {declared : Option ℤ} {t₁ : Tables}
    {e : Fault} (h : input = header ++ rest)
    (hh : ListHeader P typed (t.started (.list typed)) header typeName declared t₁)
    (he : ElementStops P declared t₁ rest e)

/-- The decoder accepts exactly the lists, reads a list whole and nothing behind it, and returns its
elements; every other input is refused. -/
structure ListsOnly (P : Platform) (typed : Bool) (s : State UInt8 Tables) : Prop where
  ok_iff : ∀ o s', decodeList P typed s = .ok o s' ↔
    ∃ (sentence rest : Bytes) (t' : Tables) (h : s.cursor.unread = sentence ++ rest),
      ListSentence P typed s.aux sentence o t' ∧
        s' = ⟨s.cursor.advance sentence.length (by simp [h]), t'⟩
  refused : (¬ ∃ sentence rest o t', s.cursor.unread = sentence ++ rest ∧
      ListSentence P typed s.aux sentence o t') → ∃ s', decodeList P typed s = .fail s'

/-- The runs that return a list, whether there is one or not. -/
theorem decodeList_ok_iff {typed : Bool} {s s' : State UInt8 Tables} {o : Object} :
    decodeList P typed s = .ok o s' ↔
      ∃ (code : UInt8) (type body rest : Bytes) (typeName : Option Bytes) (table : List Bytes)
        (values : List Object) (t' : Tables)
        (h : s.cursor.unread = code :: (type ++ body) ++ rest),
        ListType P s.aux.typesRef typed type typeName table ∧
        Taken P typed code { s.aux.started (.list typed) with typesRef := table } body values t' ∧
        o = .list s.aux.heap.length typeName values ∧
        s' = ⟨s.cursor.advance (code :: (type ++ body)).length (by simp [h]),
          t'.finished s.aux.heap.length o⟩ := by
  rw [decodeList_eq, container_ok_iff]
  constructor
  · rintro ⟨s₁, h, rfl⟩
    obtain ⟨bs, rest, hu, hr, hs₁⟩ := (listForm_delimited typed _).ok_iff.1 h
    obtain ⟨code, type, body, typeName, table, values, rfl, ht, hv, rfl⟩ := reads_listForm_iff.1 hr
    exact ⟨code, type, body, rest, typeName, table, values, s₁.aux, hu, ht, hv, rfl, by rw [hs₁]⟩
  · rintro ⟨code, type, body, rest, typeName, table, values, t', hu, ht, hv, rfl, rfl⟩
    exact ⟨⟨_, t'⟩, (listForm_delimited typed _).ok_iff.2 ⟨_, rest, hu, reads_listForm_iff.2
      ⟨code, type, body, typeName, table, values, rfl, ht, hv, rfl⟩, rfl⟩, rfl⟩

/-- A list is returned. -/
theorem ListSentence.ok {typed : Bool} {s : State UInt8 Tables} {sentence rest : Bytes} {o : Object}
    (h : ListSentence P typed s.aux sentence o t') (hu : s.cursor.unread = sentence ++ rest) :
    decodeList P typed s = .ok o ⟨s.cursor.advance sentence.length (by simp [hu]), t'⟩ := by
  obtain ⟨⟨ht, hl⟩, hb⟩ := h
  refine decodeList_ok_iff.2 ⟨_, _, _, rest, _, _, _, _, ?_, ht, .listed hl hb, rfl, ?_⟩
  · rw [hu]
    simp
  · congr 2
    simp

/-- A list that stops the program has a header, and elements that stop it. -/
theorem decodeList_fault {typed : Bool} {s s' : State UInt8 Tables} {e : Fault}
    (h : decodeList P typed s = .fault e s') : ∃ header rest typeName declared t₁,
      s.cursor.unread = header ++ rest ∧
      ListHeader P typed (s.aux.started (.list typed)) header typeName declared t₁ ∧
      ElementStops P declared t₁ rest e := by
  rw [decodeList_eq, container_fault_iff] at h
  rcases bind_eq_fault.1 h with h | ⟨code, s₁, h₁, h⟩
  · exact ((Delimited.next (E := fun _ => False)).fault (c := s.cursor) h).1.elim
  obtain ⟨hu, haux⟩ := next_eq_ok h₁
  rcases bind_eq_fault.1 h with h | ⟨typeName, s₂, h₂, h⟩
  · unfold listType at h
    split at h
    · rcases bind_eq_fault.1 h with h | ⟨_, _, -, h⟩
      · exact absurd h decodeTypeRef_leaf.not_fault
      · cases h
    · cases h
  obtain ⟨type, rest, hu₁, hr, hs₂⟩ := (listType_delimited typed).ok_iff.1 h₂
  obtain ⟨table, ht, haux₂⟩ := reads_listType_iff.1 hr
  rcases bind_eq_fault.1 h with h | ⟨values, s₃, -, h⟩
  · obtain ⟨count, body, declared, hu₂, hl, he⟩ := listValues_fault h
    rw [hs₂, unread_advance_append hu₁] at hu₂
    rw [haux₂] at he
    rw [haux] at ht he
    have hinput : s.cursor.unread = code :: (type ++ count) ++ body := by
      rw [hu, hu₁, hu₂]
      simp
    exact ⟨_, body, typeName, declared, _, hinput, .intro ht hl, he⟩
  · cases h

/-- The length of a list is what its first bytes say. -/
theorem ListLength.unique {typed : Bool} {code : UInt8} {count count' rest rest' : Bytes}
    {declared declared' : Option ℤ} (h : ListLength typed code count declared)
    (h' : ListLength typed code count' declared') (hu : count ++ rest = count' ++ rest') :
    declared = declared' := by
  have hcases := lead_disjoint typed code
  cases h with
  | untilEnd hc =>
    cases h' with
    | untilEnd => rfl
    | fixed hc' => exact absurd hc (hcases.1 hc')
    | compact hc' => exact absurd hc (hcases.2 hc').1
  | fixed hc hn =>
    cases h' with
    | untilEnd hc' => exact absurd hc' (hcases.1 hc)
    | fixed _ hn' =>
      have hr : Reads (decodeInt32 .simple) .empty _ _ .empty := reads_int32_iff.2 ⟨rfl, hn⟩
      obtain ⟨-, rfl, -⟩ := hr.unique (reads_int32_iff.2 ⟨rfl, hn'⟩) hu
      rfl
    | compact hc' => exact absurd hc (hcases.2 hc').2
  | compact hc =>
    cases h' with
    | untilEnd hc' => exact absurd hc' (hcases.2 hc).1
    | fixed hc' => exact absurd hc' (hcases.2 hc).2
    | compact => rfl

/-- So is the header of a list. -/
theorem ListHeader.unique {typed : Bool} {header header' rest rest' : Bytes}
    {typeName typeName' : Option Bytes} {declared declared' : Option ℤ} {t₁ t₁' : Tables}
    (h : ListHeader P typed t header typeName declared t₁)
    (h' : ListHeader P typed t header' typeName' declared' t₁')
    (hu : header ++ rest = header' ++ rest') : declared = declared' := by
  obtain ⟨ht, hl⟩ := h
  obtain ⟨ht', hl'⟩ := h'
  simp only [List.cons_append, List.append_assoc, List.cons.injEq] at hu
  obtain ⟨rfl, hu⟩ := hu
  have hr := reads_listType_iff.2 ⟨_, ht, rfl⟩
  obtain ⟨rfl, -, -⟩ := hr.unique (reads_listType_iff.2 ⟨_, ht', rfl⟩) hu
  exact hl.unique hl' (List.append_cancel_left hu)

theorem ListHeader.lead {typed : Bool} {header : Bytes} {typeName : Option Bytes}
    {declared : Option ℤ} (h : ListHeader P typed t header typeName declared t') :
    ∃ code bs, header = code :: bs ∧ ListLead typed code := by
  obtain ⟨ht, hl⟩ := h
  exact ⟨_, _, rfl, hl.lead⟩

/-- Elements that stop the program stop it in the list. -/
theorem ListHeader.fault {typed : Bool} {header rest : Bytes} {typeName : Option Bytes}
    {declared : Option ℤ} {e : Fault} {s : State UInt8 Tables}
    (h : ListHeader P typed (s.aux.started (.list typed)) header typeName declared t')
    (he : ElementStops P declared t' rest e) (hu : s.cursor.unread = header ++ rest) :
    ∃ s', decodeList P typed s = .fault e s' := by
  obtain ⟨ht, hl⟩ := h
  have hend := (hl.raises he).bind_left fun values =>
    (pure (Object.list s.aux.heap.length typeName values) : Dec Object)
  have htype := Raises.bind_right (f := fun typeName => listValues P typed _ >>= fun values =>
    (pure (Object.list s.aux.heap.length typeName values) : Dec Object))
    (reads_listType_iff.2 ⟨_, ht, rfl⟩) hend
  have hlead := Raises.bind_right (f := fun code => listType P typed >>= fun typeName =>
    listValues P typed code >>= fun values =>
      (pure (Object.list s.aux.heap.length typeName values) : Dec Object))
    (reads_next _ (s.aux.started (.list typed))) htype
  obtain ⟨s', hs'⟩ := hlead s.cursor [] (by rw [hu]; simp)
  rw [decodeList_eq]
  exact ⟨s', container_fault_iff.2 hs'⟩

/-- What is misread is no list, and it is not refused. -/
theorem Misread.not_listsOnly {typed : Bool} {s : State UInt8 Tables}
    (h : Misread P typed s.aux s.cursor.unread) : ¬ ListsOnly P typed s := by
  intro hlists
  cases h with
  | @unlisted code rest hu htyped hc =>
    subst htyped
    obtain ⟨sentence, rest', t', hu', ⟨hh, -⟩, -⟩ := (hlists.ok_iff _ _).1 (decodeList_ok_iff.2
      ⟨code, [], [], rest, none, _, [], _, hu, .untyped, .unlisted rfl hc, rfl, rfl⟩)
    obtain ⟨code', bs, rfl, hlead⟩ := hh.lead
    rw [hu] at hu'
    cases hu'
    exact hc hlead
  | @negative header rest typeName n t₁ hu hh hn =>
    obtain ⟨ht, hl⟩ := hh
    obtain ⟨sentence, rest', t', hu', ⟨hh', hb⟩, -⟩ := (hlists.ok_iff _ _).1 (decodeList_ok_iff.2
      ⟨_, _, _, rest, _, _, [], _, hu, ht, .negative hl hn, rfl, rfl⟩)
    rw [hu, List.append_assoc] at hu'
    obtain rfl := ListHeader.unique (.intro ht hl) hh' hu'
    cases hb with
    | fixed hlen => omega
  | stops hu hh he =>
    obtain ⟨s', hs'⟩ := hh.fault he hu
    obtain ⟨s'', hs''⟩ := hlists.refused fun ⟨sentence, rest, o, t', hu', h⟩ => by
      rw [h.ok hu'] at hs'
      cases hs'
    rw [hs'] at hs''
    cases hs''

/-- What is returned was a list, unless the input is misread. -/
theorem decodeList_sentence {typed : Bool} {s s' : State UInt8 Tables} {o : Object}
    (h : decodeList P typed s = .ok o s') (hmis : ¬ Misread P typed s.aux s.cursor.unread) :
    ∃ (sentence rest : Bytes) (t' : Tables) (h : s.cursor.unread = sentence ++ rest),
      ListSentence P typed s.aux sentence o t' ∧
        s' = ⟨s.cursor.advance sentence.length (by simp [h]), t'⟩ := by
  obtain ⟨code, type, body, rest, typeName, table, values, t', hu, ht, hv, rfl, rfl⟩ :=
    decodeList_ok_iff.1 h
  cases hv with
  | @listed count body declared _ _ hl hb =>
    have hinput : s.cursor.unread = code :: (type ++ count) ++ body ++ rest := by
      rw [hu]
      simp
    refine ⟨_, rest, _, hinput, .intro (.intro ht hl) hb, ?_⟩
    congr 2
    simp
  | negative hl hn => exact absurd (.negative hu (.intro ht hl) hn) hmis
  | unlisted htyped hc => exact absurd (.unlisted hu htyped hc) hmis

theorem decodeList_tame (typed : Bool) (N : ℕ) :
    Tame Hostile True (N + 1) (decodeList P typed) (decodeList P typed) Object.nodes := by
  cases typed with
  | false =>
    rw [decodeList, if_neg Bool.false_ne_true, decodeUntypedList_eq]
    exact container_tame _ (untypedListForm_tame decodeObject_tame)
  | true =>
    rw [decodeList, if_pos rfl, decodeTypedList_eq]
    exact container_tame _ (typedListForm_tame decodeObject_tame)

theorem decodeList_not_exhausted {typed : Bool} {s : State UInt8 Tables} :
    decodeList P typed s ≠ .exhausted :=
  ((decodeList_tame typed _).agree s (Nat.lt_succ_self _)).2 trivial

/-- **The list decoders accept exactly the lists, and refuse everything else, exactly if the input
does not begin with a negative length, with a lead byte that is none of an untyped list where an
untyped list is read, or with elements that stop the program.** -/
theorem list_decoded_iff (P : Platform) (typed : Bool) (s : State UInt8 Tables) :
    ListsOnly P typed s ↔ ¬ Misread P typed s.aux s.cursor.unread := by
  refine ⟨fun h hmis => hmis.not_listsOnly h, fun hmis =>
    ⟨fun o s' => ⟨fun h => decodeList_sentence h hmis, ?_⟩, fun hno => ?_⟩⟩
  · rintro ⟨sentence, rest, t', hu, h, rfl⟩
    exact h.ok hu
  · cases h : decodeList P typed s with
    | ok o s' =>
      obtain ⟨sentence, rest, t', hu, hlist, -⟩ := decodeList_sentence h hmis
      exact absurd ⟨sentence, rest, o, t', hu, hlist⟩ hno
    | fail s' => exact ⟨s', rfl⟩
    | fault e s' =>
      obtain ⟨header, rest, typeName, declared, t₁, hu, hh, he⟩ := decodeList_fault h
      exact absurd (.stops hu hh he) hmis
    | exhausted => exact absurd h decodeList_not_exhausted

/-- The byte of `true` is read as an untyped list, and so are the bytes of a list of -1 elements. -/
theorem lists_misread : ¬ ListsOnly .simple false ⟨.ofList [0x54], .empty⟩ ∧
    ¬ ListsOnly .simple false ⟨.ofList [0x58, 0x8f], .empty⟩ := by
  constructor
  · refine Misread.not_listsOnly (.unlisted rfl rfl ?_)
    rintro (h | h | h)
    all_goals exact absurd h (by decide)
  · have hheader : ListHeader .simple false (Tables.empty.started (.list false)) [0x58, 0x8f] none
        (some (-1)) (Tables.empty.started (.list false)) :=
      .intro .untyped (.fixed rfl (.one (b := 0x8f) (by decide)))
    exact Misread.not_listsOnly (.negative (List.append_nil _).symm hheader (by decide))

end Hessian2
