import Hessian2.ObjectGrammar
import Hessian2.Parsing.Stops

/-!
# What stops the decoders of objects

`decode<Object>` and the decoders of containers end in a value, in `nullptr`, or they stop the program:
at a definition with a negative number of fields, at a key without a hash, or at an assertion.

* `decodeContainer` : the decoders of containers.
* `ContainerCall` : the bytes of a container in front of an object in it.
* `ContainerStop` : what stops the program in a container, outside the objects in it.
* `ObjectStops` : the inputs of `decode<Object>` that lead there.
* `stops_object_iff`, `decodeContainer_fault_iff` : **exactly these stop the program.**
-/

namespace Hessian2

open Parsing Parsing.Parser Reader

variable {P : Platform} {R : Reading UInt8 Tables Object} {typed : Bool} {t t' : Tables} {bs : Bytes}
  {result : ObjId} {slots : List Slot} {kind : ContainerKind}

/-! ### Containers -/

/-- `decode<TypedMapObject>` and `decode<UntypedMapObject>`. -/
def decodeMap (P : Platform) (typed : Bool) : Dec Object :=
  if typed then decodeTypedMap P (decodeObject P) else decodeUntypedMap P (decodeObject P)

/-- The decoders of containers. -/
def decodeContainer (P : Platform) : ContainerKind → Dec Object
  | .list typed => decodeList P typed
  | .map typed => decodeMap P typed
  | .classInstance => decodeClassInstance P (decodeObject P)

theorem stops_container_iff {body : ObjId → Dec Object} :
    Stops (Dec.container kind body) t bs ↔ Stops (body t.heap.length) (t.started kind) bs :=
  exists_congr fun _ => forall_congr' fun _ => forall_congr' fun _ => forall_congr' fun _ =>
    exists_congr fun _ => container_fault_iff

/-- The bytes of a container in front of an object in it, and the tables there. -/
inductive ContainerCall (P : Platform) (R : Reading UInt8 Tables Object) (t : Tables) :
    ContainerKind → Bytes → Tables → Prop where
  | element {typed : Bool} {header elements : Bytes} {typeName : Option Bytes} {declared : Option ℤ}
    {values : List Object} {t₁ t₂ : Tables}
    (hh : ListHeader P typed (t.started (.list typed)) header typeName declared t₁)
    (hs : Sequence R t₁ elements values t₂) (hn : ∀ n ∈ declared, (values.length : ℤ) < n) :
    ContainerCall P R t (.list typed) (header ++ elements) t₂
  | key {typed : Bool} {header entries : Bytes} {typeName : Option Bytes} {slots : List Slot}
    {t₁ t₂ : Tables} (hh : MapHeader P typed (t.started (.map typed)) header typeName t₁)
    (he : Entries P R t.heap.length [] t₁ entries slots t₂) :
    ContainerCall P R t (.map typed) (header ++ entries) t₂
  | value {typed : Bool} {header entries ks : Bytes} {typeName : Option Bytes} {slots : List Slot}
    {key : Object} {t₁ t₂ t₃ : Tables}
    (hh : MapHeader P typed (t.started (.map typed)) header typeName t₁)
    (he : Entries P R t.heap.length [] t₁ entries slots t₂) (hk : R t₂ ks key t₃) :
    ContainerCall P R t (.map typed) (header ++ (entries ++ ks)) t₃
  | field {header fields : Bytes} {d : RawDefinition} {table : List RawDefinition}
    {values : List Object} {t₁ : Tables} (hh : DirectHeader P t.defRef header d table)
    (hs : Sequence R (t.entered table) fields values t₁)
    (hn : values.length < d.fieldNames.length) :
    ContainerCall P R t .classInstance (header ++ fields) t₁

/-- The input stops the program in a container, outside the objects in it: in a build with assertions
it does not begin with the lead byte of a map, an entry of a map has a key without a hash, or one of
the definitions in front of the fields has a negative number of fields. -/
inductive ContainerStop (P : Platform) (R : Reading UInt8 Tables Object) (t : Tables) :
    ContainerKind → Bytes → Prop where
  | asserted {typed : Bool} {bs : Bytes} (hd : P.ndebug = false)
    (hc : ∀ rest, bs ≠ mapLead typed :: rest) : ContainerStop P R t (.map typed) bs
  | unhashed {typed : Bool} {header entries ks vs : Bytes} {typeName : Option Bytes}
    {slots : List Slot} {key value : Object} {t₁ t₂ t₃ t₄ : Tables}
    (hh : MapHeader P typed (t.started (.map typed)) header typeName t₁)
    (he : Entries P R t.heap.length [] t₁ entries slots t₂) (hk : R t₂ ks key t₃)
    (hv : R t₃ vs value t₄) (hn : key.hash P t₄.heap t₄.binaryHash = none) (rest : Bytes) :
    ContainerStop P R t (.map typed) (header ++ (entries ++ (ks ++ (vs ++ rest))))
  | negative {bs : Bytes} (hn : StartsNegative P bs) : ContainerStop P R t .classInstance bs
  | behind {definition bs : Bytes} {d : RawDefinition} {table : List RawDefinition}
    (hd : DefinitionSentence P t.defRef (0x43 :: definition) d table) (hn : StartsNegative P bs) :
    ContainerStop P R t .classInstance (0x43 :: definition ++ bs)

/-- The input stops the program in `decode<Object>`: it begins with a definition with a negative number
of fields or with a container that stops it, or something in front of a nested object leads to such
an input. -/
inductive ObjectStops (P : Platform) : Tables → Bytes → Prop where
  | negative {t : Tables} {bs : Bytes} (hn : StartsNegative P bs) : ObjectStops P t bs
  | definition {t : Tables} {definition bs : Bytes} {d : RawDefinition} {table : List RawDefinition}
    (hd : DefinitionSentence P t.defRef (0x43 :: definition) d table)
    (hs : ObjectStops P { t with defRef := table } bs) : ObjectStops P t (0x43 :: definition ++ bs)
  | container {t : Tables} {kind : ContainerKind} {code : UInt8} {bs : Bytes}
    (hc : ContainerLead kind code) (hs : ContainerStop P (ObjectSentence P) t kind (code :: bs)) :
    ObjectStops P t (code :: bs)
  | inside {t t₁ : Tables} {kind : ContainerKind} {code : UInt8} {front bs : Bytes}
    (hc : ContainerLead kind code) (h : ContainerCall P (ObjectSentence P) t kind (code :: front) t₁)
    (hs : ObjectStops P t₁ bs) : ObjectStops P t (code :: front ++ bs)

/-! ### Instances -/

theorem stops_definition_iff : Stops (decodeDefinition P) t bs ↔ StartsNegative P bs := by
  constructor
  · intro h
    obtain ⟨e, s', hrun⟩ := h.ofList
    exact decodeDefinition_fault hrun
  · intro h
    obtain ⟨s', hrun⟩ := StartsNegative.fault (s := ⟨.ofList bs, t⟩) h
    exact (decodeDefinition_delimited.stops_iff (s := ⟨.ofList bs, t⟩)).1 ⟨_, s', hrun⟩

theorem StartsNegative.lead (h : StartsNegative P bs) : ∃ rest, bs = 0x43 :: rest := by
  obtain ⟨type, count, rest, typeName, n, rfl, -⟩ := h
  exact ⟨_, rfl⟩

/-- A definition that is read or negative, and then the fields of an instance of it. -/
theorem stops_definedFields_iff : Stops (definedFields P result) t bs ↔ StartsNegative P bs ∨
    ∃ number fields rest d table values t₁, bs = number ++ (fields ++ rest) ∧
      DefinitionSentence P t.defRef number d table ∧
      Sequence (Reads (decodeObject P)) { t with defRef := table } fields values t₁ ∧
      values.length < d.fieldNames.length ∧ Stops (decodeObject P) t₁ rest := by
  rw [definedFields, stops_bind_iff decodeDefinition_delimited_hostile fun d =>
    (numsObject_delimited d.fieldNames.length).bind fun _ => .pure _]
  simp only [stops_definition_iff, stops_map_iff (numsObject_delimited _), reads_definition_iff,
    stops_times_iff decodeObject_delimited_hostile]
  refine or_congr_right ⟨?_, ?_⟩
  · rintro ⟨number, rest, d, t₁, rfl, ⟨table, hd, rfl⟩, fields, rest, values, t₁, rfl, hs, hlen, h⟩
    exact ⟨number, fields, rest, d, table, values, t₁, rfl, hd, hs, hlen, h⟩
  · rintro ⟨number, fields, rest, d, table, values, t₁, rfl, hd, hs, hlen, h⟩
    exact ⟨number, _, d, _, rfl, ⟨table, hd, rfl⟩, fields, rest, values, t₁, rfl, hs, hlen, h⟩

/-- What stops the program in a container: the container itself, or an object in it. -/
def ContainerStops (P : Platform) (t : Tables) (kind : ContainerKind) (bs : Bytes) : Prop :=
  ContainerStop P (Reads (decodeObject P)) t kind bs ∨ ∃ front rest t₁, bs = front ++ rest ∧
    ContainerCall P (Reads (decodeObject P)) t kind front t₁ ∧ Stops (decodeObject P) t₁ rest

theorem readActualDefinition_delimited (code : UInt8) :
    Delimited Hostile (readActualDefinition P code) :=
  .ite (fun _ => decodeDefinition_delimited_hostile.bind fun _ => .pure _) fun _ => .pure _

theorem reads_readActualDefinition_iff {code : UInt8} {u : Unit} :
    Reads (readActualDefinition P code) t bs u t' ↔
      (code = 0x43 ∧ ∃ d table, DefinitionSentence P t.defRef bs d table ∧
        t' = { t with defRef := table }) ∨ (code ≠ 0x43 ∧ bs = [] ∧ t' = t) := by
  unfold readActualDefinition
  split_ifs with hcode
  · simp only [reads_map_iff decodeDefinition_delimited_hostile, reads_definition_iff, hcode,
      ne_eq, true_and, not_true, false_and, or_false, and_true]
  · simp only [reads_pure_iff, hcode, ne_eq, not_false_eq_true, false_and, true_and, false_or]

theorem stops_readActualDefinition_iff {code : UInt8} :
    Stops (readActualDefinition P code) t bs ↔ code = 0x43 ∧ StartsNegative P bs := by
  unfold readActualDefinition
  split_ifs with hcode
  · rw [stops_map_iff decodeDefinition_delimited_hostile, stops_definition_iff]
    exact (and_iff_right hcode).symm
  · exact iff_of_false (not_stops (.pure _)) fun h => hcode h.1

theorem classInstanceForm_eq : classInstanceForm P (decodeObject P) result =
    ahead fun code => readActualDefinition P code >>= fun _ => definedFields P result := rfl

theorem stops_instance_iff : Stops (decodeClassInstance P (decodeObject P)) t bs ↔
    ContainerStops P t .classInstance bs := by
  rw [decodeClassInstance_eq, stops_container_iff, classInstanceForm_eq, stops_ahead_iff]
  simp only [stops_bind_iff (readActualDefinition_delimited _) fun _ => definedFields_delimited _,
    stops_readActualDefinition_iff, reads_readActualDefinition_iff, stops_definedFields_iff]
  constructor
  · rintro ⟨code, rest, rfl, ⟨hcode, h⟩ | ⟨first, rest, u, t₁, hbs,
      ⟨hcode, d₁, table₁, hd₁, rfl⟩ | ⟨hcode, rfl, rfl⟩, h⟩⟩
    · exact .inl (.negative h)
    · rw [hcode] at hbs ⊢
      -- a definition in front is read, and what is behind it stops the program
      obtain ⟨definition, rfl⟩ := hd₁.definition_lead hbs
      rw [hbs]
      obtain h | ⟨number, fields, rest, d, table, values, t₁, rfl, hd, hs, hlen, h⟩ := h
      · exact .inl (.behind hd₁ h)
      · exact .inr ⟨_, rest, t₁, by simp, .field (.definition hd₁ hd) hs hlen, h⟩
    · obtain h | ⟨number, fields, rest, d, table, values, t₁, rfl, hd, hs, hlen, h⟩ := h
      · obtain ⟨rest, rfl⟩ := h.lead
        exact absurd (List.cons.inj hbs).1 hcode
      rw [hbs]
      obtain ⟨-, definition, rfl⟩ | ⟨rfl, -⟩ := hd.cases_lead
      · exact absurd (List.cons.inj hbs).1 hcode
      · exact .inr ⟨_, rest, t₁, by simp, .field (.number hd) hs hlen, h⟩
  · rintro (h | ⟨front, rest, t₁, rfl, h, hs⟩)
    · cases h with
      | negative h =>
        obtain ⟨rest, rfl⟩ := h.lead
        exact ⟨0x43, rest, rfl, .inl ⟨rfl, h⟩⟩
      | behind hd h =>
        exact ⟨0x43, _, rfl, .inr ⟨_, _, (), _, rfl, .inl ⟨rfl, _, _, hd, rfl⟩, .inl h⟩⟩
    · cases h with
      | field hh hseq hlen =>
        cases hh with
        | number hd =>
          obtain ⟨code, number, rfl, hlead⟩ := hd.number_lead
          have hcode : code ≠ 0x43 := by
            rintro rfl
            exact absurd hlead (by decide)
          exact ⟨code, _, rfl, .inr ⟨[], _, (), _, rfl, .inr ⟨hcode, rfl, rfl⟩,
            .inr ⟨_, _, _, _, _, _, _, by simp, hd, hseq, hlen, hs⟩⟩⟩
        | definition hd₁ hd =>
          exact ⟨0x43, _, rfl, .inr ⟨_, _, (), _, by simp, .inl ⟨rfl, _, _, hd₁, rfl⟩,
            .inr ⟨_, _, _, _, _, _, _, rfl, hd, hseq, hlen, hs⟩⟩⟩

/-! ### Lists -/

theorem list_fault_iff {s : State UInt8 Tables} : (∃ e s', decodeList P typed s = .fault e s') ↔
    ContainerStops P s.aux (.list typed) s.cursor.unread := by
  unfold ContainerStops
  rw [← element_eq]
  constructor
  · rintro ⟨e, s', h⟩
    obtain ⟨header, rest, typeName, declared, t₁, hu, hh, elements, rest, values, t₂, rfl, hs, hn, hr⟩ :=
      decodeList_fault h
    exact .inr ⟨_, rest, t₂, by rw [hu, List.append_assoc], .element hh hs hn, e, hr⟩
  · rintro (h | ⟨front, rest, t₁, hu, h, e, hr⟩)
    · cases h
    · cases h with
      | element hh hs hn =>
        rw [List.append_assoc] at hu
        exact ⟨e, hh.fault ⟨_, rest, _, t₁, rfl, hs, hn, hr⟩ hu⟩

/-! ### Maps -/

/-- An object that stops the program does not begin with the terminator. -/
theorem stops_object_cons (h : Stops (decodeObject P) t bs) :
    ∃ code rest, bs = code :: rest ∧ code ≠ 0x5a := by
  rw [decodeObject_eq, stops_ahead_iff] at h
  obtain ⟨code, rest, rfl, h⟩ := h
  refine ⟨code, rest, rfl, ?_⟩
  rintro rfl
  exact not_stops .failure h

theorem stops_emplace_iff {key value : Object} : Stops (Dec.emplace P result slots key value) t bs ↔
    key.hash P t.heap t.binaryHash = none := by
  constructor
  · intro h
    obtain ⟨e, s', hrun⟩ := h.ofList
    -- with a hash, `emplace` returns
    cases hk : key.hash P t.heap t.binaryHash with
    | none => rfl
    | some r =>
      rw [Dec.emplace, bind_apply, aux_apply, Outcome.ok_andThen] at hrun
      simp only [hk, Dec.record, bind_apply, modifyAux_apply, Outcome.ok_andThen] at hrun
      split at hrun <;> cases hrun
  · intro hk
    refine ⟨.undefinedHash, fun c rest _ => ?_⟩
    rw [Dec.emplace, bind_apply, aux_apply, Outcome.ok_andThen]
    simp only [hk]
    exact ⟨_, rfl⟩

/-- An entry stops the program in its key, in its value, or because the key has no hash. -/
theorem stops_entry_iff : Stops (readEntry P result slots) t bs ↔ Stops (decodeObject P) t bs ∨
    ∃ ks rest key t₁, bs = ks ++ rest ∧ Reads (decodeObject P) t ks key t₁ ∧
      (Stops (decodeObject P) t₁ rest ∨ ∃ vs rest' value t₂, rest = vs ++ rest' ∧
        Reads (decodeObject P) t₁ vs value t₂ ∧ key.hash P t₂.heap t₂.binaryHash = none) := by
  rw [readEntry, stops_bind_iff decodeObject_delimited_hostile fun key =>
    decodeObject_delimited_hostile.bind fun value => entryEnd_delimited slots key value]
  refine or_congr_right (exists_congr fun ks => exists_congr fun rest => exists_congr fun key =>
    exists_congr fun t₁ => and_congr_right fun _ => and_congr_right fun _ => ?_)
  rw [stops_bind_iff decodeObject_delimited_hostile fun value => entryEnd_delimited slots key value]
  simp only [stops_map_iff (emplace_delimited _ _ _), stops_emplace_iff]

theorem stops_entriesStep_iff : Stops (readEntriesStep P (decodeObject P) result slots) t bs ↔
    Stops (readEntry P result slots) t bs := by
  rw [readEntriesStep_eq, stops_ahead_iff]
  constructor
  · rintro ⟨code, rest, rfl, h⟩
    split_ifs at h
    · exact absurd h (not_stops (Delimited.next.bind fun _ => .pure _))
    · exact h
  · intro h
    have hcons : ∃ code rest, bs = code :: rest ∧ code ≠ 0x5a := by
      obtain h | ⟨ks, rest, key, t₁, rfl, hk, -⟩ := stops_entry_iff.1 h
      · exact stops_object_cons h
      · obtain ⟨code, ks, rfl, hcode⟩ := reads_object_cons hk
        exact ⟨code, ks ++ rest, rfl, hcode⟩
    obtain ⟨code, rest, rfl, hcode⟩ := hcons
    refine ⟨code, rest, rfl, ?_⟩
    rw [if_neg hcode]
    exact h

theorem stops_entries_iff : Stops (readEntries P (decodeObject P) result) t bs ↔
    ∃ front rest slots t₁, bs = front ++ rest ∧
      Entries P (Reads (decodeObject P)) result [] t front slots t₁ ∧
      Stops (readEntry P result slots) t₁ rest := by
  rw [readEntries, stops_map_iff (Delimited.iter readEntriesStep_delimited
    readEntriesStep_progresses [])]
  simp only [stops_iter_iff readEntriesStep_delimited readEntriesStep_progresses, turns_entries_iff,
    stops_entriesStep_iff]

theorem not_stops_listType : ¬ Stops (listType P typed) t bs := by
  refine not_stops (.ite (fun _ => ?_) fun _ => .pure _)
  exact (decodeTypeRef_leaf _ False 0).delimited.bind fun _ => .pure _

theorem stops_mapForm_iff : Stops (mapForm P typed result) t bs ↔
    ∃ code type rest typeName table, bs = code :: (type ++ rest) ∧
      ListType P t.typesRef typed type typeName table ∧
      Stops (readEntries P (decodeObject P) result) { t with typesRef := table } rest := by
  have hend (typeName : Option Bytes) := mapEnd_delimited (P := P) result typeName
  rw [mapForm, stops_bind_iff Delimited.next fun _ => (listType_delimited typed).bind hend]
  simp only [stops_bind_iff (listType_delimited typed) hend, stops_map_iff (readEntries_delimited _),
    reads_next_iff, reads_listType_iff, not_stops_listType, false_or]
  constructor
  · rintro (h | ⟨front, rest, code, t₁, rfl, ⟨rfl, rfl⟩, type, rest, typeName, t₂, rfl, ⟨table, ht, rfl⟩,
      h⟩)
    · exact absurd h (not_stops .next)
    · exact ⟨code, type, rest, typeName, table, rfl, ht, h⟩
  · rintro ⟨code, type, rest, typeName, table, rfl, ht, h⟩
    exact .inr ⟨[code], _, code, t, rfl, ⟨rfl, rfl⟩, type, rest, typeName, _, rfl, ⟨table, ht, rfl⟩, h⟩

/-- A map behind a lead byte that the assertions let pass. -/
theorem stops_mapContainer_iff {code : UInt8} (hc : P.ndebug = true ∨ code = mapLead typed) :
    Stops (Dec.container (.map typed) (mapForm P typed)) t (code :: bs) ↔
      ContainerStops P t (.map typed) (code :: bs) := by
  rw [stops_container_iff, stops_mapForm_iff]
  simp only [stops_entries_iff, stops_entry_iff]
  constructor
  · rintro ⟨code, type, rest, typeName, table, hbs, ht, entries, rest, slots, t₁, rfl, he, h⟩
    obtain rfl := (List.cons.inj hbs).1
    have hh : MapHeader P typed (t.started (.map typed)) _ _ _ := .intro hc ht
    rw [hbs]
    obtain h | ⟨ks, rest, key, t₂, rfl, hk, h | ⟨vs, rest, value, t₃, rfl, hv, hn⟩⟩ := h
    · exact .inr ⟨_, rest, t₁, by simp, .key hh he, h⟩
    · exact .inr ⟨_, rest, t₂, by simp, .value hh he hk, h⟩
    · exact .inl (.unhashed hh he hk hv hn rest)
  · rintro (h | ⟨front, rest, t₁, hbs, h, hs⟩)
    · generalize hbs : code :: bs = sentence at h
      cases h with
      | asserted hd hno =>
        obtain hd' | rfl := hc
        · rw [hd] at hd'
          cases hd'
        · exact absurd hbs.symm (hno bs)
      | unhashed hh he hk hv hn rest =>
        obtain ⟨-, ht⟩ := hh
        exact ⟨_, _, _, _, _, rfl, ht, _, _, _, _, rfl, he,
          .inr ⟨_, _, _, _, rfl, hk, .inr ⟨_, _, _, _, rfl, hv, hn⟩⟩⟩
    · rw [hbs]
      cases h with
      | key hh he =>
        obtain ⟨-, ht⟩ := hh
        exact ⟨_, _, _, _, _, by rw [List.append_assoc]; rfl, ht, _, _, _, _, rfl, he, .inl hs⟩
      | value hh he hk =>
        obtain ⟨-, ht⟩ := hh
        exact ⟨_, _, _, _, _, by simp only [List.append_assoc]; rfl, ht, _, _, _, _, rfl, he,
          .inr ⟨_, _, _, _, rfl, hk, .inl hs⟩⟩

/-! ### The decoders of maps -/

/-- A map behind its lead byte, given the address of its object. -/
def mapRest (P : Platform) (typed : Bool) (result : ObjId) : Dec Object :=
  listType P typed >>= fun typeName => readEntries P (decodeObject P) result >>= fun entries =>
    pure (.map result typeName entries)

/-- What the decoders of maps do, with their assertions. -/
def mapBody (P : Platform) (typed : Bool) (result : ObjId) : Dec Object :=
  readByte P >>= fun ret => Dec.abslAssert P ret.1 >>= fun _ =>
    Dec.abslAssert P (ret.2 == mapLead typed) >>= fun _ => mapRest P typed result

theorem typedMapRest_eq : mapRest P true result = decodeTypeRef P >>= fun typeStr =>
    readEntries P (decodeObject P) result >>= fun entries => pure (.typedMap result typeStr entries) := by
  funext s
  simp only [mapRest, listType, if_true, bind_apply]
  cases decodeTypeRef P s <;> rfl

theorem decodeMap_eq : decodeMap P typed = Dec.container (.map typed) (mapBody P typed) := by
  cases typed with
  | false => rfl
  | true =>
    refine congrArg (Dec.container (.map true)) (funext fun result => ?_)
    rw [mapBody, typedMapRest_eq]
    rfl

section Runs

variable {s : State UInt8 Tables}

/-- Behind a lead byte that the assertions let pass, or in a build without them. -/
theorem mapBody_of_cons {code : UInt8} (hu : s.cursor.unread = code :: bs)
    (hc : P.ndebug = true ∨ code = mapLead typed) : mapBody P typed result s = mapForm P typed result s := by
  have hpass : ((code == mapLead typed) || P.ndebug) = true := by
    obtain hd | rfl := hc
    · rw [hd, Bool.or_true]
    · rw [beq_self_eq_true, Bool.true_or]
  rw [mapBody, bind_apply, readByte_of_cons P hu, mapForm, bind_apply, next_of_cons hu]
  simp only [Outcome.ok_andThen, Dec.abslAssert, hpass, Bool.true_or, if_true, bind_apply, pure_apply]
  rfl

/-- An assertion stops the program in front of anything else. -/
theorem mapBody_asserted (result : ObjId) (hd : P.ndebug = false)
    (hno : ∀ rest, s.cursor.unread ≠ mapLead typed :: rest) :
    ∃ s', mapBody P typed result s = .fault .assertFailed s' := by
  rw [mapBody, bind_apply]
  rcases hu : s.cursor.unread with _ | ⟨code, rest⟩
  · rw [readByte_of_nil P hu]
    simp only [Outcome.ok_andThen, Dec.abslAssert, hd, Bool.or_false, bind_apply]
    exact ⟨_, rfl⟩
  · have hcode : (code == mapLead typed) = false := by
      rw [beq_eq_false_iff_ne]
      rintro rfl
      exact hno rest hu
    rw [readByte_of_cons P hu]
    simp only [Outcome.ok_andThen, Dec.abslAssert, hd, hcode, Bool.or_false, if_true, bind_apply,
      pure_apply]
    exact ⟨_, rfl⟩

/-- Without assertions the empty input is refused. -/
theorem mapBody_of_nil (hd : P.ndebug = true) (hu : s.cursor.unread = []) :
    ∃ s', mapBody P typed result s = .fail s' := by
  -- `ret.second` is 0, and the entries or the type need a byte
  have hentries : readEntries P (decodeObject P) result s = .fail s := by
    refine bind_eq_fail.2 (.inl ?_)
    rw [readEntries_loop, readEntriesStep_eq]
    exact bind_eq_fail.2 (.inl (ahead_of_nil hu))
  have hrest : mapRest P typed result s = .fail s := by
    cases typed with
    | false => exact bind_eq_fail.2 (.inr ⟨none, s, rfl, bind_eq_fail.2 (.inl hentries)⟩)
    | true =>
      rw [typedMapRest_eq, decodeTypeRef_eq]
      exact bind_eq_fail.2 (.inl (ahead_of_nil hu))
  rw [mapBody, bind_apply, readByte_of_nil P hu]
  simp only [Outcome.ok_andThen, Dec.abslAssert, hd, Bool.or_true, if_true, bind_apply, pure_apply]
  exact ⟨s, hrest⟩

theorem container_fail {body : ObjId → Dec Object}
    (h : ∃ s', body s.aux.heap.length ⟨s.cursor, s.aux.started kind⟩ = .fail s') :
    ∃ s', Dec.container kind body s = .fail s' := by
  obtain ⟨s₁, h⟩ := h
  have hrun : (Dec.allocate kind >>= fun result => body result >>= fun contents =>
      Dec.finish result contents) s = .fail s₁ :=
    bind_eq_fail.2 (.inr ⟨_, _, rfl, bind_eq_fail.2 (.inl h)⟩)
  rw [Dec.container, Dec.owning, onFail, hrun]
  exact ⟨_, rfl⟩

theorem decodeMap_of_cons {code : UInt8} (hu : s.cursor.unread = code :: bs)
    (hc : P.ndebug = true ∨ code = mapLead typed) :
    decodeMap P typed s = Dec.container (.map typed) (mapForm P typed) s := by
  rw [decodeMap_eq]
  exact container_congr fun _ _ => mapBody_of_cons hu hc

/-- What becomes of a call of the decoders of maps: an assertion fails, nothing is there, or the map
is read. -/
theorem decodeMap_cases (P : Platform) (typed : Bool) (s : State UInt8 Tables) :
    (P.ndebug = false ∧ (∀ rest, s.cursor.unread ≠ mapLead typed :: rest) ∧
      ∃ e s', decodeMap P typed s = .fault e s') ∨
    (s.cursor.unread = [] ∧ P.ndebug = true ∧ ∃ s', decodeMap P typed s = .fail s') ∨
    ∃ code rest, s.cursor.unread = code :: rest ∧ (P.ndebug = true ∨ code = mapLead typed) ∧
      decodeMap P typed s = Dec.container (.map typed) (mapForm P typed) s := by
  rw [decodeMap_eq]
  have asserted (hd : P.ndebug = false) (hno : ∀ rest, s.cursor.unread ≠ mapLead typed :: rest) :
      ∃ e s', Dec.container (.map typed) (mapBody P typed) s = .fault e s' := by
    obtain ⟨s', h⟩ := mapBody_asserted s.aux.heap.length (s := ⟨s.cursor, s.aux.started (.map typed)⟩)
      hd hno
    exact ⟨_, s', container_fault_iff.2 h⟩
  rcases hu : s.cursor.unread with _ | ⟨code, rest⟩
  · cases hd : P.ndebug with
    | false => exact .inl ⟨rfl, by simp, asserted hd (by simp [hu])⟩
    | true => exact .inr (.inl ⟨rfl, rfl, container_fail (mapBody_of_nil hd hu)⟩)
  · by_cases hc : P.ndebug = true ∨ code = mapLead typed
    · exact .inr (.inr ⟨code, rest, rfl, hc, decodeMap_eq (P := P) ▸ decodeMap_of_cons hu hc⟩)
    · rw [not_or, Bool.not_eq_true] at hc
      refine .inl ⟨hc.1, fun rest' h => hc.2 (List.cons.inj h).1, asserted hc.1 fun rest' h => ?_⟩
      rw [hu] at h
      exact hc.2 (List.cons.inj h).1

end Runs

theorem mapContainer_tame (typed : Bool) (N : ℕ) :
    Tame Hostile True (N + 1) (Dec.container (.map typed) (mapForm P typed))
      (Dec.container (.map typed) (mapForm P typed)) Object.nodes := by
  cases typed with
  | false => exact container_tame _ (untypedMapForm_tame decodeObject_tame)
  | true =>
    rw [← typedMapForm_eq]
    exact container_tame _ (typedMapForm_tame decodeObject_tame)

theorem mapContainer_delimited (typed : Bool) :
    Delimited Hostile (Dec.container (.map typed) (mapForm P typed)) := (mapContainer_tame typed 0).delimited

theorem MapHeader.lead {header : Bytes} {typeName : Option Bytes}
    (h : MapHeader P typed t header typeName t') :
    ∃ code type, header = code :: type ∧ (P.ndebug = true ∨ code = mapLead typed) := by
  cases h with
  | intro hc => exact ⟨_, _, rfl, hc⟩

/-- Something stands in front of an object in a container. -/
theorem ContainerCall.cons (h : ContainerCall P R t kind bs t') : ∃ code rest, bs = code :: rest := by
  cases h with
  | element hh =>
    obtain ⟨code, rest, rfl, -⟩ := hh.lead
    exact ⟨code, _, rfl⟩
  | key hh =>
    obtain ⟨code, rest, rfl, -⟩ := hh.lead
    exact ⟨code, _, rfl⟩
  | value hh =>
    obtain ⟨code, rest, rfl, -⟩ := hh.lead
    exact ⟨code, _, rfl⟩
  | field hh =>
    obtain ⟨code, rest, rfl⟩ := hh.cons
    exact ⟨code, _, rfl⟩

theorem not_containerStops_nil (hd : P.ndebug = true) : ¬ ContainerStops P t (.map typed) [] := by
  rintro (h | ⟨front, rest, t₁, hbs, h, -⟩)
  · generalize hbs : ([] : Bytes) = bs at h
    cases h with
    | asserted hd' =>
      rw [hd] at hd'
      cases hd'
    | unhashed hh =>
      obtain ⟨code, type, rfl, -⟩ := hh.lead
      cases hbs
  · obtain ⟨code, front, rfl⟩ := h.cons
    cases hbs

theorem map_fault_iff {s : State UInt8 Tables} : (∃ e s', decodeMap P typed s = .fault e s') ↔
    ContainerStops P s.aux (.map typed) s.cursor.unread := by
  obtain ⟨hd, hno, h⟩ | ⟨hu, hd, s', h⟩ | ⟨code, rest, hu, hc, h⟩ := decodeMap_cases P typed s
  · exact iff_of_true h (.inl (.asserted hd hno))
  · rw [hu]
    refine iff_of_false ?_ (not_containerStops_nil hd)
    rintro ⟨e, s'', h'⟩
    rw [h] at h'
    cases h'
  · rw [h, (mapContainer_delimited typed).stops_iff, hu]
    exact stops_mapContainer_iff hc

/-- A map that is returned has been read. -/
theorem map_ok_iff {s : State UInt8 Tables} : (∃ o s', decodeMap P typed s = .ok o s') ↔
    ∃ sentence rest o t', s.cursor.unread = sentence ++ rest ∧
      MapReading P (Reads (decodeObject P)) typed s.aux sentence o t' := by
  have header {sentence rest : Bytes} {o : Object} {t' : Tables} (hu : s.cursor.unread = sentence ++ rest)
      (hm : MapReading P (Reads (decodeObject P)) typed s.aux sentence o t') :
      ∃ code type, sentence = code :: type ∧ (P.ndebug = true ∨ code = mapLead typed) := by
    cases hm with
    | intro hh =>
      obtain ⟨code, type, rfl, hc⟩ := hh.lead
      exact ⟨code, _, rfl, hc⟩
  -- an assertion fails, the input is empty, or the map is read
  obtain ⟨hd, hno, e, s₁, h⟩ | ⟨hu, hd, s₁, h⟩ | ⟨code, rest, hu, hc, h⟩ := decodeMap_cases P typed s
  · refine iff_of_false (by simp [h]) ?_
    rintro ⟨sentence, rest, o, t', hu, hm⟩
    obtain ⟨code, type, rfl, hd' | rfl⟩ := header hu hm
    · rw [hd] at hd'
      cases hd'
    · exact hno _ hu
  · refine iff_of_false (by simp [h]) ?_
    rintro ⟨sentence, rest, o, t', hu', hm⟩
    obtain ⟨code, type, rfl, -⟩ := header hu' hm
    rw [hu] at hu'
    cases hu'
  · rw [h]
    have first {sentence rest' : Bytes} (hu' : s.cursor.unread = sentence ++ rest') :
        ∀ code' ∈ sentence.head?, P.ndebug = true ∨ code' = mapLead typed := by
      intro code' hcode'
      obtain ⟨type, rfl⟩ := List.head?_eq_some_iff.1 hcode'
      rw [hu] at hu'
      exact (List.cons.inj hu').1 ▸ hc
    constructor
    · rintro ⟨o, s', hrun⟩
      obtain ⟨sentence, rest', hu', hr, -⟩ := (mapContainer_delimited typed).ok_iff.1 hrun
      exact ⟨sentence, rest', o, _, hu', (reads_mapContainer_iff (first hu')).1 hr⟩
    · rintro ⟨sentence, rest', o, t', hu', hm⟩
      exact ⟨o, _, (reads_mapContainer_iff (first hu')).2 hm s.cursor rest' hu'⟩

/-! ### Containers and objects -/

/-- **The inputs on which the decoder of a container stops the program.** -/
theorem decodeContainer_fault_iff {s : State UInt8 Tables} :
    (∃ e s', decodeContainer P kind s = .fault e s') ↔
      ContainerStops P s.aux kind s.cursor.unread := by
  cases kind with
  | list typed => exact list_fault_iff
  | map typed => exact map_fault_iff
  | classInstance => exact direct_delimited.stops_iff.trans stops_instance_iff

theorem decodeList_delimited (typed : Bool) : Delimited Hostile (decodeList P typed) :=
  (decodeList_tame typed 0).delimited

/-- **The inputs for which the decoder of a container returns one.** -/
theorem decodeContainer_ok_iff {s : State UInt8 Tables} :
    (∃ o s', decodeContainer P kind s = .ok o s') ↔ ∃ sentence rest o t',
      s.cursor.unread = sentence ++ rest ∧
        ContainerReading P (Reads (decodeObject P)) kind s.aux sentence o t' := by
  cases kind with
  | list typed => exact (decodeList_delimited typed).returns_iff.trans (by simp only [reads_list_iff]; rfl)
  | map typed => exact map_ok_iff
  | classInstance =>
    exact direct_delimited.returns_iff.trans (by simp only [reads_instanceReading_iff]; rfl)

theorem decodeContainer_not_exhausted {s : State UInt8 Tables} :
    decodeContainer P kind s ≠ .exhausted := by
  cases kind with
  | list typed => exact decodeList_not_exhausted
  | map typed =>
    change decodeMap P typed s ≠ .exhausted
    obtain ⟨-, -, e, s', h⟩ | ⟨-, -, s', h⟩ | ⟨code, rest, hu, hc, h⟩ := decodeMap_cases P typed s
    · simp [h]
    · simp [h]
    · rw [h]
      exact ((mapContainer_tame typed _).agree s (Nat.lt_succ_self _)).2 trivial
  | classInstance =>
    change decodeClassInstance P (decodeObject P) s ≠ .exhausted
    rw [decodeClassInstance_eq]
    have htame := container_tame .classInstance (classInstanceForm_tame (P := P)
      (decodeObject_tame (P := P) (N := s.cursor.unread.length)))
    exact (htame.agree s (Nat.lt_succ_self _)).2 trivial

theorem stops_containerForm_iff {code : UInt8} (hc : ContainerLead kind code) :
    Stops (Dec.container kind (containerForm P kind)) t (code :: bs) ↔
      ContainerStops P t kind (code :: bs) := by
  cases kind with
  | list typed =>
    rw [containerForm, ← decodeList_eq]
    exact ((decodeList_delimited typed).stops_iff (s := ⟨.ofList (code :: bs), t⟩)).symm.trans
      list_fault_iff
  | map typed => exact stops_mapContainer_iff (.inr hc)
  | classInstance => exact decodeClassInstance_eq (P := P) ▸ stops_instance_iff

/-- What stops `decode<Object>` behind a look at the lead byte. -/
theorem objectStops_of_stops (h : Stops (decodeObject P) t bs) : ObjectStops P t bs := by
  induction hn : bs.length using Nat.strong_induction_on generalizing bs t with
  | _ n ih =>
  rw [decodeObject_eq, stops_ahead_iff] at h
  obtain ⟨code, rest, rfl, h⟩ := h
  -- in a container, the object that stops the program is on a shorter input
  have container (kind : ContainerKind) (hl : leadOf code = containerLeads kind) :
      ObjectStops P t (code :: rest) := by
    have hc := (leadOf_container_iff kind code).1 hl
    rw [decodeObjectForm_container hc, stops_containerForm_iff hc, ContainerStops,
      reads_object_eq] at h
    obtain h | ⟨front, rest', t₁, hbs, h, hs⟩ := h
    · exact .container hc h
    · obtain ⟨code', front, rfl⟩ := h.cons
      obtain rfl := (List.cons.inj hbs).1
      rw [hbs] at hn ⊢
      rw [List.cons_append, List.length_cons, List.length_append] at hn
      exact .inside hc h (ih rest'.length (by omega) hs rfl)
  -- values without objects in them never stop it
  have leaf {α : Type} {m : Dec α} {f : α → Object} (hm : Dec.Leaf m) :
      ¬ Stops (m >>= fun a => pure (f a)) t (code :: rest) :=
    not_stops ((hm (fun _ => False) False 0).delimited.bind fun _ => .pure _)
  unfold decodeObjectForm at h
  cases hl : leadOf code <;> simp only [hl] at h
  case typedList => exact container (.list true) hl
  case untypedList => exact container (.list false) hl
  case typedMap => exact container (.map true) hl
  case untypedMap => exact container (.map false) hl
  case classInstance => exact container .classInstance hl
  case null => exact absurd h (not_stops (Delimited.next.bind fun _ => .pure _))
  case bool => exact absurd h (leaf decodeBool_leaf)
  case date => exact absurd h (leaf (readDate_leaf _))
  case double => exact absurd h (leaf decodeDouble_leaf)
  case string => exact absurd h (leaf decodeString_leaf)
  case binary => exact absurd h (leaf decodeBytes_leaf)
  case long => exact absurd h (leaf decodeInt64_leaf)
  case int => exact absurd h (leaf decodeInt32_leaf)
  case unknown => exact absurd h (not_stops .failure)
  case ref =>
    refine absurd h (not_stops (Delimited.next.bind fun _ =>
      (decodeInt32_leaf _ False 0).delimited.bind fun _ => ?_))
    exact (Dec.lookup_tame _ False 0 _).delimited.bind fun _ =>
      (Delimited.modifyAux _).bind fun _ => .pure _
  case definition =>
    obtain rfl := leadOf_definition code hl
    rw [stops_bind_iff decodeDefinition_delimited_hostile fun _ => decodeObject_delimited_hostile,
      stops_definition_iff] at h
    obtain h | ⟨front, rest', d, t₁, hbs, hread, hs⟩ := h
    · exact .negative h
    obtain ⟨table, hd, rfl⟩ := reads_definition_iff.1 hread
    obtain ⟨definition, rfl⟩ := hd.definition_lead hbs
    rw [hbs] at hn ⊢
    rw [List.cons_append, List.length_cons, List.length_append] at hn
    exact .definition hd (ih rest'.length (by omega) hs rfl)

theorem ObjectStops.stops (h : ObjectStops P t bs) : Stops (decodeObject P) t bs := by
  induction h with
  | negative hn =>
    obtain ⟨rest, rfl⟩ := hn.lead
    rw [decodeObject_eq, stops_ahead_iff]
    refine ⟨0x43, rest, rfl, ?_⟩
    rw [decodeObjectForm_definition, stops_bind_iff decodeDefinition_delimited_hostile fun _ =>
      decodeObject_delimited_hostile]
    exact .inl (stops_definition_iff.2 hn)
  | definition hd _ ih =>
    rw [decodeObject_eq, stops_ahead_iff]
    refine ⟨0x43, _, rfl, ?_⟩
    rw [decodeObjectForm_definition, stops_bind_iff decodeDefinition_delimited_hostile fun _ =>
      decodeObject_delimited_hostile]
    exact .inr ⟨_, _, _, _, rfl, reads_definition_iff.2 ⟨_, hd, rfl⟩, ih⟩
  | container hc hs =>
    rw [decodeObject_eq, stops_ahead_iff]
    refine ⟨_, _, rfl, ?_⟩
    rw [decodeObjectForm_container hc, stops_containerForm_iff hc, ContainerStops, reads_object_eq]
    exact .inl hs
  | inside hc h _ ih =>
    rw [decodeObject_eq, stops_ahead_iff]
    refine ⟨_, _, rfl, ?_⟩
    rw [decodeObjectForm_container hc, List.cons_append, stops_containerForm_iff hc, ContainerStops,
      ← List.cons_append, reads_object_eq]
    exact .inr ⟨_, _, _, rfl, h, ih⟩

/-- **The inputs on which `decode<Object>` stops the program.** -/
theorem stops_object_iff : Stops (decodeObject P) t bs ↔ ObjectStops P t bs :=
  ⟨objectStops_of_stops, ObjectStops.stops⟩

end Hessian2
