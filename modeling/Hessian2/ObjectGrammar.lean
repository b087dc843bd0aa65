import Hessian2.InstanceGrammar
import Hessian2.Parsing.Grammar
import Hessian2.ScalarGrammar
import Hessian2.Travel

/-!
# The grammar of objects

What `decode<Object>` and the decoders of containers accept, without the decoders: the forms of an
object are given in terms of the objects in it, and the objects are the sentences of the grammar that
has these forms.

* `ListReading`, `MapReading`, `InstanceReading`, `ContainerReading` : the bytes that are read as a
  container, given those that are read as the objects in it.
* `ObjectForm` : the bytes that are read as an object, given the same.
* `ObjectSentence` : the sentences of the grammar.
* `reads_object_eq` : **`decode<Object>` reads exactly these.**
-/

namespace Hessian2

open Parsing Parsing.Parser Reader

variable {P : Platform} {R : Reading UInt8 Tables Object} {typed : Bool} {t t' : Tables} {bs : Bytes}
  {o : Object} {result : ObjId} {slots slots' : List Slot}

/-! ### Forms -/

/-- The elements of a list: as many as declared and none if the length is negative, or all in front
of the terminator. -/
inductive Elements (R : Reading UInt8 Tables Object) (t : Tables) :
    Option ℤ → Bytes → List Object → Tables → Prop where
  | untilEnd {elements : Bytes} {values : List Object} {t' : Tables}
    (hs : Sequence R t elements values t') : Elements R t none (elements ++ [0x5a]) values t'
  | fixed {elements : Bytes} {values : List Object} {t' : Tables} {n : ℤ}
    (hn : values.length = n.toNat) (hs : Sequence R t elements values t') :
    Elements R t (some n) elements values t'

/-- The bytes that are read as a list.  A lead byte that is none of an untyped list stands for an
empty list where one is read. -/
inductive ListReading (P : Platform) (R : Reading UInt8 Tables Object) (typed : Bool) (t : Tables) :
    Bytes → Object → Tables → Prop where
  | intro {header body : Bytes} {typeName : Option Bytes} {declared : Option ℤ}
    {values : List Object} {t₁ t₂ : Tables}
    (hh : ListHeader P typed (t.started (.list typed)) header typeName declared t₁)
    (hb : Elements R t₁ declared body values t₂) :
    ListReading P R typed t (header ++ body) (.list t.heap.length typeName values)
      (t₂.finished t.heap.length (.list t.heap.length typeName values))
  | unlisted {code : UInt8} (hu : typed = false) (hc : ¬ ListLead typed code) :
    ListReading P R typed t [code] (.list t.heap.length none [])
      ((t.started (.list typed)).finished t.heap.length (.list t.heap.length none []))

/-- `emplace` of a key that has a hash. -/
inductive Emplacement (P : Platform) (self : ObjId) (slots : List Slot) (key value : Object)
    (t : Tables) : List Slot → Tables → Prop where
  | stored {hash static : UInt64} (hk : key.hash P t.heap t.binaryHash = some (hash, static))
    (hf : findsKey slots hash key = false) :
    Emplacement P self slots key value t (slots ++ [⟨hash, key, value⟩]) { t with
      binaryHash := static
      events := t.events ++ [.insertion ⟨self, key, value, t.heap, t.binaryHash, true⟩] }
  | dropped {hash static : UInt64} (hk : key.hash P t.heap t.binaryHash = some (hash, static))
    (hf : findsKey slots hash key = true) :
    Emplacement P self slots key value t slots (({ t with
      binaryHash := static
      events := t.events ++ [.insertion ⟨self, key, value, t.heap, t.binaryHash, false⟩] } :
        Tables).destroy (key.containers ++ value.containers))

/-- The entries of a map, and the hash map before and behind them. -/
inductive Entries (P : Platform) (R : Reading UInt8 Tables Object) (self : ObjId) :
    List Slot → Tables → Bytes → List Slot → Tables → Prop where
  | nil (slots : List Slot) (t : Tables) : Entries P R self slots t [] slots t
  | cons {slots slots₁ slots' : List Slot} {t t₁ t₂ t₃ t' : Tables} {ks vs bs : Bytes}
    {key value : Object} (hk : R t ks key t₁) (hv : R t₁ vs value t₂)
    (he : Emplacement P self slots key value t₂ slots₁ t₃)
    (hs : Entries P R self slots₁ t₃ bs slots' t') :
    Entries P R self slots t (ks ++ vs ++ bs) slots' t'

/-- The lead byte of a map. -/
def mapLead (typed : Bool) : UInt8 := if typed then 0x4d else 0x48

/-- The bytes of a map in front of its entries.  In a build without assertions the lead byte is not
looked at where a map is read. -/
inductive MapHeader (P : Platform) (typed : Bool) (t : Tables) :
    Bytes → Option Bytes → Tables → Prop where
  | intro {code : UInt8} {type : Bytes} {typeName : Option Bytes} {table : List Bytes}
    (hc : P.ndebug = true ∨ code = mapLead typed)
    (ht : ListType P t.typesRef typed type typeName table) :
    MapHeader P typed t (code :: type) typeName { t with typesRef := table }

/-- The bytes that are read as a map. -/
inductive MapReading (P : Platform) (R : Reading UInt8 Tables Object) (typed : Bool) (t : Tables) :
    Bytes → Object → Tables → Prop where
  | intro {header entries : Bytes} {typeName : Option Bytes} {slots : List Slot} {t₁ t₂ : Tables}
    (hh : MapHeader P typed (t.started (.map typed)) header typeName t₁)
    (he : Entries P R t.heap.length [] t₁ entries slots t₂) :
    MapReading P R typed t (header ++ (entries ++ [0x5a]))
      (.map t.heap.length typeName (entriesOf slots))
      (t₂.finished t.heap.length (.map t.heap.length typeName (entriesOf slots)))

/-- The bytes that are read as an instance. -/
inductive InstanceReading (P : Platform) (R : Reading UInt8 Tables Object) (t : Tables) :
    Bytes → Object → Tables → Prop where
  | intro {header fields : Bytes} {d : RawDefinition} {table : List RawDefinition}
    {values : List Object} {t₁ : Tables} (hh : DirectHeader P t.defRef header d table)
    (hlen : values.length = d.fieldNames.length)
    (hf : Sequence R (t.entered table) fields values t₁) :
    InstanceReading P R t (header ++ fields) (.classInstance t.heap.length d values)
      (t₁.finished t.heap.length (.classInstance t.heap.length d values))

/-- The bytes that are read as a container. -/
def ContainerReading (P : Platform) (R : Reading UInt8 Tables Object) :
    ContainerKind → Tables → Bytes → Object → Tables → Prop
  | .list typed => ListReading P R typed
  | .map typed => MapReading P R typed
  | .classInstance => InstanceReading P R

/-- The lead bytes of containers. -/
def ContainerLead : ContainerKind → UInt8 → Prop
  | .list typed, code => ListLead typed code
  | .map typed, code => code = mapLead typed
  | .classInstance, code => InstanceLead code

/-- The bytes that are read as an object. -/
inductive ObjectForm (P : Platform) (R : Reading UInt8 Tables Object) (t : Tables) :
    Bytes → Object → Tables → Prop where
  | scalar {bs : Bytes} {o : Object} (h : ScalarSentence P bs o) : ObjectForm P R t bs o t
  | container {kind : ContainerKind} {code : UInt8} {bs : Bytes} {o : Object} {t' : Tables}
    (hc : ContainerLead kind code) (h : ContainerReading P R kind t (code :: bs) o t') :
    ObjectForm P R t (code :: bs) o t'
  | definition {definition bs : Bytes} {d : RawDefinition} {table : List RawDefinition} {o : Object}
    {t' : Tables} (hd : DefinitionSentence P t.defRef (0x43 :: definition) d table)
    (h : R { t with defRef := table } bs o t') : ObjectForm P R t (0x43 :: definition ++ bs) o t'
  | ref {count : Bytes} {n : Int32} {target : ObjId} (hn : IntSentence count n)
    (h : t.valuesRef[n.toUInt32.toNat]? = some target) : ObjectForm P R t (0x51 :: count)
      (.ref target) { t with events := t.events ++ [.reference target] }

/-! ### The grammar -/

section Grammar

variable {S : Reading UInt8 Tables Object} {self : ObjId} {declared : Option ℤ} {values : List Object}

theorem Elements.mono (h : R ≤ S) (he : Elements R t declared bs values t') :
    Elements S t declared bs values t' := by
  cases he with
  | untilEnd hs => exact .untilEnd (hs.mono h)
  | fixed hn hs => exact .fixed hn (hs.mono h)

theorem Elements.restrict {n : ℕ} (he : Elements R t declared bs values t') (hn : bs.length < n) :
    Elements (R.below n) t declared bs values t' := by
  cases he with
  | untilEnd hs =>
    rw [List.length_append] at hn
    exact .untilEnd (hs.restrict (by omega))
  | fixed hlen hs => exact .fixed hlen (hs.restrict hn)

theorem Entries.mono (h : R ≤ S) (he : Entries P R self slots t bs slots' t') :
    Entries P S self slots t bs slots' t' := by
  induction he with
  | nil => exact .nil _ _
  | cons hk hv he _ ih => exact .cons (h _ _ _ _ hk) (h _ _ _ _ hv) he ih

theorem Entries.restrict {n : ℕ} (he : Entries P R self slots t bs slots' t') (hn : bs.length < n) :
    Entries P (R.below n) self slots t bs slots' t' := by
  induction he with
  | nil => exact .nil _ _
  | cons hk hv he _ ih =>
    simp only [List.length_append] at hn
    exact .cons ⟨by omega, hk⟩ ⟨by omega, hv⟩ he (ih (by omega))

theorem ListReading.mono (h : R ≤ S) (hl : ListReading P R typed t bs o t') :
    ListReading P S typed t bs o t' := by
  cases hl with
  | intro hh hb => exact .intro hh (hb.mono h)
  | unlisted hu hc => exact .unlisted hu hc

theorem MapReading.mono (h : R ≤ S) (hm : MapReading P R typed t bs o t') :
    MapReading P S typed t bs o t' := by
  cases hm with
  | intro hh he => exact .intro hh (he.mono h)

theorem InstanceReading.mono (h : R ≤ S) (hi : InstanceReading P R t bs o t') :
    InstanceReading P S t bs o t' := by
  cases hi with
  | intro hh hlen hf => exact .intro hh hlen (hf.mono h)

theorem ContainerReading.mono {kind : ContainerKind} (h : R ≤ S)
    (hr : ContainerReading P R kind t bs o t') : ContainerReading P S kind t bs o t' := by
  cases kind with
  | list => exact ListReading.mono h hr
  | map => exact MapReading.mono h hr
  | classInstance => exact InstanceReading.mono h hr

theorem ObjectForm.mono (h : R ≤ S) (ho : ObjectForm P R t bs o t') : ObjectForm P S t bs o t' := by
  cases ho with
  | scalar hs => exact .scalar hs
  | container hc hr => exact .container hc (hr.mono h)
  | definition hd hr => exact .definition hd (h _ _ _ _ hr)
  | ref hn ht => exact .ref hn ht

theorem ListReading.restrict (hl : ListReading P R typed t bs o t') :
    ListReading P (R.below bs.length) typed t bs o t' := by
  cases hl with
  | intro hh hb =>
    obtain ⟨code, rest, rfl, -⟩ := hh.lead
    refine .intro hh (hb.restrict ?_)
    simp only [List.length_cons, List.length_append]
    omega
  | unlisted hu hc => exact .unlisted hu hc

theorem MapReading.restrict (hm : MapReading P R typed t bs o t') :
    MapReading P (R.below bs.length) typed t bs o t' := by
  cases hm with
  | intro hh he =>
    cases hh with
    | intro hc ht =>
      refine .intro (.intro hc ht) (he.restrict ?_)
      simp only [List.length_cons, List.length_append]
      omega

theorem DirectHeader.cons {table table' : List RawDefinition} {header : Bytes} {d : RawDefinition}
    (h : DirectHeader P table header d table') : ∃ code rest, header = code :: rest := by
  cases h with
  | number hd =>
    obtain ⟨code, rest, rfl, -⟩ := hd.number_lead
    exact ⟨code, rest, rfl⟩
  | definition => exact ⟨_, _, rfl⟩

theorem InstanceReading.restrict (hi : InstanceReading P R t bs o t') :
    InstanceReading P (R.below bs.length) t bs o t' := by
  cases hi with
  | intro hh hlen hf =>
    obtain ⟨code, rest, rfl⟩ := hh.cons
    refine .intro hh hlen (hf.restrict ?_)
    simp only [List.length_cons, List.length_append]
    omega

theorem ContainerReading.restrict {kind : ContainerKind}
    (hr : ContainerReading P R kind t bs o t') :
    ContainerReading P (R.below bs.length) kind t bs o t' := by
  cases kind with
  | list => exact ListReading.restrict hr
  | map => exact MapReading.restrict hr
  | classInstance => exact InstanceReading.restrict hr

/-- The objects in an object are shorter. -/
theorem ObjectForm.restrict (ho : ObjectForm P R t bs o t') :
    ObjectForm P (R.below bs.length) t bs o t' := by
  cases ho with
  | scalar hs => exact .scalar hs
  | container hc hr => exact .container hc hr.restrict
  | definition hd hr =>
    refine .definition hd ⟨?_, hr⟩
    simp only [List.length_cons, List.length_append]
    omega
  | ref hn ht => exact .ref hn ht

end Grammar

/-! ### What the decoders read -/

/-- The elements of a list and its length. -/
theorem taken_iff {code : UInt8} {values : List Object} : Taken P typed code t bs values t' ↔
    (∃ count body declared, bs = count ++ body ∧ ListLength typed code count declared ∧
      Elements (Reads (decodeObject P)) t declared body values t') ∨
    (typed = false ∧ ¬ ListLead typed code ∧ bs = [] ∧ values = [] ∧ t' = t) := by
  rw [← element_eq]
  constructor
  · intro h
    cases h with
    | @listed count body declared _ _ hl hb =>
      refine .inl ⟨count, body, declared, rfl, hl, ?_⟩
      cases hb with
      | untilEnd hs => exact .untilEnd hs
      | fixed hn hs => exact .fixed (by omega) hs
    | negative hl hn =>
      exact .inl ⟨_, [], _, (List.append_nil _).symm, hl,
        .fixed (Int.toNat_of_nonpos hn.le).symm (.nil t)⟩
    | unlisted hu hc => exact .inr ⟨hu, hc, rfl, rfl, rfl⟩
  · rintro (⟨count, body, declared, rfl, hl, hb⟩ | ⟨hu, hc, rfl, rfl, rfl⟩)
    · cases hb with
      | untilEnd hs => exact .listed hl (.untilEnd hs)
      | @fixed _ _ _ n hn hs =>
        -- a negative length is the length of an empty list
        by_cases hneg : n < 0
        · obtain ⟨rfl, rfl, rfl⟩ := sequence_nil hs (hn.trans (Int.toNat_of_nonpos hneg.le))
          rw [List.append_nil]
          exact .negative hl hneg
        · exact .listed hl (.fixed (by omega) hs)
    · exact .unlisted hu hc

theorem reads_list_iff : Reads (decodeList P typed) t bs o t' ↔
    ListReading P (Reads (decodeObject P)) typed t bs o t' := by
  rw [decodeList_eq, reads_container_iff (listForm_delimited typed)]
  simp only [reads_listForm_iff, taken_iff]
  constructor
  · rintro ⟨t₁, ⟨code, type, rest, typeName, table, values, rfl, ht,
      ⟨count, body, declared, rfl, hl, hb⟩ | ⟨hu, hc, rfl, rfl, rfl⟩, rfl⟩, rfl⟩
    · rw [← List.append_assoc, ← List.cons_append]
      exact .intro (.intro ht hl) hb
    · subst hu
      cases ht
      exact .unlisted rfl hc
  · intro h
    cases h with
    | intro hh hb =>
      cases hh with
      | intro ht hl =>
        exact ⟨_, ⟨_, _, _, _, _, _, by rw [List.cons_append, List.append_assoc], ht,
          .inl ⟨_, _, _, rfl, hl, hb⟩, rfl⟩, rfl⟩
    | unlisted hu hc =>
      subst hu
      exact ⟨_, ⟨_, [], [], none, t.typesRef, [], rfl, .untyped,
        .inr ⟨rfl, hc, rfl, rfl, rfl⟩, rfl⟩, rfl⟩

theorem reads_instanceReading_iff : Reads (decodeClassInstance P (decodeObject P)) t bs o t' ↔
    InstanceReading P (Reads (decodeObject P)) t bs o t' := by
  rw [reads_direct_iff, ← element_eq]
  constructor
  · rintro ⟨hh, hs, hlen⟩
    exact .intro hh hlen hs
  · rintro ⟨hh, hlen, hs⟩
    exact .intro hh ⟨hs, hlen⟩

/-! ### Maps -/

theorem emplace_delimited (slots : List Slot) (key value : Object) :
    Delimited Hostile (Dec.emplace P result slots key value) :=
  (emplace_tame (T := False) (N := 0) result slots key value).delimited

theorem reads_emplace_iff {key value : Object} :
    Reads (Dec.emplace P result slots key value) t bs slots' t' ↔
      bs = [] ∧ Emplacement P result slots key value t slots' t' := by
  constructor
  · intro h
    obtain ⟨c, hrun, hc⟩ := h.ofList
    obtain ⟨hash, static, hk, hcur, ⟨hf, rfl, ht⟩ | ⟨hf, rfl, ht⟩⟩ := emplace_ok hrun
    · rw [show c = Cursor.ofList bs from hcur] at hc
      exact ⟨hc, (show t' = _ from ht) ▸ .stored hk hf⟩
    · rw [show c = Cursor.ofList bs from hcur] at hc
      exact ⟨hc, (show t' = _ from ht) ▸ .dropped hk hf⟩
  · rintro ⟨rfl, h⟩ c rest hu
    rw [Dec.emplace, bind_apply, aux_apply, Outcome.ok_andThen]
    cases h with
    | stored hk hf => simp [hk, hf, Dec.record, bind_apply, modifyAux_apply, Cursor.advance_zero]
    | dropped hk hf => simp [hk, hf, Dec.record, bind_apply, modifyAux_apply, Cursor.advance_zero]

/-- What a turn of the loop does behind a look at the byte: it enters a pair. -/
def readEntry (P : Platform) (result : ObjId) (slots : List Slot) : Dec (List Slot ⊕ List Slot) :=
  decodeObject P >>= fun key => decodeObject P >>= fun value =>
    Dec.emplace P result slots key value >>= fun slots => pure (.inl slots)

theorem entryEnd_delimited (slots : List Slot) (key value : Object) :
    Delimited Hostile (Dec.emplace P result slots key value >>= fun slots =>
      (pure (.inl slots) : Dec (List Slot ⊕ List Slot))) :=
  (emplace_delimited slots key value).bind fun _ => .pure _

theorem reads_entry_iff {r : List Slot ⊕ List Slot} : Reads (readEntry P result slots) t bs r t' ↔
    ∃ ks vs key value t₁ t₂ slots', bs = ks ++ vs ∧ Reads (decodeObject P) t ks key t₁ ∧
      Reads (decodeObject P) t₁ vs value t₂ ∧
      Emplacement P result slots key value t₂ slots' t' ∧ r = .inl slots' := by
  rw [readEntry, reads_bind_iff decodeObject_delimited_hostile fun key =>
    decodeObject_delimited_hostile.bind fun value => entryEnd_delimited slots key value]
  constructor
  · rintro ⟨ks, rest, key, t₁, rfl, hk, h⟩
    obtain ⟨vs, rest, value, t₂, rfl, hv, h⟩ := (reads_bind_iff decodeObject_delimited_hostile
      fun value => entryEnd_delimited slots key value).1 h
    obtain ⟨slots', hslots, rfl⟩ := (reads_map_iff (emplace_delimited slots key value)).1 h
    obtain ⟨rfl, he⟩ := reads_emplace_iff.1 hslots
    exact ⟨ks, vs, key, value, t₁, t₂, slots', by rw [List.append_nil], hk, hv, he, rfl⟩
  · rintro ⟨ks, vs, key, value, t₁, t₂, slots', rfl, hk, hv, he, rfl⟩
    refine ⟨ks, vs, key, t₁, rfl, hk, ?_⟩
    exact hv.bind_nil (Reads.bind_nil (reads_emplace_iff.2 ⟨rfl, he⟩) (reads_pure _ _))

/-- An object does not begin with the terminator. -/
theorem reads_object_cons (h : Reads (decodeObject P) t bs o t') :
    ∃ code rest, bs = code :: rest ∧ code ≠ 0x5a := by
  rw [← element_eq] at h
  have hread := h.2
  rw [decodeObject_eq, reads_ahead_iff] at hread
  obtain ⟨code, rest, rfl, -⟩ := hread
  exact ⟨code, rest, rfl, fun hcode => h.1 (by rw [hcode]; rfl)⟩

/-- A turn of the loop reads the terminator or an entry. -/
theorem reads_entriesStep_iff {r : List Slot ⊕ List Slot} :
    Reads (readEntriesStep P (decodeObject P) result slots) t bs r t' ↔
      (bs = [0x5a] ∧ r = .inr slots ∧ t' = t) ∨ Reads (readEntry P result slots) t bs r t' := by
  rw [readEntriesStep_eq, reads_ahead_iff]
  constructor
  · rintro ⟨code, rest, rfl, h⟩
    split_ifs at h with hcode
    · obtain ⟨b, hb, rfl⟩ := (reads_map_iff (Delimited.next (E := fun _ => False))).1 h
      obtain ⟨hbs, rfl⟩ := reads_next_iff.1 hb
      rw [hcode] at hbs ⊢
      exact .inl ⟨by rw [hbs, ← (List.cons.inj hbs).1], rfl, rfl⟩
    · exact .inr h
  · rintro (⟨rfl, rfl, rfl⟩ | h)
    · refine ⟨0x5a, [], rfl, ?_⟩
      rw [if_pos rfl]
      exact Reads.bind_nil (reads_next _ _) (reads_pure _ _)
    · obtain ⟨ks, vs, key, value, t₁, t₂, slots', rfl, hk, -⟩ := reads_entry_iff.1 h
      -- no key begins with the terminator
      obtain ⟨code, rest, rfl, hcode⟩ := reads_object_cons hk
      refine ⟨code, rest ++ vs, rfl, ?_⟩
      rw [if_neg hcode]
      exact h

theorem readEntriesStep_delimited (slots : List Slot) :
    Delimited Hostile (readEntriesStep P (decodeObject P) result slots) :=
  (readEntriesStep_tame (decodeObject_tame (N := 0)) result slots).delimited

theorem readEntriesStep_progresses : Progresses (readEntriesStep P (decodeObject P) result) :=
  fun slots => (readEntriesStep_tame (decodeObject_tame (N := 0)) result slots).costs.mono fun r => by
    cases r with
    | inl j => exact one_le_loopPrice _
    | inr a => exact Nat.zero_le _

/-- The turns of the loop that go on are entries. -/
theorem turns_entries_iff : Turns (fun slots => Reads (readEntriesStep P (decodeObject P) result slots))
    slots t bs slots' t' ↔ Entries P (Reads (decodeObject P)) result slots t bs slots' t' := by
  constructor
  · intro h
    induction h with
    | nil => exact .nil _ _
    | cons h _ ih =>
      rcases reads_entriesStep_iff.1 h with ⟨-, hr, -⟩ | h
      · cases hr
      · obtain ⟨ks, vs, key, value, t₁, t₂, slots', rfl, hk, hv, he, hr⟩ := reads_entry_iff.1 h
        cases hr
        exact .cons hk hv he ih
  · intro h
    induction h with
    | nil => exact .nil _ _
    | cons hk hv he _ ih =>
      exact .cons (reads_entriesStep_iff.2 (.inr (reads_entry_iff.2
        ⟨_, _, _, _, _, _, _, rfl, hk, hv, he, rfl⟩))) ih

theorem readEntries_delimited (result : ObjId) :
    Delimited Hostile (readEntries P (decodeObject P) result) :=
  (readEntries_tame (decodeObject_tame (N := 0)) result).delimited

theorem reads_entries_iff {entries : List (Object × Object)} :
    Reads (readEntries P (decodeObject P) result) t bs entries t' ↔
      ∃ front slots, bs = front ++ [0x5a] ∧ entries = entriesOf slots ∧
        Entries P (Reads (decodeObject P)) result [] t front slots t' := by
  rw [readEntries, reads_map_iff (Delimited.iter readEntriesStep_delimited
    readEntriesStep_progresses [])]
  simp only [reads_iter_iff readEntriesStep_delimited readEntriesStep_progresses, turns_entries_iff]
  constructor
  · rintro ⟨slots, ⟨front, last, j, t₁, rfl, hs, hlast⟩, rfl⟩
    rcases reads_entriesStep_iff.1 hlast with ⟨rfl, hr, rfl⟩ | h
    · cases hr
      exact ⟨front, slots, rfl, rfl, hs⟩
    · obtain ⟨ks, vs, key, value, t₁, t₂, slots', -, -, -, -, hr⟩ := reads_entry_iff.1 h
      cases hr
  · rintro ⟨front, slots, rfl, rfl, hs⟩
    exact ⟨slots, ⟨front, _, slots, t', rfl, hs, reads_entriesStep_iff.2 (.inl ⟨rfl, rfl, rfl⟩)⟩, rfl⟩

/-- A map, given the address of its object. -/
def mapForm (P : Platform) (typed : Bool) (result : ObjId) : Dec Object :=
  next >>= fun _ => listType P typed >>= fun typeName =>
    readEntries P (decodeObject P) result >>= fun entries => pure (.map result typeName entries)

theorem typedMapForm_eq : typedMapForm P (decodeObject P) = mapForm P true := by
  refine funext fun result => funext fun s => ?_
  simp only [typedMapForm, mapForm, listType, if_true, bind_apply]
  cases (next : Dec UInt8) s with
  | ok code s₁ =>
    simp only [Outcome.ok_andThen, bind_apply]
    cases decodeTypeRef P s₁ <;> rfl
  | _ => rfl

theorem mapEnd_delimited (result : ObjId) (typeName : Option Bytes) :
    Delimited Hostile (readEntries P (decodeObject P) result >>= fun entries =>
      pure (Object.map result typeName entries)) := (readEntries_delimited result).bind fun _ => .pure _

theorem mapForm_delimited (typed : Bool) (result : ObjId) :
    Delimited Hostile (mapForm P typed result) :=
  Delimited.next.bind fun _ => (listType_delimited typed).bind fun typeName =>
    mapEnd_delimited result typeName

theorem reads_mapForm_iff : Reads (mapForm P typed result) t bs o t' ↔
    ∃ code type front typeName table slots, bs = code :: (type ++ (front ++ [0x5a])) ∧
      ListType P t.typesRef typed type typeName table ∧
      Entries P (Reads (decodeObject P)) result [] { t with typesRef := table } front slots t' ∧
      o = .map result typeName (entriesOf slots) := by
  rw [mapForm, reads_form_iff fun _ => (listType_delimited typed).bind fun typeName =>
    mapEnd_delimited result typeName]
  constructor
  · rintro ⟨code, rest, rfl, h⟩
    obtain ⟨type, rest, typeName, t₁, rfl, htype, h⟩ := (reads_bind_iff (listType_delimited typed)
      fun typeName => mapEnd_delimited result typeName).1 h
    obtain ⟨table, ht, rfl⟩ := reads_listType_iff.1 htype
    obtain ⟨entries, hentries, rfl⟩ := (reads_map_iff (readEntries_delimited result)).1 h
    obtain ⟨front, slots, rfl, rfl, he⟩ := reads_entries_iff.1 hentries
    exact ⟨code, type, front, typeName, table, slots, rfl, ht, he, rfl⟩
  · rintro ⟨code, type, front, typeName, table, slots, rfl, ht, he, rfl⟩
    exact ⟨code, _, rfl, Reads.bind (reads_listType_iff.2 ⟨table, ht, rfl⟩)
      (Reads.bind_nil (reads_entries_iff.2 ⟨front, slots, rfl, rfl, he⟩) (reads_pure _ _))⟩

/-- A map behind a lead byte that the assertions let pass. -/
theorem reads_mapContainer_iff (hc : ∀ code ∈ bs.head?, P.ndebug = true ∨ code = mapLead typed) :
    Reads (Dec.container (.map typed) (mapForm P typed)) t bs o t' ↔
      MapReading P (Reads (decodeObject P)) typed t bs o t' := by
  rw [reads_container_iff (mapForm_delimited typed)]
  simp only [reads_mapForm_iff]
  constructor
  · rintro ⟨t₁, ⟨code, type, front, typeName, table, slots, rfl, ht, he, rfl⟩, rfl⟩
    exact .intro (.intro (hc code rfl) ht) he
  · intro h
    cases h with
    | intro hh he =>
      cases hh with
      | intro _ ht => exact ⟨_, ⟨_, _, _, _, _, _, rfl, ht, he, rfl⟩, rfl⟩

/-! ### Containers -/

/-- A container, given the address of its object. -/
def containerForm (P : Platform) : ContainerKind → ObjId → Dec Object
  | .list typed => listForm P typed
  | .map typed => mapForm P typed
  | .classInstance => classInstanceForm P (decodeObject P)

/-- What is announced by the lead bytes of containers. -/
def containerLeads : ContainerKind → Lead
  | .list true => .typedList
  | .list false => .untypedList
  | .map true => .typedMap
  | .map false => .untypedMap
  | .classInstance => .classInstance

theorem leadOf_container_iff (kind : ContainerKind) (code : UInt8) :
    leadOf code = containerLeads kind ↔ ContainerLead kind code := by
  rcases kind with (_ | _) | (_ | _) | _
  all_goals
    simp only [ContainerLead, ListLead, InstanceLead, containerLeads]
    revert code
    exact forall_byte (by decide +kernel)

theorem decodeObjectForm_container {kind : ContainerKind} {code : UInt8}
    (hc : ContainerLead kind code) :
    decodeObjectForm P (decodeObject P) code = Dec.container kind (containerForm P kind) := by
  rw [decodeObjectForm, (leadOf_container_iff kind code).2 hc]
  rcases kind with (_ | _) | (_ | _) | _
  · exact decodeUntypedList_eq.symm.trans (decodeList_eq false)
  · exact decodeTypedList_eq.symm.trans (decodeList_eq true)
  · rfl
  · exact congrArg (Dec.container (.map true)) typedMapForm_eq
  · rfl

theorem reads_containerForm_iff {kind : ContainerKind} {code : UInt8} (hc : ContainerLead kind code) :
    Reads (Dec.container kind (containerForm P kind)) t (code :: bs) o t' ↔
      ContainerReading P (Reads (decodeObject P)) kind t (code :: bs) o t' := by
  cases kind with
  | list typed => exact decodeList_eq (P := P) typed ▸ reads_list_iff
  | map typed => exact reads_mapContainer_iff fun _ h => .inr (Option.some.inj h ▸ hc)
  | classInstance => exact decodeClassInstance_eq (P := P) ▸ reads_instanceReading_iff

/-! ### Objects -/

theorem reads_ref_iff : Reads (refForm P) t bs o t' ↔
    ∃ code count n target, bs = code :: count ∧ IntSentence count n ∧
      t.valuesRef[n.toUInt32.toNat]? = some target ∧ o = .ref target ∧
      t' = { t with events := t.events ++ [.reference target] } := by
  have hrecord (target : ObjId) : Delimited IsLengthError
      (Dec.record (.reference target) >>= fun _ => pure (Object.ref target)) :=
    (Delimited.modifyAux _).bind fun _ => .pure _
  have hlookup (n : Int32) : Delimited IsLengthError
      (Dec.lookup (fun t => t.valuesRef[n.toUInt32.toNat]?) >>= fun target =>
        Dec.record (.reference target) >>= fun _ => pure (Object.ref target)) :=
    (lookup_delimited _).bind hrecord
  rw [refForm, reads_form_iff fun _ => decodeInt32_delimited.bind hlookup]
  constructor
  · rintro ⟨code, rest, rfl, h⟩
    obtain ⟨count, rest, n, t₁, rfl, hint, htail⟩ :=
      (reads_bind_iff decodeInt32_delimited hlookup).1 h
    obtain ⟨rfl, hn⟩ := reads_int32_iff.1 hint
    obtain ⟨front, rest, target, t₂, rfl, hentry, hend⟩ :=
      (reads_bind_iff (lookup_delimited _) hrecord).1 htail
    obtain ⟨rfl, rfl, htarget⟩ := reads_lookup_iff.1 hentry
    obtain ⟨front, rest, u, t₃, rfl, hevent, hpure⟩ := (reads_bind_iff (E := IsLengthError)
      (Delimited.modifyAux _) fun _ => .pure _).1 hend
    obtain ⟨rfl, rfl⟩ := reads_modifyAux_iff.1 hevent
    obtain ⟨rfl, rfl, rfl⟩ := reads_pure_iff.1 hpure
    exact ⟨code, count, n, target, by simp, hn, htarget, rfl, rfl⟩
  · rintro ⟨code, count, n, target, rfl, hn, htarget, rfl, rfl⟩
    refine ⟨code, count, rfl, Reads.bind_nil (reads_int32_iff.2 ⟨rfl, hn⟩) ?_⟩
    exact Reads.bind_nil (reads_lookup_iff.2 ⟨rfl, rfl, htarget⟩)
      (Reads.bind_nil (reads_modifyAux _ _) (reads_pure _ _))

/-- Behind the lead byte of a value without objects in it, the value is read. -/
theorem reads_scalar_iff {α : Type} {m : Dec α} {S : Bytes → α → Prop} {f : α → Object}
    (hm : Dec.Leaf m) (h : ∀ {bs v t t'}, Reads m t bs v t' ↔ t' = t ∧ S bs v) :
    Reads (m >>= fun a => pure (f a)) t bs o t' ↔ t' = t ∧ ∃ v, S bs v ∧ o = f v := by
  rw [reads_map_iff (hm (fun _ => False) False 0).delimited]
  simp only [h]
  constructor
  · rintro ⟨v, ⟨ht, hv⟩, ho⟩
    exact ⟨ht, v, hv, ho⟩
  · rintro ⟨ht, v, hv, ho⟩
    exact ⟨v, ⟨ht, hv⟩, ho⟩

/-- What a lead byte announces is a form of an object. -/
theorem objectForm_of_reads {code : UInt8}
    (h : Reads (decodeObjectForm P (decodeObject P) code) t (code :: bs) o t') :
    ObjectForm P (Reads (decodeObject P)) t (code :: bs) o t' := by
  -- the containers are told apart by their kind only
  have container (kind : ContainerKind) (hl : leadOf code = containerLeads kind) :
      ObjectForm P (Reads (decodeObject P)) t (code :: bs) o t' := by
    have hc := (leadOf_container_iff kind code).1 hl
    rw [decodeObjectForm_container hc] at h
    exact .container hc ((reads_containerForm_iff hc).1 h)
  unfold decodeObjectForm at h
  cases hl : leadOf code <;> simp only [hl] at h
  case typedList => exact container (.list true) hl
  case untypedList => exact container (.list false) hl
  case typedMap => exact container (.map true) hl
  case untypedMap => exact container (.map false) hl
  case classInstance => exact container .classInstance hl
  case null =>
    obtain ⟨b, hb, rfl⟩ := (reads_map_iff (Delimited.next (E := fun _ => False))).1 h
    obtain ⟨hbs, rfl⟩ := reads_next_iff.1 hb
    obtain rfl := (List.cons.inj hbs).2
    exact (leadOf_asserted code).1 hl ▸ .scalar .null
  case bool =>
    obtain ⟨rfl, v, hv, rfl⟩ := (reads_scalar_iff decodeBool_leaf reads_bool_iff).1 h
    exact .scalar (.boolean hv)
  case date =>
    obtain ⟨rfl, v, hv, rfl⟩ := (reads_scalar_iff (readDate_leaf _) reads_date_iff).1 h
    exact .scalar (.date hv)
  case double =>
    obtain ⟨rfl, v, hv, rfl⟩ := (reads_scalar_iff decodeDouble_leaf reads_double_iff).1 h
    exact .scalar (.double hv)
  case definition =>
    obtain ⟨front, rest, d, t₁, hbs, hread, hrest⟩ := (reads_bind_iff
      decodeDefinition_delimited_hostile fun _ => decodeObject_delimited_hostile).1 h
    obtain ⟨table, hd, rfl⟩ := reads_definition_iff.1 hread
    rw [hbs]
    obtain rfl := leadOf_definition code hl
    obtain ⟨definition, rfl⟩ := hd.definition_lead hbs
    exact .definition hd hrest
  case ref =>
    obtain rfl := (leadOf_asserted code).2.2.2 hl
    obtain ⟨code, count, n, target, hbs, hn, htarget, rfl, rfl⟩ := reads_ref_iff.1 h
    cases hbs
    exact .ref hn htarget
  case string =>
    obtain ⟨rfl, v, hv, rfl⟩ := (reads_scalar_iff decodeString_leaf reads_string_iff).1 h
    exact .scalar (.string hv)
  case binary =>
    obtain ⟨rfl, v, hv, rfl⟩ := (reads_scalar_iff decodeBytes_leaf reads_bytes_iff).1 h
    exact .scalar (.binary hv)
  case long =>
    obtain ⟨rfl, v, hv, rfl⟩ := (reads_scalar_iff decodeInt64_leaf reads_int64_iff).1 h
    exact .scalar (.long hv)
  case int =>
    obtain ⟨rfl, v, hv, rfl⟩ := (reads_scalar_iff decodeInt32_leaf reads_int32_iff).1 h
    exact .scalar (.integer hv)
  case unknown => exact absurd h not_reads_fail

/-- A form of an object is what its lead byte announces. -/
theorem reads_of_objectForm (h : ObjectForm P (Reads (decodeObject P)) t bs o t') :
    ∃ code rest, bs = code :: rest ∧ Reads (decodeObjectForm P (decodeObject P) code) t bs o t' := by
  have value {α : Type} {m : Dec α} {S : Bytes → α → Prop} (f : α → Object) {v : α} (hm : Dec.Leaf m)
      (hr : ∀ {bs v t t'}, Reads m t bs v t' ↔ t' = t ∧ S bs v) (hv : S bs v) :
      Reads (m >>= fun a => pure (f a)) t bs (f v) t :=
    (reads_scalar_iff hm hr).2 ⟨rfl, v, hv, rfl⟩
  cases h with
  | scalar hs =>
    cases hs with
    | null => exact ⟨0x4e, [], rfl, Reads.bind_nil (reads_next _ _) (reads_pure _ _)⟩
    | boolean hv =>
      have hread := value Object.boolean decodeBool_leaf (reads_bool_iff (P := P)) hv
      cases hv with
      | false => exact ⟨0x46, [], rfl, hread⟩
      | true => exact ⟨0x54, [], rfl, hread⟩
    | integer hv =>
      obtain ⟨code, rest, rfl, hc⟩ := hv.lead
      refine ⟨code, rest, rfl, ?_⟩
      rw [decodeObjectForm, (leadOf_of_lead code).2.2.2.2.2.2.2 hc]
      exact value Object.integer decodeInt32_leaf reads_int32_iff hv
    | long hv =>
      obtain ⟨code, rest, rfl, hc⟩ := hv.lead
      refine ⟨code, rest, rfl, ?_⟩
      rw [decodeObjectForm, (leadOf_of_lead code).2.2.2.2.2.2.1 hc]
      exact value Object.long decodeInt64_leaf reads_int64_iff hv
    | double hv =>
      obtain ⟨code, rest, rfl, hc⟩ := hv.lead
      refine ⟨code, rest, rfl, ?_⟩
      rw [decodeObjectForm, (leadOf_of_lead code).2.2.1 hc]
      exact value Object.double decodeDouble_leaf reads_double_iff hv
    | date hv =>
      have hread := value Object.date (readDate_leaf _) (reads_date_iff (P := P)) hv
      cases hv with
      | minutes => exact ⟨0x4b, _, rfl, hread⟩
      | milliseconds => exact ⟨0x4a, _, rfl, hread⟩
    | string hv =>
      obtain ⟨code, rest, rfl, hc⟩ := hv.lead
      refine ⟨code, rest, rfl, ?_⟩
      rw [decodeObjectForm, (leadOf_of_lead code).2.2.2.2.1 hc]
      exact value Object.string decodeString_leaf reads_string_iff hv
    | binary hv =>
      obtain ⟨code, rest, rfl, hc⟩ := hv.lead
      refine ⟨code, rest, rfl, ?_⟩
      rw [decodeObjectForm, (leadOf_of_lead code).2.2.2.2.2.1 hc]
      exact value Object.binary decodeBytes_leaf reads_bytes_iff hv
  | @container kind code rest _ _ hc hr =>
    refine ⟨code, rest, rfl, ?_⟩
    rw [decodeObjectForm_container hc]
    exact (reads_containerForm_iff hc).2 hr
  | definition hd hr =>
    refine ⟨0x43, _, rfl, ?_⟩
    rw [decodeObjectForm_definition]
    exact (reads_definition_iff.2 ⟨_, hd, rfl⟩).bind hr
  | ref hn ht => exact ⟨0x51, _, rfl, reads_ref_iff.2 ⟨_, _, _, _, rfl, hn, ht, rfl, rfl⟩⟩

/-- The grammar of objects. -/
def objectGrammar (P : Platform) : Grammar UInt8 Tables Object where
  form R t bs o t' := ObjectForm P R t bs o t'
  mono _ _ h _ _ _ _ ho := ho.mono h
  shorter ho := ho.restrict

/-- The bytes of an object. -/
def ObjectSentence (P : Platform) : Reading UInt8 Tables Object := (objectGrammar P).Sentence

/-- **`decode<Object>` reads exactly the sentences of the grammar.** -/
theorem reads_object_eq : Reads (decodeObject P) = ObjectSentence P := by
  refine Grammar.eq_sentence (funext fun t => funext fun bs => funext fun o => funext fun t' =>
    propext ⟨fun h => ?_, fun h => ?_⟩)
  · obtain ⟨code, rest, rfl, hr⟩ := reads_of_objectForm h
    rw [decodeObject_eq]
    exact hr.ahead
  · rw [decodeObject_eq, reads_ahead_iff] at h
    obtain ⟨code, rest, rfl, hr⟩ := h
    exact objectForm_of_reads hr

end Hessian2
