import Hessian2.Conversation
import Hessian2.Travel

/-!
# Containers without objects

`codec.cc`: the functions with which a caller writes a list or a map piece by piece.

* `encodeVarListBegin`, `encodeFixedListBegin`, `encodeMapBegin`, `encodeClassInstanceBegin` and
  their ends.
* `Stream` : a container that is written this way, with its calls and the object it stands for.
* `Streams` : what is written is read as this object.
* `streams_iff` : **this is so exactly for typed lists of fixed length, untyped lists of variable
  length, and maps.**
-/

namespace Hessian2

open Parsing Parsing.Parser Enc

section Encode

variable (P : Platform)

/-- `encodeVarListBegin`, which does not look at the type. -/
def encodeVarListBegin (_type : Bytes) : Enc Unit := writeByte 0x57

/-- `encodeVarListEnd`. -/
def encodeVarListEnd : Enc Unit := writeByte 0x5a

/-- A type, unless it is empty. -/
def encodeNonEmptyType (type : Bytes) : Enc Unit :=
  if type = [] then pure () else encodeTypeRef P type >>= fun _ => pure ()

/-- `encodeFixedListBegin`. -/
def encodeFixedListBegin (type : Bytes) (len : UInt32) : Enc Unit := do
  writeByte (if len.toNat ≤ 7 then 0x70 + len.toNat else 0x56)
  encodeNonEmptyType P type
  encodeLength len.toNat

/-- `encodeFixedListEnd`. -/
def encodeFixedListEnd : Enc Unit := pure ()

/-- `encodeMapBegin`. -/
def encodeMapBegin (type : Bytes) : Enc Unit :=
  if type = [] then writeByte 0x48
  else do
    writeByte 0x4d
    let _ ← encodeTypeRef P type
    pure ()

/-- `encodeMapEnd`. -/
def encodeMapEnd : Enc Unit := writeByte 0x5a

/-- `encodeClassInstanceBegin`. -/
def encodeClassInstanceBegin (value : RawDefinition) : Enc Unit :=
  encodeRawDefinition P value >>= fun _ => pure ()

/-- `encodeClassInstanceEnd`. -/
def encodeClassInstanceEnd : Enc Unit := pure ()

end Encode

/-! ### Streams -/

/-- A container whose type and contents are written one after the other. -/
inductive Stream where
  | fixedList (type : Bytes) (values : List Object)
  | varList (type : Bytes) (values : List Object)
  | map (type : Bytes) (entries : List (Object × Object))

namespace Stream

/-- The calls. -/
def encode (P : Platform) : Stream → Enc Unit
  | fixedList type values => do
    encodeFixedListBegin P type (.ofNat values.length)
    encodeValues P values
    encodeFixedListEnd
  | varList type values => do
    encodeVarListBegin type
    encodeValues P values
    encodeVarListEnd
  | map type entries => do
    encodeMapBegin P type
    encodeEntries P entries
    encodeMapEnd

/-- An empty type stands for none. -/
def typeName? (type : Bytes) : Option Bytes := if type = [] then none else some type

/-- The object that the stream stands for, at some address. -/
def object : Stream → Object
  | fixedList type values => .list 0 (typeName? type) values
  | varList type values => .list 0 (typeName? type) values
  | map type entries => .map 0 (typeName? type) entries

/-- The functions for a container of this kind can express its type. -/
def Expressible : Stream → Prop
  | fixedList type _ => type ≠ []
  | varList type _ => type = []
  | map _ _ => True

instance : DecidablePred Expressible := fun s => by
  cases s <;> unfold Expressible <;> infer_instance

end Stream

/-- What is written for the stream is read as the object it stands for, and nothing is left over. -/
def Streams (P : Platform) (s : Stream) (e : Encoder) (t : Tables) : Prop :=
  ∃ e' bs value t', s.encode P e = .ok ((), e') ∧ e'.output = e.output ++ bs ∧
    Reads (decodeObject P) t bs value t' ∧ value = s.object.relocate id t.heap.length

/-- The decoder has the names of the ledger, and no fewer containers. -/
structure Ledger.Follows (L : Ledger) (t : Tables) : Prop where
  types : t.typesRef = L.types.keys
  defs : t.defRef = L.defs.keys
  values : t.valuesRef = List.range t.heap.length
  size : L.values.size ≤ t.heap.length

/-- The contents of the stream can be sent: its strings are sent unaltered, its dates and doubles
arrive as they are, no two keys of a map are equal, there are no references, and the numbers of
types and definitions fit. -/
structure Stream.Portable (P : Platform) (L : Ledger) (s : Stream) : Prop where
  parts : ∀ x ∈ s.object.walk, x.Portable P ∧ x.Lossless ∧ x.KeysDistinct
  refs : s.object.refs = []
  types : (L.notes s.object.walk).types.size ≤ 2 ^ 15
  defs : (L.notes s.object.walk).defs.size ≤ 2 ^ 15

variable {P : Platform} {s : Stream} {L : Ledger} {e : Encoder} {t : Tables}

/-! ### What can be expressed -/

/-- The ledger behind the type of a stream: a stream has no number. -/
def Ledger.noteType (L : Ledger) (x : Object) : Ledger :=
  ⟨L.types.enterAll x.typeName?.toList, L.defs, L.values⟩

namespace Stream

/-- What the container of the stream owns. -/
def elements : Stream → List Object
  | fixedList _ values | varList _ values => values.flatMap Object.walk
  | map _ entries => entries.flatMap fun e => e.1.walk ++ e.2.walk

theorem walk_object (s : Stream) : s.object.walk = s.object :: s.elements := by
  cases s with
  | fixedList type values => exact Object.walk_list _ _ _
  | varList type values => exact Object.walk_list _ _ _
  | map type entries => exact Object.walk_map _ _ _

/-- What the elements own are elements. -/
theorem mem_elements {s : Stream} {x y : Object} (hx : x ∈ s.elements) (hy : y ∈ x.walk) :
    y ∈ s.elements := by
  cases s with
  | map type es =>
    obtain ⟨e, he, hx⟩ := List.mem_flatMap.1 hx
    refine List.mem_flatMap.2 ⟨e, he, List.mem_append.2 ?_⟩
    exact (List.mem_append.1 hx).imp (fun hx => e.1.walk_subset x hx y hy)
      fun hx => e.2.walk_subset x hx y hy
  | fixedList type vs =>
    obtain ⟨v, hv, hx⟩ := List.mem_flatMap.1 hx
    exact List.mem_flatMap.2 ⟨v, hv, v.walk_subset x hx y hy⟩
  | varList type vs =>
    obtain ⟨v, hv, hx⟩ := List.mem_flatMap.1 hx
    exact List.mem_flatMap.2 ⟨v, hv, v.walk_subset x hx y hy⟩

theorem definition?_object (s : Stream) : s.object.definition? = none := by cases s <;> rfl

/-- The names are numbered as for the object. -/
theorem notes_noteType (s : Stream) (L : Ledger) :
    ((L.noteType s.object).notes s.elements).types = (L.notes s.object.walk).types ∧
      ((L.noteType s.object).notes s.elements).defs = (L.notes s.object.walk).defs := by
  rw [walk_object, Ledger.notes_cons, Ledger.notes_eq, Ledger.notes_eq, Ledger.note,
    definition?_object]
  exact ⟨rfl, rfl⟩

/-- The journey of the contents of a stream. -/
def Portable.journey (h : s.Portable P L) : Journey where
  final := (L.noteType s.object).notes s.elements
  distinct := True
  settled := False
  direct := True
  types := (s.notes_noteType L).1 ▸ h.types
  defs := (s.notes_noteType L).2 ▸ h.defs
  distinct_of_hashed _ := trivial

theorem Portable.departs (h : s.Portable P L) :
    Departs P h.journey (L.noteType s.object) [] s.elements := by
  have hwalk : ∀ x ∈ s.elements, x ∈ s.object.walk := fun x hx => by
    rw [walk_object]
    exact List.mem_cons_of_mem _ hx
  have htarget : ∀ x ∈ s.object.walk, x.target? = none := List.filterMap_eq_nil_iff.1 h.refs
  refine .of_target?_eq_none not_false (.refl _) (fun x hx => ?_) (fun x hx => htarget x (hwalk x hx))
    fun x hx y hy => s.mem_elements hx hy
  exact ⟨(h.parts x (hwalk x hx)).1, (h.parts x (hwalk x hx)).2.2⟩

theorem Portable.fits (h : s.Portable P L) : (L.noteType s.object).types.size ≤ 2 ^ 15 :=
  (Ledger.prefix_notes _ s.elements).types.length_le.trans h.journey.types

theorem object_typed {type : Bytes} (h : type ≠ []) (vs : List Object)
    (es : List (Object × Object)) :
    (fixedList type vs).object = .typedList 0 type vs ∧ (map type es).object = .typedMap 0 type es := by
  rw [object, object, typeName?, if_neg h]
  exact ⟨rfl, rfl⟩

end Stream

theorem Ledger.Follows.mirrors {J : Journey} (h : L.Follows t) (hs : ¬ J.settled) :
    Mirrors P J L [] t where
  types := h.types
  defs := h.defs
  values := h.values
  size := h.size
  exact hs' := absurd hs' hs
  cells hs' := absurd hs' hs

/-- What lands as the contents of a container is read as the object. -/
theorem streams_of_lands (he : L.Describes e) (h : s.Portable P L) {kind : ContainerKind}
    {body : ObjId → Dec Object} {contents : Object} {L' : Ledger} {c : UInt8} {cs : Bytes}
    {t' : Tables} {n : ℕ}
    (hland : Lands P h.journey (s.encode P) () (body t.heap.length) contents L L' [] (c :: cs)
      (t.started kind) t' n)
    (hcode : decodeObjectForm P (decodeObject P) c = Dec.container kind body)
    (hself : contents.self? = some t.heap.length)
    (hcontents : contents = s.object.received.relocate h.journey.final.number t.heap.length) :
    Streams P s e t := by
  have hbusy : h.journey.settled → ∀ j ∈ ([] : List ObjId), j ∉ ([] : List ObjId) →
      L'.number j = t.heap.length := fun hs => hs.elim
  obtain ⟨t'', hreads, -, -⟩ := container_reads hland.reads hland.mirrors hland.length hself hbusy
  have hemits := hland.emits e.output e.refused e.unnumbered
  rw [← he.eq_encoder] at hemits
  refine ⟨_, c :: cs, contents, t'', hemits, rfl, ?_, ?_⟩
  · rw [← hcode] at hreads
    exact (object_reads hreads).reads fun fault hfault => hfault.2 (.inr trivial)
  · rw [hcontents, Object.received_eq_self fun x hx => (h.parts x hx).2.1]
    refine Object.relocate_congr fun i hi => ?_
    rw [h.refs] at hi
    exact absurd hi List.not_mem_nil

theorem fixedList_streams {type : Bytes} {vs : List Object} (he : L.Describes e) (ht : L.Follows t)
    (h : (Stream.fixedList type vs).Portable P L) (htype : type ≠ []) :
    Streams P (.fixedList type vs) e t := by
  have hname := (Stream.object_typed htype vs []).1
  have hd := h.departs
  have hfits := h.fits
  have hportable := (h.parts _ (Object.mem_walk_self _)).1
  rw [hname] at hd hfits hportable
  obtain ⟨hsent, hlen⟩ := hportable
  have hm := (ht.mirrors (P := P) (J := h.journey) not_false).create not_false (.list true)
  obtain ⟨c, cs, htypeRef⟩ := typeRef_lands hm (hsent type rfl).carries hfits
  obtain ⟨bs, values, t', hvs, hvalues⟩ :=
    values_land (fun v _ => encodeObject_travels v) hd htypeRef.mirrors
  obtain ⟨ls, hbody, -⟩ := listValues_land hlen (hvs.returns ())
  -- the calls together are read as the lead byte announces
  have hform : Lands P h.journey (writeByte (if vs.length ≤ 7 then 0x70 + vs.length else 0x56) >>=
      fun _ => encodeTypeRef P type >>= fun _ => encodeLength vs.length >>= fun _ =>
        encodeValues P vs >>= fun _ => pure ()) () (typedListForm P (decodeObject P) t.heap.length)
      (.typedList t.heap.length type values) L _ [] _ (t.started (.list true)) t' _ :=
    (Lands.lead _ hm).behind (htypeRef.behind (hbody.map (Object.typedList t.heap.length type)))
  have hcalls : (Stream.fixedList type vs).encode P = writeByte (if vs.length ≤ 7 then
      0x70 + vs.length else 0x56) >>= fun _ => encodeTypeRef P type >>= fun _ =>
        encodeLength vs.length >>= fun _ => encodeValues P vs >>= fun _ => pure () := by
    -- `len` is a `uint32_t`
    have hcount : (UInt32.ofNat vs.length).toNat = vs.length := by
      rw [UInt32.toNat_ofNat']
      omega
    simp only [Stream.encode, encodeFixedListBegin, encodeFixedListEnd, encodeNonEmptyType,
      if_neg htype, hcount, bind_assoc, pure_bind]
  rw [← hcalls] at hform
  refine streams_of_lands (c := listLead 0x70 0x56 vs.length) he h hform ?_ rfl ?_
  · rw [decodeObjectForm, (leadOf_listLead vs.length).1]
  · rw [hvalues trivial, hname, Object.received_list, Object.relocate, ← Tables.length_heap_started]

/-- The elements of a list travel one after the other, up to the terminator. -/
theorem valuesUntilEnd_land {J : Journey} {busy : List ObjId} {vs : List Object}
    (ih : ∀ v ∈ vs, Travels P J v) : ∀ ⦃L t⦄ (before : List Object),
    Departs P J L busy (vs.flatMap Object.walk) → Mirrors P J L busy t → ∃ bs values t',
      Lands P J (encodeValues P vs >>= fun _ => writeByte 0x5a) ()
        (iter (readObjectUntilEndStep P (decodeObject P)) before) (before ++ values) L
        (L.notes (vs.flatMap Object.walk)) busy bs t t' (vs.flatMap Object.containers).length ∧
      (J.distinct → values =
        Object.relocateValues J.final.number t.heap.length (vs.map Object.received)) := by
  induction vs with
  | nil =>
    intro L t before _ hm
    refine ⟨[0x5a], [], t, ⟨Emits.bind (.pure () L) (.rawWrite _ L), ?_, hm, rfl⟩, fun _ => rfl⟩
    have hstep : Reads (readObjectUntilEndStep P (decodeObject P) before) t [0x5a] (.inr before) t := by
      rw [readObjectUntilEndStep_eq]
      exact .ahead ((reads_next _ t).bind_nil (reads_pure _ t))
    rw [readObjectUntilEnd_loop, List.append_nil]
    exact (hstep.bind_nil (reads_pure before t)).upTo
  | cons v vs ihvs =>
    intro L t before hd hm
    rw [List.forall_mem_cons] at ih
    rw [List.flatMap_cons] at hd
    obtain ⟨c, cs, value, t₁, hc, hv, hvalue⟩ := ih.1 hd.append_left hm
    obtain ⟨bs, values, t', hvs, hvalues⟩ := ihvs ih.2 (before ++ [value]) hd.append_right hv.mirrors
    have hstep : ReadsUpTo J.Excuses (readObjectUntilEndStep P (decodeObject P) before) t (c :: cs)
        (.inl (before ++ [value])) t₁ := by
      rw [readObjectUntilEndStep_eq]
      refine .ahead ?_
      rw [if_neg hc]
      exact hv.reads.bind_nil (reads_pure _ t₁).upTo
    rw [List.append_assoc] at hvs
    refine ⟨(c :: cs) ++ bs, value :: values, t', ⟨?_, ?_, ?_, ?_⟩, fun h => ?_⟩
    · rw [encodeValues, bind_assoc, List.flatMap_cons, Ledger.notes_append]
      exact hv.emits.bind hvs.emits
    · rw [readObjectUntilEnd_loop]
      exact hstep.bind hvs.reads
    · rw [List.flatMap_cons, Ledger.notes_append]
      exact hvs.mirrors
    · rw [hvs.length, hv.length, List.flatMap_cons, List.length_append, Nat.add_assoc]
    · rw [hvalue h, hvalues h, hv.length, List.map_cons, Object.relocateValues,
        Object.containers_received]

theorem varList_streams {vs : List Object} (he : L.Describes e) (ht : L.Follows t)
    (h : (Stream.varList [] vs).Portable P L) : Streams P (.varList [] vs) e t := by
  have hm := (ht.mirrors (P := P) (J := h.journey) not_false).create not_false (.list false)
  obtain ⟨bs, values, t', hvs, hvalues⟩ :=
    valuesUntilEnd_land (fun v _ => encodeObject_travels v) [] h.departs hm
  have hform : Lands P h.journey ((Stream.varList [] vs).encode P) ()
      (untypedListForm P (decodeObject P) t.heap.length) (.untypedList t.heap.length values) L _ [] _
      (t.started (.list false)) t' _ :=
    (Lands.lead 0x57 hm).behind (hvs.map (Object.untypedList t.heap.length))
  refine streams_of_lands (c := 0x57) he h hform rfl rfl ?_
  rw [hvalues trivial, Tables.length_heap_started]
  exact (congrArg (Object.relocate _ _) (Object.received_list 0 none vs)).symm

theorem map_streams {type : Bytes} {es : List (Object × Object)} (he : L.Describes e)
    (ht : L.Follows t) (h : (Stream.map type es).Portable P L) : Streams P (.map type es) e t := by
  have hdistinct := (h.parts _ (Object.mem_walk_self _)).2.2
  have hdirect : ∀ e ∈ es, e.1.target? = none := by
    intro e he
    refine List.filterMap_eq_nil_iff.1 h.refs _ ?_
    rw [Stream.walk_object, List.mem_cons]
    exact .inr (List.mem_flatMap.2 ⟨e, he, List.mem_append_left _ e.1.mem_walk_self⟩)
  -- the entries, behind the type or not
  have hentries {t₁ : Tables} (hm : Mirrors P h.journey (L.noteType (Stream.map type es).object) [] t₁) :
      ∃ bs entries t', Lands P h.journey (encodeEntries P es >>= fun _ => writeByte 0x5a) ()
          (readEntries P (decodeObject P) t.heap.length) entries
          (L.noteType (Stream.map type es).object) h.journey.final [] bs t₁ t'
          (es.flatMap fun e => e.1.containers ++ e.2.containers).length ∧
        entries = Object.relocateEntries h.journey.final.number t₁.heap.length
          (es.map fun e => (e.1.received, e.2.received)) := by
    obtain ⟨bs, slots, t', hes, hslots⟩ := entries_land () t.heap.length
      (fun e _ => ⟨encodeObject_travels e.1, encodeObject_travels e.2⟩) h.departs hm
      (fun _ => hdistinct) (fun hs => hs.elim) (fun _ => hdirect)
      fun _ s hs => absurd hs List.not_mem_nil
    rw [bind_pure_unit] at hes
    exact ⟨bs, entriesOf slots, t', hes.map entriesOf, hslots trivial⟩
  by_cases htype : type = []
  · subst htype
    have hm := (ht.mirrors (P := P) (J := h.journey) not_false).create not_false (.map false)
    obtain ⟨bs, entries, t', hes, rfl⟩ := hentries hm
    have hform : Lands P h.journey ((Stream.map [] es).encode P) ()
        (untypedMapForm P (decodeObject P) t.heap.length) (.untypedMap t.heap.length _) L _ [] _
        (t.started (.map false)) t' _ :=
      (Lands.lead 0x48 hm).behind (hes.map (Object.untypedMap t.heap.length))
    refine streams_of_lands (c := 0x48) he h hform rfl rfl ?_
    rw [Tables.length_heap_started]
    exact (congrArg (Object.relocate _ _) (Object.received_map 0 none es)).symm
  · have hname := (Stream.object_typed htype [] es).2
    have hfits := h.fits
    have hportable := (h.parts _ (Object.mem_walk_self _)).1
    rw [hname] at hfits hportable hentries
    have hm := (ht.mirrors (P := P) (J := h.journey) not_false).create not_false (.map true)
    obtain ⟨c, cs, htypeRef⟩ := typeRef_lands hm (hportable type rfl).carries hfits
    obtain ⟨bs, entries, t', hes, rfl⟩ := hentries htypeRef.mirrors
    have hform : Lands P h.journey (writeByte 0x4d >>= fun _ => encodeTypeRef P type >>= fun _ =>
        encodeEntries P es >>= fun _ => writeByte 0x5a) ()
        (typedMapForm P (decodeObject P) t.heap.length) (.typedMap t.heap.length type _) L _ [] _
        (t.started (.map true)) t' _ :=
      (Lands.lead 0x4d hm).behind (htypeRef.behind (hes.map (Object.typedMap t.heap.length type)))
    have hcalls : (Stream.map type es).encode P = writeByte 0x4d >>= fun _ =>
        encodeTypeRef P type >>= fun _ => encodeEntries P es >>= fun _ => writeByte 0x5a := by
      simp only [Stream.encode, encodeMapBegin, encodeMapEnd, if_neg htype, bind_assoc, pure_bind]
    rw [← hcalls] at hform
    refine streams_of_lands (c := 0x4d) he h hform rfl rfl ?_
    rw [hname, Object.received_map, Object.relocate, ← Tables.length_heap_started]

/-! ### What cannot -/

/-- The first byte that is written stands first in the output. -/
theorem output_of_writeByte {α : Type} {z : ℤ} {rest : Enc α} (h : Keeps (Encoder.Grows P) rest)
    {a : α} {e' : Encoder} {bs : Bytes} (hr : (writeByte z >>= fun _ => rest) e = .ok (a, e'))
    (hout : e'.output = e.output ++ bs) : ∃ cs, bs = byteOf z :: cs := by
  rw [writeByte_bind] at hr
  obtain ⟨cs, hcs⟩ := (h hr).output
  rw [Encoder.write_output, hout, List.append_assoc, List.append_cancel_left_eq] at hcs
  exact ⟨cs, hcs.symm⟩

theorem container_ok {kind : ContainerKind} {body : ObjId → Dec Object} {v : Object}
    {c c' : State UInt8 Tables} (h : Dec.container kind body c = .ok v c') :
    ∃ result c₁ c₂, body result c₁ = .ok v c₂ := by
  rw [Dec.container, Dec.owning, onFail_eq_iff (by simp)] at h
  obtain ⟨result, c₁, -, h⟩ := bind_eq_ok.1 h
  obtain ⟨contents, c₂, hbody, h⟩ := bind_eq_ok.1 h
  cases h
  exact ⟨result, c₁, c₂, hbody⟩

/-- The lead byte of a list tells whether the list has a type. -/
theorem typeName?_of_lead {c : UInt8} {cs : Bytes} {v : Object} {c' : State UInt8 Tables}
    (h : decodeObject P ⟨.ofList (c :: cs), t⟩ = .ok v c') :
    (leadOf c = .typedList → v.typeName? ≠ none) ∧ (leadOf c = .untypedList → v.typeName? = none) := by
  rw [decodeObject_eq, ahead_of_cons (Cursor.unread_ofList _), decodeObjectForm] at h
  constructor
  · intro hlead
    rw [hlead] at h
    obtain ⟨result, c₁, c₂, h⟩ := container_ok h
    obtain ⟨_, _, -, h⟩ := bind_eq_ok.1 h
    obtain ⟨type, _, -, h⟩ := bind_eq_ok.1 h
    obtain ⟨values, _, -, h⟩ := bind_eq_ok.1 h
    cases h
    exact Option.some_ne_none type
  · intro hlead
    rw [hlead] at h
    obtain ⟨result, c₁, c₂, h⟩ := container_ok h
    obtain ⟨_, _, -, h⟩ := bind_eq_ok.1 h
    obtain ⟨values, _, -, h⟩ := bind_eq_ok.1 h
    cases h
    rfl

theorem Object.typeName?_relocate (f : ObjId → ObjId) (n : ObjId) (o : Object) :
    (o.relocate f n).typeName? = o.typeName? := by cases o <;> rfl

/-- What is written is read as a list with or without a type, as its lead byte says. -/
theorem Streams.typeName? (h : Streams P s e t) {z : ℤ} {rest : Enc Unit}
    (hcalls : s.encode P = writeByte z >>= fun _ => rest) (hrest : Keeps (Encoder.Grows P) rest) :
    (leadOf (byteOf z) = .typedList → s.object.typeName? ≠ none) ∧
      (leadOf (byteOf z) = .untypedList → s.object.typeName? = none) := by
  obtain ⟨e', bs, value, t', hencode, hout, hreads, rfl⟩ := h
  rw [hcalls] at hencode
  obtain ⟨cs, rfl⟩ := output_of_writeByte hrest hencode hout
  have hrun := hreads (.ofList (byteOf z :: cs)) [] (List.append_nil _).symm
  have hname := typeName?_of_lead hrun
  rwa [Object.typeName?_relocate] at hname

/-- A list of fixed length is announced as a typed one. -/
theorem Streams.fixedList {type : Bytes} {vs : List Object} (h : Streams P (.fixedList type vs) e t) :
    type ≠ [] := by
  rintro rfl
  have hclosed := Encoder.grows_closed (P := P)
  have hvs : Keeps (Encoder.Grows P) (encodeValues P vs) :=
    encodeValues_keeps hclosed fun v _ => encodeObject_keeps hclosed v
  have hcalls : (Stream.fixedList [] vs).encode P = writeByte (if (UInt32.ofNat vs.length).toNat ≤ 7
      then 0x70 + (UInt32.ofNat vs.length).toNat else 0x56) >>= fun _ =>
        encodeLength (UInt32.ofNat vs.length).toNat >>= fun _ => encodeValues P vs := by
    simp only [Stream.encode, encodeFixedListBegin, encodeFixedListEnd, encodeNonEmptyType, if_true,
      bind_assoc, pure_bind, bind_pure_unit]
  have hname := h.typeName? hcalls (hclosed.bind (encodeLength_keeps hclosed _) fun _ => hvs)
  exact hname.1 (leadOf_listLead _).1 rfl

/-- A list of variable length is announced as an untyped one. -/
theorem Streams.varList {type : Bytes} {vs : List Object} (h : Streams P (.varList type vs) e t) :
    type = [] := by
  have hclosed := Encoder.grows_closed (P := P)
  have hvs : Keeps (Encoder.Grows P) (encodeValues P vs) :=
    encodeValues_keeps hclosed fun v _ => encodeObject_keeps hclosed v
  have hname := (h.typeName? rfl (hclosed.bind hvs fun _ => hclosed.rawWrite _)).2 rfl
  by_contra htype
  rw [Stream.object, Stream.typeName?, if_neg htype] at hname
  cases hname

/-- **Which containers the streaming functions can write**: what they write for a container with
contents that can be sent is read as this container, with the type it was given, exactly if it is a
list of fixed length with a type, a list of variable length without one, or a map. -/
theorem streams_iff (P : Platform) (s : Stream) (L : Ledger) (e : Encoder) (t : Tables)
    (he : L.Describes e) (ht : L.Follows t) (h : s.Portable P L) :
    Streams P s e t ↔ s.Expressible := by
  cases s with
  | fixedList type vs => exact ⟨Streams.fixedList, fixedList_streams he ht h⟩
  | varList type vs =>
    refine ⟨Streams.varList, fun htype => ?_⟩
    obtain rfl : type = [] := htype
    exact varList_streams he ht h
  | map type es => exact ⟨fun _ => trivial, fun _ => map_streams he ht h⟩

/-- A typed list of one `null`. -/
theorem streams_typed_null :
    Streams .simple (.fixedList [0x61] [.null]) .empty .empty ↔
      (Stream.fixedList [0x61] [.null]).Expressible := by
  refine streams_iff .simple _ .empty .empty .empty Ledger.describes_empty
    ⟨rfl, rfl, rfl, Nat.le_refl 0⟩ ⟨?_, rfl, by decide, by decide⟩
  have htype : Intact .simple [0x61] :=
    .of_characters rfl (Words.split_iff_scan.2 ⟨[0x61], rfl, rfl⟩) (by decide)
  have hwalk : (Stream.fixedList [0x61] [.null]).object.walk =
      [.typedList 0 [0x61] [.null], .null] := rfl
  rw [hwalk, List.forall_mem_cons, List.forall_mem_singleton]
  exact ⟨⟨⟨fun s hs => Option.some.inj hs ▸ htype, by decide⟩, trivial, trivial⟩,
    trivial, trivial, trivial⟩

/-- A list of fixed length without a type, and one of variable length with a type. -/
theorem streams_not : ¬ Streams .simple (.fixedList [] [.null]) .empty .empty ∧
    ¬ Streams .simple (.varList [0x61] [.null]) .empty .empty :=
  ⟨fun h => h.fixedList rfl, fun h => List.cons_ne_nil _ _ h.varList⟩

end Hessian2
