import Hessian2.Journey
import Hessian2.Progress
import Mathlib.Tactic.IntervalCases

/-!
# Objects are read as they were sent

What `encode<Object>` writes is read by `decode<Object>` as a copy of the object, and takes both
sides to the same tables.

* `Lands` : what one function writes is read by another one.
* `Travels` : an object that is read as a copy of itself.
* `untypedList_travels`, `typedList_travels`, `untypedMap_travels`, `typedMap_travels`,
  `classInstance_travels` : the containers, given their contents.
* `encodeObject_travels` : **every object travels.**
-/

namespace Hessian2

open Parsing Parsing.Parser Enc

/-- What `encode` writes from the ledger `L` on is read by `decode`, which creates `n`
containers. -/
structure Lands {α β : Type} (P : Platform) (J : Journey) (encode : Enc α) (a : α) (decode : Dec β)
    (b : β) (L L' : Ledger) (busy : List ObjId) (bs : Bytes) (t t' : Tables) (n : ℕ) : Prop where
  emits : Emits encode L a bs L'
  reads : ReadsUpTo J.Excuses decode t bs b t'
  mirrors : Mirrors P J L' busy t'
  length : t'.heap.length = t.heap.length + n

/-- The object is read as a copy of itself whenever it can be sent. -/
def Travels (P : Platform) (J : Journey) (o : Object) : Prop :=
  ∀ ⦃L busy t⦄, Departs P J L busy o.walk → Mirrors P J L busy t → ∃ c cs value t', c ≠ 0x5a ∧
    Lands P J (encodeObject P o) true (decodeObject P) value L (L.notes o.walk) busy (c :: cs) t t'
      o.containers.length ∧
    (J.distinct → value = o.received.relocate J.final.number t.heap.length)

variable {P : Platform} {J : Journey} {L : Ledger} {busy : List ObjId} {t : Tables}

namespace Lands

variable {α β γ δ : Type} {encode : Enc α} {decode : Dec β} {a : α} {b : β} {L₁ L₂ : Ledger}
  {bs cs : Bytes} {t₁ t₂ : Tables} {m n : ℕ}

theorem bind {f : α → Enc γ} {g : β → Dec δ} {c : γ} {d : δ}
    (h : Lands P J encode a decode b L L₁ busy bs t t₁ m)
    (h' : Lands P J (f a) c (g b) d L₁ L₂ busy cs t₁ t₂ n) :
    Lands P J (encode >>= f) c (decode >>= g) d L L₂ busy (bs ++ cs) t t₂ (m + n) where
  emits := h.emits.bind h'.emits
  reads := h.reads.bind h'.reads
  mirrors := h'.mirrors
  length := by rw [h'.length, h.length, Nat.add_assoc]

/-- What comes first is no container. -/
theorem behind {f : α → Enc γ} {g : β → Dec δ} {c : γ} {d : δ}
    (h : Lands P J encode a decode b L L₁ busy bs t t₁ 0)
    (h' : Lands P J (f a) c (g b) d L₁ L₂ busy cs t₁ t₂ n) :
    Lands P J (encode >>= f) c (decode >>= g) d L L₂ busy (bs ++ cs) t t₂ n :=
  Nat.zero_add n ▸ h.bind h'

/-- Something is made of the value. -/
theorem map (f : β → δ) (h : Lands P J encode a decode b L L₁ busy bs t t₁ n) :
    Lands P J encode a (decode >>= fun b => pure (f b)) (f b) L L₁ busy bs t t₁ n :=
  { h with reads := h.reads.bind_nil (reads_pure (f b) t₁).upTo }

theorem returns (c : γ) (h : Lands P J encode a decode b L L₁ busy bs t t₁ n) :
    Lands P J (encode >>= fun _ => pure c) c decode b L L₁ busy bs t t₁ n :=
  { h with emits := h.emits.bind_nil (.pure c L₁) }

theorem lead (z : ℤ) (hm : Mirrors P J L busy t) :
    Lands P J (writeByte z) () next (byteOf z) L L busy [byteOf z] t t 0 where
  emits := .rawWrite _ L
  reads := (reads_next (byteOf z) t).upTo
  mirrors := hm
  length := rfl

end Lands

/-! ### Leaves -/

theorem leadOf_of_lead (c : UInt8) : (c.toNat = 0x46 ∨ c.toNat = 0x54 → leadOf c = .bool) ∧
    (DateLead c → leadOf c = .date) ∧ (DoubleLead c → leadOf c = .double) ∧
    (InstanceLead c → leadOf c = .classInstance) ∧ (StringLead c → leadOf c = .string) ∧
    (BinaryLead c → leadOf c = .binary) ∧ (LongLead c → leadOf c = .long) ∧
    (IntLead c → leadOf c = .int) := by
  simp only [DateLead, DoubleLead, InstanceLead, StringLead, BinaryLead, LongLead, IntLead]
  refine ⟨?_, ?_, ?_, ?_, ?_, ?_, ?_, ?_⟩ <;> revert c <;> exact forall_byte (by decide +kernel)

theorem ne_end_of_leadOf {c : UInt8} {kind : Lead} (h : leadOf c = kind) (hkind : kind ≠ .unknown) :
    c ≠ 0x5a := by
  rintro rfl
  exact hkind h.symm

/-- The reader of an object behind the look at its lead byte. -/
theorem object_reads {E : Fault → Prop} {c : UInt8} {cs : Bytes} {value : Object} {t' : Tables}
    (h : ReadsUpTo E (decodeObjectForm P (decodeObject P) c) t (c :: cs) value t') :
    ReadsUpTo E (decodeObject P) t (c :: cs) value t' := by
  rw [decodeObject_eq]
  exact .ahead h

theorem Lands.object {encode : Enc Bool} {c : UInt8} {cs : Bytes} {value : Object} {L' : Ledger}
    {t' : Tables} {n : ℕ} (h : Lands P J encode true (decodeObjectForm P (decodeObject P) c) value L
      L' busy (c :: cs) t t' n) :
    Lands P J encode true (decodeObject P) value L L' busy (c :: cs) t t' n :=
  { h with reads := object_reads h.reads }

/-- A leaf travels if its lead byte announces its codec. -/
theorem leaf_lands {β : Type} {encode : Enc Bool} {decode : Dec β} {v : β} {lead : UInt8 → Prop}
    (h : Carries encode decode v lead) (make : β → Object) (kind : Lead) (hkind : kind ≠ .unknown)
    (hlead : ∀ c, lead c → leadOf c = kind)
    (hform : ∀ c, leadOf c = kind →
      decodeObjectForm P (decodeObject P) c = decode >>= fun v => pure (make v))
    (hm : Mirrors P J L busy t) :
    ∃ c cs value t', c ≠ 0x5a ∧
      Lands P J encode true (decodeObject P) value L L busy (c :: cs) t t' 0 ∧
      (J.distinct → value = make v) := by
  obtain ⟨c, cs, hc, hwrite, hread⟩ := h
  have hcode := hlead c hc
  refine ⟨c, cs, make v, t, ne_end_of_leadOf hcode hkind, ⟨.of_writes hwrite L, ?_, hm, rfl⟩,
    fun _ => rfl⟩
  refine object_reads ?_
  rw [hform c hcode]
  exact ((hread t).bind_nil (reads_pure (make v) t)).upTo

theorem null_lands (hm : Mirrors P J L busy t) :
    Lands P J (encodeObject P .null) true (decodeObject P) .null L L busy [0x4e] t t 0 := by
  refine ⟨.of_writes (fun e => rfl) L, object_reads (Reads.upTo ?_), hm, rfl⟩
  exact (reads_next 0x4e t).bind_nil (reads_pure Object.null t)

/-- A reference travels as the number of its target. -/
theorem ref_lands {i : ObjId} (hd : Departs P J L busy [.ref i]) (hm : Mirrors P J L busy t) :
    ∃ c cs value t', c ≠ 0x5a ∧
      Lands P J (encodeObject P (.ref i)) true (decodeObject P) value L L busy (c :: cs) t t' 0 ∧
      (J.distinct → value = .ref (J.final.number i)) := by
  have hi : i ∈ L.values.keys := hd.backward.1 i rfl
  have hfits := hd.fits _ List.mem_cons_self (Option.some_ne_none i)
  have hnumber := Ledger.number_eq hd.within hi
  have hlt : J.final.number i < t.heap.length := by
    rw [hnumber.1]
    exact hnumber.2.trans_le hm.size
  obtain ⟨c, cs, hemits, hreads⟩ :=
    ref_travels (P := P) (hd.within.values.length_le.trans hfits) hi
  refine ⟨0x51, c :: cs, .ref (J.final.number i), _, by decide,
    ⟨hemits, object_reads (hreads t (J.final.number i) ?_).upTo, hm.note _ _, rfl⟩, fun _ => rfl⟩
  rw [← hnumber.1, hm.values]
  exact List.getElem?_range hlt

/-! ### Containers -/

/-- A container is read if its contents are read once it is there. -/
theorem container_reads {kind : ContainerKind} {body : ObjId → Dec Object} {L' : Ledger}
    {busy' : List ObjId} {bs : Bytes} {contents : Object} {t' : Tables} {n : ℕ}
    (hreads : ReadsUpTo J.Excuses (body t.heap.length) (t.started kind) bs contents t')
    (hm : Mirrors P J L' busy' t') (hlen : t'.heap.length = (t.started kind).heap.length + n)
    (hself : contents.self? = some t.heap.length)
    (hbusy : J.settled → ∀ j ∈ busy', j ∉ busy → L'.number j = t.heap.length) :
    ∃ t'', ReadsUpTo J.Excuses (Dec.container kind body) t bs contents t'' ∧
      Mirrors P J L' busy t'' ∧ t''.heap.length = t.heap.length + (n + 1) := by
  rw [Tables.length_heap_started] at hlen
  have hallocate : Reads (Dec.allocate kind) t [] t.heap.length (t.started kind) :=
    (reads_aux t).bind_nil ((reads_modifyAux _ t).bind_nil (reads_pure t.heap.length _))
  have hfinish : Reads (Dec.finish t.heap.length contents) t' [] contents
      { t' with heap := t'.heap.set t.heap.length (.finished contents) } :=
    (reads_modifyAux _ t').bind_nil (reads_pure contents _)
  refine ⟨_, ?_, hm.finish t.heap.length contents hself fun hs j hj hj' =>
    ⟨hbusy hs j hj hj', by omega⟩, ?_⟩
  · rw [Dec.container, Dec.owning]
    exact .onFail (ReadsUpTo.bind hallocate.upTo (hreads.bind_nil hfinish.upTo))
  · rw [List.length_set]
    omega

theorem enterValue_emits (i : ObjId) (L : Ledger) :
    Emits (enterValue i) L () [] ⟨L.types, L.defs, L.values.enter i⟩ := .modify fun _ _ _ => rfl

/-- A list or a map lands if its contents do once it is there. -/
theorem container_lands {encode : Enc Bool} {kind : ContainerKind} {body : ObjId → Dec Object}
    {i : ObjId} {L' : Ledger} {bs : Bytes} {contents : Object} {t' : Tables} {n : ℕ}
    (h : Lands P J encode true (body t.heap.length) contents ⟨L.types, L.defs, L.values.enter i⟩ L'
      busy bs (t.started kind) t' n) (hself : contents.self? = some t.heap.length) :
    ∃ t'', Lands P J (enterValue i >>= fun _ => encode) true (Dec.container kind body) contents L L'
      busy bs t t'' (n + 1) := by
  obtain ⟨t'', hreads, hm, hlen⟩ := container_reads h.reads h.mirrors h.length hself
    fun _ j hj hj' => absurd hj hj'
  exact ⟨t'', (enterValue_emits i L).bind h.emits, hreads, hm, hlen⟩

/-- A type name lands in full or as its number. -/
theorem typeRef_lands {v : Bytes} (hm : Mirrors P J L busy t) (hv : Sent P v)
    (hfits : (L.types.enter v).size ≤ 2 ^ 15) : ∃ c cs, Lands P J (encodeTypeRef P v) true (decodeTypeRef P) v L
      ⟨L.types.enter v, L.defs, L.values⟩ busy (c :: cs) t
      { t with typesRef := (L.types.enter v).keys } 0 := by
  obtain ⟨c, cs, hw, hr⟩ := typeRef_travels hv hfits
  exact ⟨c, cs, hw, (hr t hm.types).upTo, hm.enterType v, rfl⟩

/-! ### Lists -/

/-- The elements of a list travel one after the other. -/
theorem values_land {vs : List Object} (ih : ∀ v ∈ vs, Travels P J v) : ∀ ⦃L busy t⦄,
    Departs P J L busy (vs.flatMap Object.walk) → Mirrors P J L busy t → ∃ bs values t',
      Lands P J (encodeValues P vs) () (times (decodeObject P) vs.length) values L
        (L.notes (vs.flatMap Object.walk)) busy bs t t' (vs.flatMap Object.containers).length ∧
      (J.distinct → values =
        Object.relocateValues J.final.number t.heap.length (vs.map Object.received)) := by
  induction vs with
  | nil =>
    intro L busy t _ hm
    exact ⟨[], [], t, ⟨.pure () L, (reads_pure _ t).upTo, hm, rfl⟩, fun _ => rfl⟩
  | cons v vs ihvs =>
    intro L busy t hd hm
    rw [List.forall_mem_cons] at ih
    rw [List.flatMap_cons] at hd
    obtain ⟨c, cs, value, t₁, -, hv, hvalue⟩ := ih.1 hd.append_left hm
    obtain ⟨bs, values, t', hvs, hvalues⟩ := ihvs ih.2 hd.append_right hv.mirrors
    refine ⟨(c :: cs) ++ bs, value :: values, t', ?_, fun h => ?_⟩
    · rw [List.flatMap_cons, List.flatMap_cons, Ledger.notes_append, List.length_append]
      exact hv.bind (hvs.map (value :: ·))
    · rw [hvalue h, hvalues h, hv.length, List.map_cons, Object.relocateValues,
        Object.containers_received]

/-- The lead byte of a list. -/
def listLead (short long : ℤ) (n : ℕ) : UInt8 := byteOf (if n ≤ 7 then short + n else long)

theorem leadOf_listLead (n : ℕ) : leadOf (listLead 0x70 0x56 n) = .typedList ∧
    leadOf (listLead 0x78 0x58 n) = .untypedList := by
  rcases Nat.lt_or_ge 7 n with hn | hn
  · rw [listLead, listLead, if_neg (by omega), if_neg (by omega)]
    exact ⟨rfl, rfl⟩
  · rw [listLead, listLead, if_pos hn, if_pos hn]
    interval_cases n <;> exact ⟨rfl, rfl⟩

/-- The elements of a list land, behind its length if the lead byte does not tell it. -/
theorem listValues_land {α : Type} {self : Dec Object} {encode : Enc α} {a : α} {count : ℕ}
    (hcount : count < 2 ^ 31) {values : List Object} {L' : Ledger} {bs : Bytes} {t' : Tables} {n : ℕ}
    (h : Lands P J encode a (times self count) values L L' busy bs t t' n) : ∃ cs,
    Lands P J (encodeLength count >>= fun _ => encode) a
        (typedListValues P self (listLead 0x70 0x56 count)) values L L' busy (cs ++ bs) t t' n ∧
      Lands P J (encodeLength count >>= fun _ => encode) a
        (untypedListValues P self (listLead 0x78 0x58 count)) values L L' busy (cs ++ bs) t t' n := by
  rcases Nat.lt_or_ge 7 count with h7 | h7
  · obtain ⟨c, cs, -, hwrite, hread⟩ := int32_carries (P := P) (.ofNat count)
    have hlen : (Int32.ofNat count).toInt = count := Int32.toInt_ofNat_of_lt hcount
    have hemits : Emits (encodeLength count >>= fun _ => encode) L a (c :: cs ++ bs) L' := by
      rw [encodeLength, if_pos h7]
      exact Emits.bind ((Emits.of_writes hwrite L).bind_nil (.pure () L)) h.emits
    have hreads : ReadsUpTo J.Excuses (decodeInt32 P >>= fun ret => readNumsObject self ret.toInt) t
        (c :: cs ++ bs) values t' := by
      refine (hread t).upTo.bind ?_
      rw [readNumsObject, hlen, Int.toNat_natCast]
      exact h.reads
    rw [listLead, listLead, if_neg (by omega), if_neg (by omega)]
    exact ⟨c :: cs, ⟨hemits, hreads, h.mirrors, h.length⟩, ⟨hemits, hreads, h.mirrors, h.length⟩⟩
  · have hemits : Emits (encodeLength count >>= fun _ => encode) L a bs L' := by
      rw [encodeLength, if_neg (by omega)]
      exact Emits.bind (.pure () L) h.emits
    rw [listLead, listLead, if_pos h7, if_pos h7]
    refine ⟨[], ?_⟩
    interval_cases count <;> exact ⟨⟨hemits, h.reads, h.mirrors, h.length⟩,
      ⟨hemits, h.reads, h.mirrors, h.length⟩⟩

theorem untypedList_travels {i : ObjId} {vs : List Object} (ih : ∀ v ∈ vs, Travels P J v) :
    Travels P J (.untypedList i vs) := by
  intro L busy t hd hm
  rw [Object.walk_list] at hd ⊢
  rw [Object.containers_list, Object.received_list]
  have hlen := (hd.portable _ List.mem_cons_self).2
  have hlead := (leadOf_listLead vs.length).2
  have hm₁ := hm.allocate (.list false) (hd.new rfl) (fun _ h => h)
    (.inr (Option.some_ne_none _))
  obtain ⟨bs, values, t', hvs, hvalues⟩ := values_land ih hd.tail hm₁
  obtain ⟨cs, -, hbody⟩ := listValues_land hlen (hvs.returns true)
  have hform : Lands P J (writeByte (if vs.length ≤ 7 then 0x78 + vs.length else 0x58) >>= fun _ =>
      encodeLength vs.length >>= fun _ => encodeValues P vs >>= fun _ => pure true) true
      (untypedListForm P (decodeObject P) t.heap.length) (.untypedList t.heap.length values)
      ⟨L.types, L.defs, L.values.enter i⟩ _ busy _ (t.started (.list false)) t' _ :=
    (Lands.lead _ hm₁).behind (hbody.map (Object.untypedList t.heap.length))
  obtain ⟨t'', hland⟩ := container_lands hform rfl
  refine ⟨_, cs ++ bs, .untypedList t.heap.length values, t'', ne_end_of_leadOf hlead (by decide),
    Lands.object ?_, fun h => ?_⟩
  · rw [decodeObjectForm, hlead]
    exact hland
  · rw [hvalues h, Tables.length_heap_started, Object.relocate]

theorem typedList_travels {i : ObjId} {typeName : Bytes} {vs : List Object}
    (ih : ∀ v ∈ vs, Travels P J v) : Travels P J (.typedList i typeName vs) := by
  intro L busy t hd hm
  rw [Object.walk_list] at hd ⊢
  rw [Object.containers_list, Object.received_list]
  obtain ⟨hsent, hlen⟩ := hd.portable _ List.mem_cons_self
  have hlead := (leadOf_listLead vs.length).1
  have hm₁ := hm.allocate (.list true) (hd.new rfl) (fun _ h => h)
    (.inr (Option.some_ne_none _))
  obtain ⟨c, cs, htype⟩ := typeRef_lands hm₁ (hsent typeName rfl).carries hd.numbers_le.1
  obtain ⟨bs, values, t', hvs, hvalues⟩ := values_land ih hd.tail htype.mirrors
  obtain ⟨ls, hbody, -⟩ := listValues_land hlen (hvs.returns true)
  have hform : Lands P J (writeByte (if vs.length ≤ 7 then 0x70 + vs.length else 0x56) >>= fun _ =>
      encodeTypeRef P typeName >>= fun _ => encodeLength vs.length >>= fun _ =>
        encodeValues P vs >>= fun _ => pure true) true
      (typedListForm P (decodeObject P) t.heap.length) (.typedList t.heap.length typeName values)
      ⟨L.types, L.defs, L.values.enter i⟩ _ busy _ (t.started (.list true)) t' _ :=
    (Lands.lead _ hm₁).behind (htype.behind (hbody.map (Object.typedList t.heap.length typeName)))
  obtain ⟨t'', hland⟩ := container_lands hform rfl
  refine ⟨_, (c :: cs) ++ (ls ++ bs), .typedList t.heap.length typeName values, t'',
    ne_end_of_leadOf hlead (by decide), Lands.object ?_, fun h => ?_⟩
  · rw [decodeObjectForm, hlead]
    exact hland
  · rw [hvalues h, Tables.length_heap_started, Object.relocate]

/-! ### Maps -/

/-- The key is the copy of one that differs from the keys of the entries. -/
def Journey.Apart (J : Journey) (es : List (Object × Object)) (s : Slot) : Prop :=
  ∃ (k : Object) (n : ObjId), s.key = k.received.relocate J.final.number n ∧
    (∀ i ∈ k.refs, i ∈ J.final.values.keys) ∧ ∀ e ∈ es, k.received.equal e.1.received = false

/-- A copy of a key is found only where the key would be. -/
theorem Journey.Apart.equal_eq_false {e : Object × Object} {es : List (Object × Object)} {s : Slot}
    (h : J.Apart es s) (he : e ∈ es) (hrefs : ∀ i ∈ e.1.refs, i ∈ J.final.values.keys) (n : ObjId) :
    s.key.equal (e.1.received.relocate J.final.number n) = false := by
  obtain ⟨k, m, hkey, hk, hes⟩ := h
  have hseparates : Object.Separates J.final.number k.received.refs e.1.received.refs := by
    rw [Object.refs_received, Object.refs_received]
    exact fun i hi j hj hij => Ledger.number_inj (hk i hi) (hrefs j hj) hij
  rw [hkey, Object.equal, Object.equalAs_relocate _ _ _ _ _ hseparates]
  exact hes e he

theorem Journey.Apart.mono {es es' : List (Object × Object)} {s : Slot} (h : J.Apart es s)
    (hsub : ∀ e ∈ es', e ∈ es) : J.Apart es' s := by
  obtain ⟨k, n, hkey, hk, hes⟩ := h
  exact ⟨k, n, hkey, hk, fun e he => hes e (hsub e he)⟩

/-- An entry lands behind entries with other keys. -/
theorem entry_lands (result : ObjId) {k v : Object} {rest : List Object} {slots : List Slot}
    (hk : Travels P J k) (hv : Travels P J v) (hd : Departs P J L busy (k.walk ++ (v.walk ++ rest)))
    (hm : Mirrors P J L busy t) (hbusy : J.settled → ∀ i, k.target? = some i → i ∉ busy)
    (hdirect : J.direct → k.target? = none)
    (hslots : J.distinct → ∀ s ∈ slots, J.Apart [(k, v)] s) : ∃ bs slots' t',
      Lands P J (encodeObject P k >>= fun _ => encodeObject P v) true
        (readEntriesStep P (decodeObject P) result slots) (.inl slots') L
        ((L.notes k.walk).notes v.walk) busy bs t t' (k.containers.length + v.containers.length) ∧
      (J.distinct → ∃ hash, slots' = slots ++
        [⟨hash, k.received.relocate J.final.number t.heap.length,
          v.received.relocate J.final.number (t.heap.length + k.containers.length)⟩]) := by
  obtain ⟨c, cs, key, t₁, hc, hk, hkey⟩ := hk hd.append_left hm
  obtain ⟨d, ds, value, t₂, -, hv, hvalue⟩ := hv hd.append_right.append_left hk.mirrors
  -- the key has a hash, and differs from the keys in front of it
  have hhash (h : J.settled ∨ J.direct) : key.hash P t₂.heap t₂.binaryHash ≠ none := by
    rw [hkey (J.distinct_of_hashed h)]
    refine hash_relocate_ne_none fun i hi => ?_
    have hs : J.settled := h.resolve_right fun hd => Option.some_ne_none i (hi ▸ hdirect hd)
    have hmem := (Ledger.prefix_notes _ v.walk).values.subset
      ((Ledger.prefix_notes L k.walk).values.subset (hd.target_mem hi))
    have hwithin := (Ledger.prefix_notes _ rest).trans hd.append_right.append_right.within
    rw [(Ledger.number_eq hwithin hmem).1]
    exact hv.mirrors.cells hs i hmem (hbusy hs i hi)
  have hnew (h : J.distinct) : ∀ s ∈ slots, s.key.equal key = false := by
    intro s hs
    rw [hkey h]
    refine (hslots h s hs).equal_eq_false List.mem_cons_self (fun i hi => ?_) _
    obtain ⟨x, hx, hi⟩ := List.mem_filterMap.1 hi
    exact hd.refs_mem (List.mem_append_left _ hx) hi
  obtain ⟨slots', t', hemplace, hm', hlen, hstored⟩ :=
    hv.mirrors.emplace result slots key value hhash hnew
  refine ⟨c :: cs ++ d :: ds, slots', t', ⟨hk.emits.bind hv.emits, ?_, hm', ?_⟩, fun h => ?_⟩
  · rw [readEntriesStep_eq]
    refine .ahead ?_
    rw [if_neg hc]
    exact hk.reads.bind (hv.reads.bind_nil (hemplace.bind_nil (reads_pure _ t').upTo))
  · rw [hlen, hv.length, hk.length, Nat.add_assoc]
  · obtain ⟨hash, rfl⟩ := hstored h
    rw [← hkey h, ← hk.length, ← hvalue h]
    exact ⟨hash, rfl⟩

/-- The entries of a map travel one after the other, up to the terminator. -/
theorem entries_land {α : Type} (a : α) (result : ObjId) {es : List (Object × Object)}
    (ih : ∀ e ∈ es, Travels P J e.1 ∧ Travels P J e.2) : ∀ ⦃L t slots⦄,
    Departs P J L busy (es.flatMap fun e => e.1.walk ++ e.2.walk) → Mirrors P J L busy t →
      (J.distinct → es.Pairwise fun e e' => e.1.received.equal e'.1.received = false) →
      (J.settled → ∀ e ∈ es, ∀ i, e.1.target? = some i → i ∉ busy) →
      (J.direct → ∀ e ∈ es, e.1.target? = none) → (J.distinct → ∀ s ∈ slots, J.Apart es s) → ∃ bs slots' t',
      Lands P J (encodeEntries P es >>= fun _ => writeByte 0x5a >>= fun _ => pure a) a
        (iter (readEntriesStep P (decodeObject P) result) slots) slots' L
        (L.notes (es.flatMap fun e => e.1.walk ++ e.2.walk)) busy bs t t'
        (es.flatMap fun e => e.1.containers ++ e.2.containers).length ∧
      (J.distinct → entriesOf slots' = entriesOf slots ++
        Object.relocateEntries J.final.number t.heap.length
          (es.map fun e => (e.1.received, e.2.received))) := by
  induction es with
  | nil =>
    intro L t slots _ hm _ _ _ _
    refine ⟨[0x5a], slots, t, ⟨?_, ?_, hm, rfl⟩, fun _ => (List.append_nil _).symm⟩
    · exact Emits.bind (.pure () L) (Emits.bind_nil (.rawWrite _ L) (.pure a L))
    · have hstep : Reads (readEntriesStep P (decodeObject P) result slots) t [0x5a] (.inr slots) t := by
        rw [readEntriesStep_eq]
        exact .ahead ((reads_next _ t).bind_nil (reads_pure _ t))
      rw [readEntries_loop]
      exact (hstep.bind_nil (reads_pure slots t)).upTo
  | cons e es ihes =>
    intro L t slots hd hm hdistinct hsettled hdirect hslots
    obtain ⟨k, v⟩ := e
    rw [List.forall_mem_cons] at ih
    rw [List.flatMap_cons, List.append_assoc] at hd
    obtain ⟨cs, slots₁, t₁, hentry, hstored⟩ := entry_lands result ih.1.1 ih.1.2 hd hm
      (fun hs => hsettled hs _ List.mem_cons_self) (fun h => hdirect h _ List.mem_cons_self)
      fun h s hs =>
        (hslots h s hs).mono fun e he => List.mem_singleton.1 he ▸ List.mem_cons_self
    have hrefs : ∀ i ∈ k.refs, i ∈ J.final.values.keys := by
      intro i hi
      obtain ⟨x, hx, hi⟩ := List.mem_filterMap.1 hi
      exact hd.refs_mem (List.mem_append_left _ hx) hi
    -- the slot that may have been added holds a key that differs from those to come
    have hslots₁ (h : J.distinct) : ∀ s ∈ slots₁, J.Apart es s := by
      obtain ⟨hash, rfl⟩ := hstored h
      intro s hs
      rcases List.mem_append.1 hs with hs | hs
      · exact (hslots h s hs).mono fun e he => List.mem_cons_of_mem _ he
      · obtain rfl := List.mem_singleton.1 hs
        exact ⟨k, _, rfl, hrefs, (List.pairwise_cons.1 (hdistinct h)).1⟩
    obtain ⟨bs, slots', t', hes, hentries⟩ := ihes ih.2 hd.append_right.append_right hentry.mirrors
      (fun h => (List.pairwise_cons.1 (hdistinct h)).2)
      (fun hs e' he' => hsettled hs e' (List.mem_cons_of_mem _ he'))
      (fun h e' he' => hdirect h e' (List.mem_cons_of_mem _ he')) hslots₁
    have hbind : (encodeEntries P ((k, v) :: es) >>= fun _ => writeByte 0x5a >>= fun _ => pure a) =
        (encodeObject P k >>= fun _ => encodeObject P v) >>= fun _ =>
          encodeEntries P es >>= fun _ => writeByte 0x5a >>= fun _ => pure a := by
      simp only [encodeEntries, bind_assoc]
    rw [hbind, readEntries_loop, List.flatMap_cons, List.flatMap_cons, List.append_assoc,
      Ledger.notes_append, Ledger.notes_append, List.length_append, List.length_append]
    refine ⟨cs ++ bs, slots', t', hentry.bind hes, fun h => ?_⟩
    obtain ⟨hash, rfl⟩ := hstored h
    rw [hentries h, hentry.length, List.map_cons, Object.relocateEntries, Object.containers_received,
      Object.containers_received, entriesOf, List.map_append, List.append_assoc, Nat.add_assoc]
    rfl

/-- The entries of a map travel once the map is there. -/
theorem mapEntries_land (result : ObjId) {i : ObjId} {typeName : Option Bytes} {es : List (Object × Object)}
    (ih : ∀ e ∈ es, Travels P J e.1 ∧ Travels P J e.2)
    (hd : Departs P J L busy
      (.map i typeName es :: es.flatMap fun e => e.1.walk ++ e.2.walk))
    (hm : Mirrors P J (L.note (.map i typeName es)) busy t) : ∃ bs entries t',
      Lands P J (encodeEntries P es >>= fun _ => writeByte 0x5a >>= fun _ => pure true) true
        (readEntries P (decodeObject P) result) entries (L.note (.map i typeName es))
        (L.notes (.map i typeName es :: es.flatMap fun e => e.1.walk ++ e.2.walk)) busy bs t t'
        (es.flatMap fun e => e.1.containers ++ e.2.containers).length ∧
      (J.distinct → entries = Object.relocateEntries J.final.number t.heap.length
        (es.map fun e => (e.1.received, e.2.received))) := by
  have hbusy (hs : J.settled) : ∀ e ∈ es, ∀ j, e.1.target? = some j → j ∉ busy :=
    fun e he j hj hb =>
      (hd.keys hs _ List.mem_cons_self).2 j hb (List.mem_filterMap.2 ⟨e, he, hj⟩)
  have hdirect (h : J.direct) : ∀ e ∈ es, e.1.target? = none :=
    List.filterMap_eq_nil_iff.1 (hd.direct h _ List.mem_cons_self)
  obtain ⟨bs, slots, t', hes, hentries⟩ := entries_land true result ih hd.tail hm
    (fun h => hd.distinct h _ List.mem_cons_self) hbusy hdirect fun _ s hs =>
      absurd hs List.not_mem_nil
  exact ⟨bs, entriesOf slots, t', hes.map entriesOf, hentries⟩

theorem untypedMap_travels {i : ObjId} {es : List (Object × Object)}
    (ih : ∀ e ∈ es, Travels P J e.1 ∧ Travels P J e.2) : Travels P J (.untypedMap i es) := by
  intro L busy t hd hm
  rw [Object.walk_map] at hd ⊢
  rw [Object.containers_map, Object.received_map]
  have hm₁ := hm.allocate (.map false) (hd.new rfl) (fun _ h => h)
    (.inr (Option.some_ne_none _))
  obtain ⟨bs, entries, t', hes, hentries⟩ := mapEntries_land t.heap.length ih hd hm₁
  have hform : Lands P J (writeByte 0x48 >>= fun _ => encodeEntries P es >>= fun _ =>
      writeByte 0x5a >>= fun _ => pure true) true (untypedMapForm P (decodeObject P) t.heap.length)
      (.untypedMap t.heap.length entries) ⟨L.types, L.defs, L.values.enter i⟩ _ busy _
      (t.started (.map false)) t' _ :=
    (Lands.lead _ hm₁).behind (hes.map (Object.untypedMap t.heap.length))
  obtain ⟨t'', hland⟩ := container_lands hform rfl
  refine ⟨0x48, bs, .untypedMap t.heap.length entries, t'', by decide, Lands.object hland, fun h => ?_⟩
  rw [hentries h, Tables.length_heap_started, Object.relocate]

theorem typedMap_travels {i : ObjId} {typeName : Bytes} {es : List (Object × Object)}
    (ih : ∀ e ∈ es, Travels P J e.1 ∧ Travels P J e.2) : Travels P J (.typedMap i typeName es) := by
  intro L busy t hd hm
  rw [Object.walk_map] at hd ⊢
  rw [Object.containers_map, Object.received_map]
  have hm₁ := hm.allocate (.map true) (hd.new rfl) (fun _ h => h)
    (.inr (Option.some_ne_none _))
  obtain ⟨c, cs, htype⟩ :=
    typeRef_lands hm₁ (hd.portable _ List.mem_cons_self typeName rfl).carries hd.numbers_le.1
  obtain ⟨bs, entries, t', hes, hentries⟩ :=
    mapEntries_land t.heap.length ih hd htype.mirrors
  have hform : Lands P J (writeByte 0x4d >>= fun _ => encodeTypeRef P typeName >>= fun _ =>
      encodeEntries P es >>= fun _ => writeByte 0x5a >>= fun _ => pure true) true
      (typedMapForm P (decodeObject P) t.heap.length) (.typedMap t.heap.length typeName entries)
      ⟨L.types, L.defs, L.values.enter i⟩ _ busy _ (t.started (.map true)) t' _ :=
    (Lands.lead _ hm₁).behind (htype.behind (hes.map (Object.typedMap t.heap.length typeName)))
  obtain ⟨t'', hland⟩ := container_lands hform rfl
  refine ⟨0x4d, c :: cs ++ bs, .typedMap t.heap.length typeName entries, t'', by decide,
    Lands.object hland, fun h => ?_⟩
  rw [hentries h, Tables.length_heap_started, Object.relocate]

/-! ### Instances -/

/-- The lead byte of an instance does not announce a definition. -/
theorem InstanceLead.ne_definition {c : UInt8} (h : InstanceLead c) : c ≠ 0x43 := by
  rintro rfl
  rcases h with ⟨h, -⟩ | h <;> exact absurd h (by decide)

theorem classInstance_travels {i : ObjId} {d : RawDefinition} {vs : List Object}
    (ih : ∀ v ∈ vs, Travels P J v) : Travels P J (.classInstance i d vs) := by
  intro L busy t hd hm
  rw [Object.walk_classInstance] at hd ⊢
  rw [Object.containers_classInstance, Object.received_classInstance]
  obtain ⟨hsent, hlen⟩ := hd.portable _ List.mem_cons_self
  obtain ⟨full, c, cs, hc, hemits, hread, hfull⟩ :=
    definition_travels (L := ⟨L.types, L.defs, L.values.enter i⟩) hsent.sent hd.numbers_le.2
  -- the decoder knows the definition before it creates the instance
  set t₁ : Tables := { t with defRef := (L.defs.enter d).keys } with ht₁
  have hm₁ := (hm.enterDef d).allocate .classInstance (hd.new rfl)
    (fun j hj => List.mem_cons_of_mem i hj) (.inl List.mem_cons_self)
  obtain ⟨bs, values, t', hvs, hvalues⟩ := values_land ih hd.inside hm₁
  have hbody : ReadsUpTo J.Excuses (classInstanceForm P (decodeObject P) t₁.heap.length)
      (t₁.started .classInstance) (c :: cs ++ bs) (.classInstance t.heap.length d values) t' := by
    refine .ahead ?_
    rw [readActualDefinition, if_neg hc.ne_definition]
    refine ReadsUpTo.bind (reads_pure () _).upTo ((hread _ rfl).upTo.bind ?_)
    rw [← hlen]
    exact hvs.reads.bind_nil (reads_pure _ t').upTo
  have hnumber (hs : J.settled) : ∀ j ∈ i :: busy, j ∉ busy →
      ((L.note (.classInstance i d vs)).notes (vs.flatMap Object.walk)).number j = t₁.heap.length := by
    intro j hj hj'
    obtain rfl := (List.mem_cons.1 hj).resolve_right hj'
    have hmem : j ∈ (L.note (.classInstance j d vs)).values.keys :=
      KeyTable.mem_keys_enter.2 (.inr rfl)
    rw [(Ledger.number_eq (Ledger.prefix_notes _ _) hmem).1]
    exact (number_enter (hd.new rfl hs)).trans (hm.exact hs).symm
  obtain ⟨t'', hcontainer, hm'', hlen''⟩ := container_reads hbody hvs.mirrors hvs.length rfl hnumber
  have hinstance : ReadsUpTo J.Excuses (decodeObject P) t₁ (c :: cs ++ bs)
      (.classInstance t.heap.length d values) t'' := by
    refine object_reads ?_
    rw [decodeObjectForm, (leadOf_of_lead c).2.2.2.1 hc]
    exact hcontainer
  have hwrite : Emits (encodeObject P (.classInstance i d vs)) L true (full ++ (c :: cs ++ bs))
      ((L.note (.classInstance i d vs)).notes (vs.flatMap Object.walk)) := by
    rw [← List.append_assoc]
    exact (enterValue_emits i L).bind (hemits.bind (hvs.emits.bind_nil (.pure true _)))
  have hvalue (h : J.distinct) : Object.classInstance t.heap.length d values =
      (Object.classInstance i d (vs.map Object.received)).relocate J.final.number t.heap.length := by
    rw [hvalues h, Tables.length_heap_started, Object.relocate]
  rcases hfull with ⟨rfl, hold⟩ | ⟨fs, rfl, hnew⟩
  · have hsame : t₁ = t := by
      rw [ht₁, hold, ← hm.defs]
    rw [hsame] at hinstance
    exact ⟨c, cs ++ bs, _, t'', ne_end_of_leadOf ((leadOf_of_lead c).2.2.2.1 hc) (by decide),
      ⟨hwrite, hinstance, hm'', hlen''⟩, hvalue⟩
  · refine ⟨0x43, fs ++ (c :: cs ++ bs), _, t'', by decide, ⟨hwrite, object_reads ?_, hm'', hlen''⟩,
      hvalue⟩
    exact (hnew t hm.defs).upTo.bind hinstance

/-! ### All objects -/

/-- **Every object travels**: what `encode<Object>` writes for it is read by `decode<Object>`, and
takes both sides to the same tables. -/
theorem encodeObject_travels (o : Object) : Travels P J o := by
  have hleads := leadOf_of_lead
  induction o using Object.induct with
  | null => exact fun L busy t _ hm => ⟨0x4e, [], .null, t, by decide, null_lands hm, fun _ => rfl⟩
  | boolean b =>
    exact fun L busy t _ hm => leaf_lands (bool_carries (P := P) b) Object.boolean .bool (by decide)
      (fun c => (hleads c).1) (fun c h => by rw [decodeObjectForm, h]) hm
  | integer i =>
    exact fun L busy t _ hm => leaf_lands (int32_carries (P := P) i) Object.integer .int (by decide)
      (fun c => (hleads c).2.2.2.2.2.2.2) (fun c h => by rw [decodeObjectForm, h]) hm
  | long i =>
    exact fun L busy t _ hm => leaf_lands (int64_carries (P := P) i) Object.long .long (by decide)
      (fun c => (hleads c).2.2.2.2.2.2.1) (fun c h => by rw [decodeObjectForm, h]) hm
  | double d =>
    exact fun L busy t _ hm => leaf_lands (double_carries (P := P) d) Object.double .double (by decide)
      (fun c => (hleads c).2.2.1) (fun c h => by rw [decodeObjectForm, h]) hm
  | date d =>
    exact fun L busy t _ hm => leaf_lands (date_carries (P := P) d) Object.date .date (by decide)
      (fun c => (hleads c).2.1) (fun c h => by rw [decodeObjectForm, h]) hm
  | string s =>
    exact fun L busy t hd hm => leaf_lands (hd.portable _ List.mem_cons_self : Intact P s).carries Object.string
      .string (by decide) (fun c => (hleads c).2.2.2.2.1) (fun c h => by rw [decodeObjectForm, h]) hm
  | binary b =>
    exact fun L busy t hd hm => leaf_lands
      (bytes_carries (P := P) (hd.portable _ List.mem_cons_self : b.length < 2 ^ 32)) Object.binary
      .binary (by decide) (fun c => (hleads c).2.2.2.2.2.1)
      (fun c h => by rw [decodeObjectForm, h]) hm
  | ref i => exact fun L busy t hd hm => ref_lands hd hm
  | list i typeName vs ih =>
    cases typeName with
    | none => exact untypedList_travels ih
    | some name => exact typedList_travels ih
  | map i typeName es ih =>
    cases typeName with
    | none => exact untypedMap_travels ih
    | some name => exact typedMap_travels ih
  | classInstance i d vs ih => exact classInstance_travels ih

end Hessian2
