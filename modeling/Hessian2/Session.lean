import Hessian2.Mirroring
import Hessian2.RoundTrip

/-!
# Sessions

A program calls `encode` of one encoder for values of all its types, in any order, and another one
makes the matching calls of `decode`.

* `Primitive` : a value that is sent without a table.
* `Item` : what one call sends.
* `encodeItems`, `decodeItems` : the calls.
* `Session` : values that can be sent one after the other.
* `session_round_trip` : **what is sent is received by calls of the matching types, and the objects
  among it keep their references to each other.**
-/

namespace Hessian2

open Parsing Parsing.Parser Enc

variable {P : Platform} {J : Journey} {L : Ledger} {t : Tables}

/-! ### Values without tables -/

/-- A value that is sent without a table, by the type that `encode` is called with. -/
inductive Primitive where
  | bool (value : Bool)
  | int8 (value : Int8)
  | int16 (value : Int16)
  | int32 (value : Int32)
  | int64 (value : Int64)
  | uint8 (value : UInt8)
  | uint16 (value : UInt16)
  | uint32 (value : UInt32)
  | double (value : UInt64)
  | string (value : Bytes)
  | binary (value : Bytes)
  | duration (unit : DurationType) (value : Int64)

namespace Primitive

/-- `encode`. -/
def encode (P : Platform) : Primitive → Enc Bool
  | bool value => encodeBool value
  | int8 value => encodeInt8 value
  | int16 value => encodeInt16 value
  | int32 value => encodeInt32 value
  | int64 value => encodeInt64 value
  | uint8 value => encodeUInt8 value
  | uint16 value => encodeUInt16 value
  | uint32 value => encodeUInt32 value
  | double value => encodeDouble value
  | string value => encodeString P value
  | binary value => encodeBytes value
  | duration unit value => encodeDuration unit value

/-- The matching `decode`.  There is none for the narrow and for the unsigned integers. -/
def decode (P : Platform) : Primitive → Dec Primitive
  | bool _ => decodeBool P >>= fun value => pure (bool value)
  | int8 _ | int16 _ | int32 _ | uint8 _ | uint16 _ =>
    decodeInt32 P >>= fun value => pure (int32 value)
  | int64 _ | uint32 _ => decodeInt64 P >>= fun value => pure (int64 value)
  | double _ => decodeDouble P >>= fun value => pure (double value)
  | string _ => decodeString P >>= fun value => pure (string value)
  | binary _ => decodeBytes P >>= fun value => pure (binary value)
  | duration unit _ => readDate P unit >>= fun value => pure (duration unit value)

/-- The same value, as the matching `decode` returns it: integers in a wider type, and zeros without
their sign. -/
def arrived : Primitive → Primitive
  | int8 value => int32 value.toInt32
  | int16 value => int32 value.toInt32
  | uint8 value => int32 (.ofNat value.toNat)
  | uint16 value => int32 (.ofNat value.toNat)
  | uint32 value => int64 (.ofNat value.toNat)
  | double value => double (Double.unsignedZero value)
  | p => p

/-- The value is sent unaltered: a string is accepted and comes back, binary data can be counted, and
a duration can be expressed in milliseconds, and in minutes if it is a whole number of them. -/
def Portable (P : Platform) : Primitive → Prop
  | string value => Intact P value
  | binary value => value.length < 2 ^ 32
  | duration unit value => IntegralType.int64.Holds (unit.inMilliseconds value.toInt) ∧
      (60000 ∣ unit.inMilliseconds value.toInt →
        IntegralType.int32.Holds (unit.inMilliseconds value.toInt / 60000))
  | _ => True

/-- The integer that the value is. -/
def number? : Primitive → Option ℤ
  | int8 value => some value.toInt
  | int16 value => some value.toInt
  | int32 value => some value.toInt
  | int64 value => some value.toInt
  | uint8 value => some value.toNat
  | uint16 value => some value.toNat
  | uint32 value => some value.toNat
  | _ => none

/-- An integer keeps its value in the wider type. -/
theorem number?_arrived (p : Primitive) : p.arrived.number? = p.number? := by
  cases p with
  | int8 v => exact congrArg some (Int8.toInt_toInt32 v)
  | int16 v => exact congrArg some (Int16.toInt_toInt32 v)
  | uint8 v => exact congrArg some (Int32.toInt_ofNat_of_lt (v.toNat_lt.trans (by decide)))
  | uint16 v => exact congrArg some (Int32.toInt_ofNat_of_lt (v.toNat_lt.trans (by decide)))
  | uint32 v => exact congrArg some (Int64.toInt_ofNat_of_lt (v.toNat_lt.trans (by decide)))
  | _ => rfl

/-- A duration in milliseconds, converted back. -/
theorem ofMilliseconds_inMilliseconds (unit : DurationType) (value : Int64) :
    .ofInt (unit.ofMilliseconds (unit.inMilliseconds value.toInt)) = value := by
  have hcancel : unit.ofMilliseconds (unit.inMilliseconds value.toInt) = value.toInt :=
    Int.mul_tdiv_cancel _ unit.tick_pos.ne'
  rw [hcancel, Int64.ofInt_toInt]

/-- Something is made of the value that is carried. -/
theorem carries_map {α β : Type} {encode : Enc Bool} {decode : Dec α} {v : α} {lead : UInt8 → Prop}
    (h : Carries encode decode v lead) (f : α → β) :
    Carries encode (decode >>= fun v => pure (f v)) (f v) fun _ => True := by
  obtain ⟨b, bs, -, hwrite, hread⟩ := h
  exact ⟨b, bs, trivial, hwrite, fun t => (hread t).bind_nil (reads_pure (f v) t)⟩

/-- A value without a table is carried by its codec. -/
theorem carries {p : Primitive} (h : p.Portable P) :
    Carries (p.encode P) (p.decode P) p.arrived fun _ => True := by
  cases p with
  | bool v => exact carries_map (bool_carries v) bool
  | int8 v => exact carries_map (int32_carries _) int32
  | int16 v => exact carries_map (int32_carries _) int32
  | int32 v => exact carries_map (int32_carries v) int32
  | int64 v => exact carries_map (int64_carries v) int64
  | uint8 v => exact carries_map (int32_carries _) int32
  | uint16 v => exact carries_map (int32_carries _) int32
  | uint32 v => exact carries_map (int64_carries _) int64
  | double v => exact carries_map (double_carries v) double
  | string v => exact carries_map (Intact.carries h) string
  | binary v => exact carries_map (bytes_carries h) binary
  | duration unit v =>
    have hcarries := duration_carries (P := P) unit unit h.1
    rw [timeReceived_eq h.2, ofMilliseconds_inMilliseconds] at hcarries
    exact carries_map hcarries (duration unit)

/-- Its bytes land on both sides without a trace in the tables. -/
theorem lands {p : Primitive} (h : p.Portable P) (hm : Mirrors P J L [] t) :
    ∃ bs, Lands P J (p.encode P) true (p.decode P) p.arrived L L [] bs t t 0 := by
  obtain ⟨b, bs, -, hwrite, hread⟩ := carries h
  exact ⟨b :: bs, .of_writes hwrite L, (hread t).upTo, hm, rfl⟩

end Primitive

/-! ### Calls -/

/-- What one call of an encoder sends. -/
inductive Item where
  | primitive (value : Primitive)
  | message (value : Message)

/-- `encode` of an item. -/
def encodeItem (P : Platform) : Item → Enc Bool
  | .primitive value => value.encode P
  | .message value => encodeMessage P value

/-- The matching calls of the decoder, with what they return. -/
def decodeItem (P : Platform) : Item → Dec (List Item)
  | .primitive value => value.decode P >>= fun v => pure [.primitive v]
  | .message value => decodeMessage P value >>= fun r => pure (r.map .message)

/-- One call after the other, with what the calls return. -/
def encodeItems (P : Platform) : List Item → Enc (List Bool)
  | [] => pure []
  | i :: items => do
    let b ← encodeItem P i
    let bs ← encodeItems P items
    pure (b :: bs)

/-- The matching calls, one after the other. -/
def decodeItems (P : Platform) : List Item → Dec (List (List Item))
  | [] => pure []
  | i :: items => decodeItem P i >>= fun r => decodeItems P items >>= fun rs => pure (r :: rs)

namespace Item

/-- The message that is sent, if it is one with names or containers. -/
def message? : Item → Option Message
  | primitive _ => none
  | message value => some value

/-- The containers in an item. -/
def containers : Item → List ObjId
  | primitive _ => []
  | message value => value.containers

/-- What the matching call returns, at the addresses that `f` gives to the containers. -/
def arrived (f : ObjId → ObjId) : Item → Item
  | primitive value => primitive value.arrived
  | message (.object value) => message (.object (value.received.rename f))
  | i => i

end Item

/-- The messages among the items. -/
def messagesOf (items : List Item) : List Message := items.filterMap Item.message?

/-- Items that can be sent one after the other: what is sent for every part alone comes back, every
container has one owner, references point to containers that are written before them, the number of
names and containers fits, the keys of a map stay different, and no map in an instance has a reference
to the instance as a key. -/
structure Session (P : Platform) (items : List Item) : Prop where
  primitives : ∀ p, .primitive p ∈ items → p.Portable P
  messages : ∀ m ∈ messagesOf items, m.Portable P
  keys : ∀ x ∈ (messagesOf items).flatMap Message.parts, x.KeysDistinct ∧ x.KeysSettled
  distinct : ((messagesOf items).flatMap Message.containers).Nodup
  backward : Ledger.empty.Backward ((messagesOf items).flatMap Message.parts)
  fits : (Ledger.empty.sends (messagesOf items)).Fits

/-- All calls of the encoder return `true`, the matching calls of the decoder read all that was written
and return what was sent, with every container and every reference to it moved to an address of its
own, and both sides have the same names, and as many containers. -/
def Delivers (P : Platform) (items : List Item) (t : Tables) : Prop :=
  ∃ e returned s, ∃ f : ObjId → ObjId,
    encodeItems P items .empty = .ok (items.map fun _ => true, e) ∧
    decodeItems P items ⟨.ofList e.output, t⟩ = .ok returned s ∧
    s.cursor.offset = e.output.length ∧
    List.Forall₂ (fun i r => r ≠ [] ∧ ∀ v ∈ r, v = Item.arrived f i) items returned ∧
    (∀ i ∈ items.flatMap Item.containers, ∀ j ∈ items.flatMap Item.containers, f i = f j → i = j) ∧
    s.aux.typesRef = e.typesRef.keys ∧ s.aux.defRef = e.defRef ∧
    s.aux.valuesRef.length = e.valuesRef.size

/-! ### Items travel -/

namespace Item

/-- The item can be sent to a decoder that is up to date with the ledger. -/
def Departs (P : Platform) (J : Journey) (L : Ledger) : Item → Prop
  | primitive value => value.Portable P
  | message value => value.Departs P J L

/-- Enter what is sent with an item. -/
def send (L : Ledger) : Item → Ledger
  | primitive _ => L
  | message value => L.send value

end Item

/-- The items can be sent one after the other. -/
def ItemsDepart (P : Platform) (J : Journey) : Ledger → List Item → Prop
  | _, [] => True
  | L, i :: items => i.Departs P J L ∧ ItemsDepart P J (i.send L) items

/-- The containers of an object get the next numbers. -/
theorem Departs.numbers {o : Object} (h : Departs P J L [] o.walk) (hs : J.settled) :
    o.containers.map J.final.number = List.range' L.values.size o.containers.length := by
  have hkeys : (L.notes o.walk).values.keys = L.values.keys ++ o.containers := h.values_keys hs
  refine List.ext_getElem (by simp) fun k hk hk' => ?_
  rw [List.length_map] at hk
  have hat : (L.notes o.walk).values.keys[L.values.size + k]? = some o.containers[k] := by
    rw [hkeys, KeyTable.size, List.getElem?_append_right (Nat.le_add_right _ _),
      Nat.add_sub_cancel_left, List.getElem?_eq_getElem hk]
  have hnumber := KeyTable.number?_of_prefix h.within.values (KeyTable.number?_eq_some.2 hat)
  rw [List.getElem_map, List.getElem_range', Ledger.number, hnumber, Option.getD_some, Nat.one_mul]

/-- What is returned for an item is the item as it arrives. -/
theorem item_travels {i : Item} (hs : J.settled) (hd : i.Departs P J L) (hm : Mirrors P J L [] t) :
    ∃ bs r t', Lands P J (encodeItem P i) true (decodeItem P i) r L (i.send L) [] bs t t'
      i.containers.length ∧ r ≠ [] ∧ ∀ v ∈ r, v = i.arrived J.final.number := by
  cases i with
  | primitive p =>
    obtain ⟨bs, hland⟩ := Primitive.lands hd hm
    exact ⟨bs, _, t, hland.map fun v => [Item.primitive v], List.cons_ne_nil _ _,
      List.forall_mem_singleton.2 rfl⟩
  | message m =>
    obtain ⟨bs, r, t', hland, hr⟩ := message_travels hd hm
    refine ⟨bs, r.map .message, t', hland.map (List.map Item.message), ?_⟩
    cases m with
    | object o =>
      obtain ⟨value, rfl, hvalue⟩ := hr
      have hrename : value = o.received.rename J.final.number := by
        rw [hvalue (J.distinct_of_hashed (.inl hs)), hm.exact hs]
        refine Object.relocate_eq_rename ?_
        rw [Object.containers_received]
        exact Departs.numbers hd hs
      exact ⟨List.cons_ne_nil _ _, List.forall_mem_singleton.2 (hrename ▸ rfl)⟩
    | typeRef v =>
      refine ⟨fun h => hr.1 (List.map_eq_nil_iff.1 h), fun v hv => ?_⟩
      obtain ⟨m', hm', rfl⟩ := List.mem_map.1 hv
      exact congrArg Item.message (hr.2 m' hm')
    | definition d =>
      refine ⟨fun h => hr.1 (List.map_eq_nil_iff.1 h), fun v hv => ?_⟩
      obtain ⟨m', hm', rfl⟩ := List.mem_map.1 hv
      exact congrArg Item.message (hr.2 m' hm')

/-- **Items that can be sent one after the other are received**, and take both sides to the same
tables. -/
theorem items_travel (hs : J.settled) {items : List Item} : ∀ ⦃L t⦄, ItemsDepart P J L items →
    Mirrors P J L [] t → ∃ bs rs t', Lands P J (encodeItems P items) (items.map fun _ => true)
      (decodeItems P items) rs L (items.foldl (fun L i => i.send L) L) [] bs t t'
      (items.flatMap Item.containers).length ∧
      List.Forall₂ (fun i r => r ≠ [] ∧ ∀ v ∈ r, v = Item.arrived J.final.number i) items rs := by
  induction items with
  | nil =>
    intro L t _ hm
    exact ⟨[], [], t, ⟨.pure [] L, (reads_pure [] t).upTo, hm, rfl⟩, .nil⟩
  | cons i items ih =>
    intro L t hd hm
    obtain ⟨bs, r, t₁, hland, hr⟩ := item_travels hs hd.1 hm
    obtain ⟨cs, rs, t', hlands, hrs⟩ := ih hd.2 hland.mirrors
    refine ⟨bs ++ cs, r :: rs, t', ?_, .cons hr hrs⟩
    rw [List.flatMap_cons, List.length_append]
    exact hland.bind { hlands with
      emits := hlands.emits.bind_nil (.pure _ _)
      reads := hlands.reads.bind_nil (reads_pure (r :: rs) t').upTo }

/-! ### Sessions travel -/

/-- Only the messages are entered. -/
theorem foldl_send (items : List Item) (L : Ledger) :
    items.foldl (fun L i => i.send L) L = L.sends (messagesOf items) := by
  induction items generalizing L with
  | nil => rfl
  | cons i items ih =>
    rw [List.foldl_cons, ih]
    cases i <;> rfl

theorem flatMap_containers (items : List Item) :
    items.flatMap Item.containers = (messagesOf items).flatMap Message.containers := by
  induction items with
  | nil => rfl
  | cons i items ih =>
    rw [List.flatMap_cons, ih]
    cases i <;> rfl

/-- The items can be sent from any ledger that has none of their containers. -/
theorem itemsDepart_of_session {items : List Item} : ∀ {L : Ledger},
    (∀ p, .primitive p ∈ items → p.Portable P) → (∀ m ∈ messagesOf items, m.Portable P) →
    (∀ x ∈ (messagesOf items).flatMap Message.parts, x.KeysDistinct ∧ x.KeysSettled) →
    (L.values.keys ++ (messagesOf items).flatMap Message.containers).Nodup →
    L.Backward ((messagesOf items).flatMap Message.parts) →
    (L.sends (messagesOf items)).Prefix J.final → J.final.Fits → ¬ J.direct →
      ItemsDepart P J L items := by
  induction items with
  | nil => exact fun _ _ _ _ _ _ _ _ => trivial
  | cons i items ih =>
    intro L hprimitives hmessages hkeys hfresh hbackward hwithin hfits hdirect
    have hprimitives' : ∀ p, .primitive p ∈ items → p.Portable P := fun p hp =>
      hprimitives p (List.mem_cons_of_mem _ hp)
    cases i with
    | primitive p =>
      exact ⟨hprimitives p List.mem_cons_self, ih hprimitives' hmessages hkeys hfresh hbackward hwithin
        hfits hdirect⟩
    | message m =>
      have hcons : messagesOf (.message m :: items) = m :: messagesOf items := rfl
      rw [hcons] at hmessages hkeys hfresh hbackward hwithin
      rw [List.forall_mem_cons] at hmessages
      rw [List.flatMap_cons, List.forall_mem_append] at hkeys
      rw [List.flatMap_cons, ← List.append_assoc] at hfresh
      rw [List.flatMap_cons, Ledger.backward_append] at hbackward
      have hfirst := ((L.send m).prefix_sends (messagesOf items)).trans hwithin
      have hnew : (L.values.keys ++ m.containers).Nodup := (List.nodup_append.1 hfresh).1
      -- behind the message the ledger has its containers, and a name or a definition brings none
      have hbehind : (L.send m).Backward ((messagesOf items).flatMap Message.parts) := by
        cases m with
        | object o =>
          rw [Ledger.send_object]
          exact hbackward.2
        | typeRef v => exact hbackward.2.congr rfl
        | definition d => exact hbackward.2.congr rfl
      have hsent : (L.send m).values.keys = L.values.keys ++ m.containers :=
        KeyTable.keys_enterAll_of_nodup hnew
      refine ⟨?_, ih hprimitives' hmessages.2 hkeys.2 (hsent ▸ hfresh) hbehind hwithin hfits hdirect⟩
      cases m with
      | object o =>
        rw [Ledger.send_object] at hfirst
        exact
          { portable := hmessages.1
            backward := hbackward.1
            within := hfirst
            fits := fun _ _ _ => hfits.values
            distinct := fun _ x hx => (hkeys.1 x hx).1
            keys := fun _ x hx => ⟨(hkeys.1 x hx).2, fun i hi => absurd hi List.not_mem_nil⟩
            direct := fun h => absurd h hdirect
            fresh := fun _ => hnew }
      | typeRef v => exact ⟨hmessages.1, hfirst⟩
      | definition d => exact ⟨hmessages.1, hfirst⟩

/-- The journey of a session. -/
def Session.journey {items : List Item} (h : Session P items) : Journey where
  final := Ledger.empty.sends (messagesOf items)
  distinct := True
  settled := True
  direct := False
  types := h.fits.types
  defs := h.fits.defs
  distinct_of_hashed _ := trivial

theorem Session.departs {items : List Item} (h : Session P items) :
    ItemsDepart P h.journey .empty items :=
  itemsDepart_of_session h.primitives h.messages h.keys h.distinct h.backward (.refl _) h.fits id

/-- What a session sends is received. -/
theorem Session.delivers {items : List Item} (h : Session P items) (ht : t.New) : Delivers P items t := by
  obtain ⟨bs, rs, t', hland, hrs⟩ := items_travel trivial h.departs (ht.mirrors (P := P))
  rw [foldl_send] at hland
  have hencode := hland.emits [] [] []
  have hread := hland.reads.reads (fun e he => he.2 (.inl trivial)) (.ofList bs) []
    (List.append_nil _).symm
  have hkeys : (Ledger.empty.sends (messagesOf items)).values.keys =
      items.flatMap Item.containers := by
    rw [flatMap_containers, Ledger.sends_eq]
    exact KeyTable.keys_enterAll_of_nodup h.distinct
  refine ⟨_, rs, _, h.journey.final.number, hencode, hread, Nat.zero_add _, hrs, ?_,
    hland.mirrors.types, hland.mirrors.defs, ?_⟩
  · intro i hi j hj hij
    rw [← hkeys] at hi hj
    exact Ledger.number_inj hi hj hij
  · rw [hland.mirrors.values, List.length_range]
    exact hland.mirrors.exact trivial

/-- **Whatever types the calls are for, what is sent is received.**  For every sequence of calls of one
encoder, for values of all types, type names, definitions and objects that refer to each other across
the calls, the matching calls of a new decoder return the values that were sent. -/
theorem session_round_trip (P : Platform) (items : List Item) (h : Session P items) (t : Tables)
    (ht : t.New) : Delivers P items t := h.delivers ht

/-- A narrow integer, a map with the negative zero, a type name, an hour before 1970, a list with a
reference to the map, and an integer that needs 64 bits. -/
theorem session_round_trip_mixed : Delivers .simple [.primitive (.int8 (-1)),
    .message (.object (.untypedMap 8 [(.string [0x6b], .double 0x8000000000000000)])),
    .message (.typeRef [0x61]), .primitive (.duration .hours (-1)),
    .message (.object (.untypedList 9 [.ref 8])), .primitive (.uint32 0xffffffff)] .empty := by
  refine session_round_trip .simple _ ⟨?_, ?_, ?_, by decide, ?_, ⟨by decide, by decide, by decide⟩⟩
    .empty ⟨0, rfl⟩
  · intro p hp
    simp only [List.mem_cons, Item.primitive.injEq, reduceCtorEq, false_or, List.not_mem_nil,
      or_false] at hp
    obtain rfl | rfl | rfl := hp
    · trivial
    · exact ⟨IntegralType.holds_int64.2 (by decide), fun _ => IntegralType.holds_int32.2 (by decide)⟩
    · trivial
  · have hmap : ∀ x ∈ (Object.untypedMap 8 [(.string [0x6b], .double 0x8000000000000000)]).walk,
        x.Portable .simple := by
      simp only [Object.walk, Object.walkEntries, List.append_nil, List.cons_append, List.nil_append,
        List.forall_mem_cons]
      exact ⟨fun _ h => (by cases h), .letter rfl (by decide), trivial,
        fun _ h => absurd h List.not_mem_nil⟩
    have hlist : ∀ x ∈ (Object.untypedList 9 [.ref 8]).walk, x.Portable .simple := by
      simp only [Object.walk, Object.walkValues, List.append_nil, List.forall_mem_cons]
      exact ⟨⟨fun _ h => (by cases h), by decide⟩, trivial, fun _ h => absurd h List.not_mem_nil⟩
    exact List.forall_mem_cons.2 ⟨hmap, List.forall_mem_cons.2 ⟨.letter rfl (by decide),
      List.forall_mem_singleton.2 hlist⟩⟩
  · simp only [messagesOf, List.filterMap_cons, Item.message?, List.filterMap_nil, List.flatMap_cons,
      Message.parts, Object.walk, Object.walkEntries, Object.walkValues, List.flatMap_nil,
      List.append_nil, List.cons_append, List.nil_append, List.forall_mem_cons]
    exact ⟨⟨List.pairwise_singleton _ _, trivial⟩, ⟨trivial, trivial⟩, ⟨trivial, trivial⟩,
      ⟨trivial, trivial⟩, ⟨trivial, trivial⟩, fun _ h => absurd h List.not_mem_nil⟩
  · refine ⟨?_, ?_, ?_, ?_, ?_, trivial⟩ <;> rintro i ⟨⟩
    decide

end Hessian2
