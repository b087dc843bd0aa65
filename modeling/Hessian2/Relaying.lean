import Hessian2.Relocation
import Hessian2.Visiting

/-!
# Sending on what has arrived

* `Object.encode_received` : what arrives of an object is encoded as the object.
* `Item.visited_arrived` : what arrived in any order is what was sent in some order.
* `relay_exact` : **a program that receives a session and sends it on writes the same bytes**, up to the
  order of its maps.
* `sameBytes_iff` : **graphs are written as the same bytes exactly if they arrive as the same graphs**, up
  to their addresses.
-/

namespace Hessian2

open Parsing Parsing.Parser Enc

variable {P : Platform} {f g : ObjId → ObjId}

/-! ### Leaves -/

/-- The zeros are written alike. -/
theorem encodeDouble_unsignedZero (d : UInt64) : encodeDouble (Double.unsignedZero d) = encodeDouble d := by
  by_cases hd : d = 0x8000000000000000
  · subst hd
    rfl
  · rw [Double.unsignedZero_eq_self hd]

/-- A number of minutes that is cut off is written as what is left of it. -/
theorem timeBytes_received (ms : ℤ) : timeBytes (timeReceived ms) = timeBytes ms := by
  by_cases hd : (60000 : ℤ) ∣ ms
  · have hbytes (z : ℤ) : bigEndianBytes .int32 (IntegralType.int32.cast z) = bigEndianBytes .int32 z := by
      rw [bigEndianBytes, bigEndianBytes, IntegralType.cast_emod]
    rw [timeReceived, if_pos hd, timeBytes, timeBytes, if_pos hd, if_pos (Int.dvd_mul_right _ _),
      Int.mul_ediv_cancel_left _ (by decide), hbytes]
  · rw [timeReceived, if_neg hd]

theorem encodeMilliseconds_apply (v : Int64) (e : Encoder) :
    encodeMilliseconds v e = .ok (true, e.write (timeBytes v.toInt)) := by
  have hcount : DurationType.milliseconds.inMilliseconds v.toInt = v.toInt := Int.mul_one _
  have hfits : IntegralType.int64.Holds (DurationType.milliseconds.inMilliseconds v.toInt) := by
    rw [hcount]
    exact IntegralType.holds_int64.2 ⟨v.le_toInt, v.toInt_lt⟩
  have h := encodeDuration_writes .milliseconds hfits e
  rwa [hcount] at h

theorem encodeMilliseconds_received (v : Int64) :
    encodeMilliseconds (dateReceived v) = encodeMilliseconds v := by
  funext e
  have hholds : IntegralType.int64.Holds (timeReceived v.toInt) :=
    holds_timeReceived (IntegralType.holds_int64.2 ⟨v.le_toInt, v.toInt_lt⟩)
  rw [IntegralType.holds_int64] at hholds
  rw [encodeMilliseconds_apply, encodeMilliseconds_apply, dateReceived,
    Int64.toInt_ofInt_of_le hholds.1 hholds.2, timeBytes_received]

theorem Primitive.encode_arrived (p : Primitive) : p.arrived.encode P = p.encode P := by
  cases p with
  | double v => exact encodeDouble_unsignedZero v
  | _ => rfl

/-! ### Objects -/

namespace Object

theorem encodeValues_received {vs : List Object}
    (h : ∀ v ∈ vs, encodeObject P v.received = encodeObject P v) :
    encodeValues P (vs.map received) = encodeValues P vs := by
  induction vs with
  | nil => rfl
  | cons v vs ih =>
    rw [List.forall_mem_cons] at h
    rw [List.map_cons, encodeValues, encodeValues, h.1, ih h.2]

theorem encodeEntries_received {es : List (Object × Object)}
    (h : ∀ e ∈ es, encodeObject P e.1.received = encodeObject P e.1 ∧
      encodeObject P e.2.received = encodeObject P e.2) :
    encodeEntries P (es.map fun e => (e.1.received, e.2.received)) = encodeEntries P es := by
  induction es with
  | nil => rfl
  | cons e es ih =>
    rw [List.forall_mem_cons] at h
    rw [List.map_cons, encodeEntries, encodeEntries, h.1.1, h.1.2, ih h.2]

/-- **What arrives of an object is encoded as the object**, although it need not be the same: the bytes
say no more than what arrives. -/
theorem encode_received (o : Object) : encodeObject P o.received = encodeObject P o := by
  induction o using Object.induct with
  | double d => exact encodeDouble_unsignedZero d
  | date t => exact encodeMilliseconds_received t
  | list i t vs ih =>
    rw [received_list]
    cases t <;> simp only [encodeObject, encodeValues_received ih, List.length_map]
  | map i t es ih =>
    rw [received_map]
    cases t <;> simp only [encodeObject, encodeEntries_received ih]
  | classInstance i d vs ih =>
    rw [received_classInstance]
    simp only [encodeObject, encodeValues_received ih]
  | _ => rfl

/-! ### Addresses -/

theorem renameEntries_eq (f : ObjId → ObjId) :
    ∀ es, renameEntries f es = es.map fun e => (e.1.rename f, e.2.rename f)
  | [] => rfl
  | (k, v) :: es => by rw [renameEntries, renameEntries_eq f es, List.map_cons]

theorem rename_congr {o : Object} (hcontainers : ∀ i ∈ o.containers, f i = g i)
    (hrefs : ∀ i ∈ o.refs, f i = g i) : o.rename f = o.rename g := by
  induction o using Object.induct with
  | ref i => simp [rename, hrefs i (by simp [refs, walk, target?])]
  | list i t vs ih =>
    rw [containers_list, List.forall_mem_cons, List.forall_mem_flatMap] at hcontainers
    rw [refs_list, List.forall_mem_flatMap] at hrefs
    rw [rename, rename, renameValues_eq, renameValues_eq, hcontainers.1,
      List.map_congr_left fun v hv => ih v hv (hcontainers.2 v hv) (hrefs v hv)]
  | map i t es ih =>
    rw [containers_map, List.forall_mem_cons, List.forall_mem_flatMap] at hcontainers
    rw [refs_map, List.forall_mem_flatMap] at hrefs
    simp only [List.forall_mem_append] at hcontainers hrefs
    rw [rename, rename, renameEntries_eq, renameEntries_eq, hcontainers.1]
    congr 1
    refine List.map_congr_left fun e he => ?_
    rw [(ih e he).1 (hcontainers.2 e he).1 (hrefs e he).1, (ih e he).2 (hcontainers.2 e he).2 (hrefs e he).2]
  | classInstance i d vs ih =>
    rw [containers_classInstance, List.forall_mem_cons, List.forall_mem_flatMap] at hcontainers
    rw [refs_classInstance, List.forall_mem_flatMap] at hrefs
    rw [rename, rename, renameValues_eq, renameValues_eq, hcontainers.1,
      List.map_congr_left fun v hv => ih v hv (hcontainers.2 v hv) (hrefs v hv)]
  | _ => rfl

theorem received_rename (o : Object) : o.received.rename f = (o.rename f).received := by
  induction o using Object.induct with
  | list i t vs ih => simpa [rename, received, renameValues_eq] using ih
  | map i t es ih => simpa [rename, received, renameEntries_eq] using fun k v he => ih (k, v) he
  | classInstance i d vs ih => simpa [rename, received, renameValues_eq] using ih
  | _ => rfl

theorem rename_id (o : Object) : o.rename id = o := by
  induction o using Object.induct with
  | list i t vs ih => simpa [rename, renameValues_eq] using List.map_congr_left ih
  | map i t es ih =>
    have hes : es.map (fun e => (e.1.rename id, e.2.rename id)) = es :=
      (List.map_congr_left fun e he => Prod.ext (ih e he).1 (ih e he).2).trans es.map_id
    rw [rename, renameEntries_eq, hes, id]
  | classInstance i d vs ih => simpa [rename, renameValues_eq] using List.map_congr_left ih
  | _ => rfl

theorem containers_rename (f : ObjId → ObjId) (o : Object) :
    (o.rename f).containers = o.containers.map f := by
  induction o using Object.induct with
  | list i t vs ih =>
    rw [rename, renameValues_eq, containers_list, containers_list, List.flatMap_map,
      List.flatMap_congr ih, List.map_cons, List.map_flatMap]
  | map i t es ih =>
    rw [rename, renameEntries_eq, containers_map, containers_map, List.flatMap_map, List.map_cons,
      List.map_flatMap]
    congr 1
    refine List.flatMap_congr fun e he => ?_
    rw [(ih e he).1, (ih e he).2, List.map_append]
  | classInstance i d vs ih =>
    rw [rename, renameValues_eq, containers_classInstance, containers_classInstance, List.flatMap_map,
      List.flatMap_congr ih, List.map_cons, List.map_flatMap]
  | _ => rfl

theorem rename_rename (o : Object) : (o.rename f).rename g = o.rename (g ∘ f) := by
  induction o using Object.induct with
  | list i t vs ih => simpa [rename, renameValues_eq] using ih
  | map i t es ih => simpa [rename, renameEntries_eq] using fun k v he => ih (k, v) he
  | classInstance i d vs ih => simpa [rename, renameValues_eq] using ih
  | _ => rfl

end Object

theorem encodeItem_arrived (i : Item) : encodeItem P (i.arrived f) = encodeItem P (i.rename f) := by
  cases i with
  | primitive p => exact p.encode_arrived
  | message m =>
    cases m with
    | object o =>
      have hcomm : o.received.rename f = (o.rename f).received := Object.received_rename o
      rw [Item.arrived, Item.rename, encodeItem, encodeItem, encodeMessage, encodeMessage, hcomm,
        Object.encode_received]
    | typeRef v => rfl
    | definition d => rfl

/-- Items that are written alike one by one are written alike. -/
theorem encodeItems_congr {items items' : List Item}
    (h : List.Forall₂ (fun i i' => encodeItem P i = encodeItem P i') items items') :
    encodeItems P items = encodeItems P items' := by
  induction h with
  | nil => rfl
  | cons hi hitems ih => rw [encodeItems, encodeItems, hi, ih]

/-- Items of which each is among what one call returned are those that arrived. -/
theorem eq_map_arrived {items again : List Item} {returned : List (List Item)}
    (h : List.Forall₂ (fun i r => r ≠ [] ∧ ∀ v ∈ r, v = Item.arrived f i) items returned)
    (hagain : List.Forall₂ (fun v r => v ∈ r) again returned) : again = items.map (Item.arrived f) := by
  induction h generalizing again with
  | nil =>
    cases hagain
    rfl
  | cons hr hrs ih =>
    cases hagain with
    | cons hv hvs => rw [List.map_cons, hr.2 _ hv, ih hvs]

/-- Items that arrived are written as those that were sent. -/
theorem encodeItems_arrived (items : List Item) :
    encodeItems P (items.map (Item.arrived f)) = encodeItems P (items.map (Item.rename f)) := by
  refine encodeItems_congr ?_
  rw [List.forall₂_map_left_iff, List.forall₂_map_right_iff]
  exact List.forall₂_same.2 fun i _ => encodeItem_arrived i

/-! ### Items in any order -/

namespace Object

theorem recasts_rename (f : ObjId → ObjId) : Recasts f (rename f) where
  leaf o h := by cases o <;> first | rfl | cases h
  list i t vs := by rw [rename, renameValues_eq]
  map i t es := by rw [rename, renameEntries_eq]; rfl
  classInstance i d vs := by rw [rename, renameValues_eq]

theorem recasts_received : Recasts id received where
  leaf o h := by rwa [self?_received]
  list := received_list
  map := received_map
  classInstance := received_classInstance

end Object

namespace Item

/-- The item with the entries of its maps as they are visited. -/
def visited (w : VisitingOrder) : Item → Item
  | message (.object value) => message (.object (value.visited w))
  | i => i

/-- The order in which the maps that are sent are to be visited for what arrives to be visited in the
order `w`. -/
noncomputable def orderSent (w : VisitingOrder) (f : ObjId → ObjId) : VisitingOrder :=
  (w.along f (Object.rename f)).along id Object.received

theorem visited_arrived (w : VisitingOrder) (i : Item) :
    (i.arrived f).visited w = (i.visited (orderSent w f)).arrived f := by
  cases i with
  | primitive p => rfl
  | message m =>
    cases m with
    | object o =>
      simp only [arrived, visited]
      rw [(Object.recasts_rename f).visited, Object.recasts_received.visited]
      rfl
    | typeRef v => rfl
    | definition d => rfl

theorem addresses_visited (w : VisitingOrder) (i : Item) : (i.visited w).addresses.Perm i.addresses := by
  cases i with
  | primitive p => exact .refl _
  | message m =>
    cases m with
    | object o => exact (Object.containers_visited o).append (Object.refs_visited o)
    | typeRef v => exact .refl _
    | definition d => exact .refl _

end Item

/-- The addresses in the items are the same in any order. -/
theorem mem_addresses_visited {w : VisitingOrder} {items : List Item} {a : ObjId} :
    a ∈ (items.map (Item.visited w)).flatMap Item.addresses ↔ a ∈ items.flatMap Item.addresses := by
  rw [List.flatMap_map]
  exact (List.Perm.flatMap_left items fun i _ => i.addresses_visited w).mem_iff

/-! ### Sessions -/

/-- In a session, references point to what is sent. -/
theorem Session.addresses {items : List Item} (h : Session P items) :
    ∀ a ∈ items.flatMap Item.addresses, a ∈ items.flatMap Item.containers := by
  intro a ha
  obtain ⟨i, hi, ha⟩ := List.mem_flatMap.1 ha
  rcases i with p | o | v | d
  · cases ha
  · obtain ha | ha := List.mem_append.1 ha
    · exact List.mem_flatMap.2 ⟨_, hi, ha⟩
    · obtain ⟨x, hx, hxa⟩ := List.mem_filterMap.1 ha
      have hmem : x ∈ (messagesOf items).flatMap Message.parts :=
        List.mem_flatMap.2 ⟨.object o, List.mem_filterMap.2 ⟨_, hi, rfl⟩, hx⟩
      have hkeys := Ledger.mem_of_backward h.backward hmem hxa
      have hparts : (fun m : Message => m.parts.filterMap Object.self?) = Message.containers := by
        funext m
        cases m <;> rfl
      rw [Ledger.notes_eq, KeyTable.mem_keys_enterAll, List.filterMap_flatMap, hparts] at hkeys
      rw [flatMap_containers]
      exact hkeys.resolve_left List.not_mem_nil
  · cases ha
  · cases ha

/-- Items with the addresses of a session are written as the same bytes at other addresses. -/
theorem Session.written_rename {items items' : List Item} (h : Session P items)
    (hsame : ∀ a ∈ items'.flatMap Item.addresses, a ∈ items.flatMap Item.addresses)
    (hf : ∀ i ∈ items.flatMap Item.containers, ∀ j ∈ items.flatMap Item.containers, f i = f j → i = j) :
    written P (items'.map (Item.rename f)) = written P items' :=
  Hessian2.written_rename fun i hi j hj =>
    hf i (h.addresses i (hsame i hi)) j (h.addresses j (hsame j hj))

/-- **A relay is exact.**  A program that receives what was sent in a session, and sends on what each call
has returned, or any of the copies if there are more, writes the bytes that it has read if it visits the
entries of every map in the order in which they were read: although integers arrive in a wider type, zeros
without their sign, far dates cut off and containers at other addresses.  In any other order it writes
what the session is written as in some order of its maps, and stops where that stops. -/
theorem relay_exact (P : Platform) (items : List Item) (h : Session P items) (t : Tables) (ht : t.New) :
    ∃ bytes returned s, written P items = .ok (items.map fun _ => true, bytes) ∧
      decodeItems P items ⟨.ofList bytes, t⟩ = .ok returned s ∧ s.cursor.offset = bytes.length ∧
      returned.length = items.length ∧ (∀ r ∈ returned, r ≠ []) ∧
      ∀ again, List.Forall₂ (fun v r => v ∈ r) again returned →
        written P again = .ok (items.map fun _ => true, bytes) ∧
        ∀ w : VisitingOrder, ∃ w' : VisitingOrder,
          written P (again.map (Item.visited w)) = written P (items.map (Item.visited w')) := by
  obtain ⟨e, returned, s, f, hencode, hdecode, hend, hreturned, hf, -⟩ := h.delivers ht
  have hwritten : written P items = .ok (items.map fun _ => true, e.output) := by
    rw [written, hencode]
    rfl
  have hnonempty : ∀ r ∈ returned, r ≠ [] :=
    ((List.forall₂_and_left returned items).1 hreturned.flip).1
  refine ⟨e.output, returned, s, hwritten, hdecode, hend, hreturned.length_eq.symm, hnonempty,
    fun again hagain => ?_⟩
  obtain rfl := eq_map_arrived hreturned hagain
  have harrived (items : List Item) :
      written P (items.map (Item.arrived f)) = written P (items.map (Item.rename f)) := by
    rw [written, written, encodeItems_arrived]
  refine ⟨?_, fun w => ⟨Item.orderSent w f, ?_⟩⟩
  · calc written P (items.map (Item.arrived f))
        = written P (items.map (Item.rename f)) := harrived items
      _ = written P items := h.written_rename (fun _ ha => ha) hf
      _ = _ := hwritten
  · calc written P ((items.map (Item.arrived f)).map (Item.visited w))
        = written P ((items.map (Item.visited (Item.orderSent w f))).map (Item.arrived f)) := by
          rw [List.map_map, List.map_map]
          exact congrArg _ (List.map_congr_left fun i _ => i.visited_arrived w)
      _ = written P ((items.map (Item.visited (Item.orderSent w f))).map (Item.rename f)) := harrived _
      _ = _ := h.written_rename (fun _ ha => mem_addresses_visited.1 ha) hf

/-- Calls for objects. -/
def objectItems (os : List Object) : List Item := os.map fun o => .message (.object o)

/-- A map with a list of one double, and a reference to the list. -/
def shared (i j : ObjId) (d : UInt64) : Object :=
  .untypedMap i [(.integer 0, .untypedList j [.double d]), (.integer 1, .ref j)]

theorem walk_shared (i j : ObjId) (d : UInt64) : (shared i j d).walk =
    [shared i j d, .integer 0, .untypedList j [.double d], .double d, .integer 1, .ref j] := rfl

theorem parts_shared (i j : ObjId) (d : UInt64) :
    (messagesOf (objectItems [shared i j d])).flatMap Message.parts = (shared i j d).walk := rfl

theorem session_shared {i j : ObjId} (hij : i ≠ j) (d : UInt64) :
    Session .simple (objectItems [shared i j d]) where
  primitives p hp := by simp [objectItems] at hp
  messages := List.forall_mem_singleton.2 fun x hx => by
    have hx : x ∈ (shared i j d).walk := hx
    simp only [walk_shared, List.mem_cons, List.not_mem_nil, or_false] at hx
    obtain rfl | rfl | rfl | rfl | rfl | rfl := hx
    · exact fun s hs => by cases hs
    · trivial
    · exact ⟨fun s hs => (by cases hs), by simp⟩
    all_goals trivial
  keys := by
    simp only [parts_shared, walk_shared, List.forall_mem_cons]
    exact ⟨⟨List.pairwise_pair.2 rfl, trivial⟩, ⟨trivial, trivial⟩, ⟨trivial, trivial⟩,
      ⟨trivial, trivial⟩, ⟨trivial, trivial⟩, ⟨trivial, trivial⟩, fun _ h => absurd h List.not_mem_nil⟩
  distinct := by
    have hcontainers : (messagesOf (objectItems [shared i j d])).flatMap Message.containers = [i, j] := rfl
    rw [hcontainers, List.nodup_cons, List.mem_singleton]
    exact ⟨hij, List.nodup_singleton j⟩
  backward := by
    have hlist : j ∈ (Ledger.empty.notes [shared i j d, .integer 0, .untypedList j [.double d], .double d,
        .integer 1]).values.keys := Ledger.mem_values_notes.2 (.inr (by simp [Object.self?, shared]))
    rw [parts_shared, walk_shared]
    simp only [Ledger.backward_cons (x := shared i j d) rfl, Ledger.backward_cons (x := .integer _) rfl,
      Ledger.backward_cons (x := .untypedList j _) rfl, Ledger.backward_cons (x := .double d) rfl]
    refine ⟨fun k hk => ?_, trivial⟩
    obtain rfl : j = k := Option.some.inj hk
    exact hlist
  fits := by
    have hsize : ((.empty : KeyTable ObjId).enterAll [i, j]).size ≤ 0 + 2 := KeyTable.size_enterAll_le _ _
    exact ⟨Nat.zero_le _, Nat.zero_le _, hsize.trans (by decide)⟩

/-- The negative zero in a list with a second reference to it. -/
theorem relay_exact_zero : ∃ bytes returned s,
    written .simple (objectItems [shared 7 8 0x8000000000000000]) = .ok ([true], bytes) ∧
      decodeItems .simple (objectItems [shared 7 8 0x8000000000000000])
        ⟨.ofList bytes, .empty⟩ = .ok returned s ∧ s.cursor.offset = bytes.length ∧
      returned.length = 1 ∧ (∀ r ∈ returned, r ≠ []) ∧
      ∀ again, List.Forall₂ (fun v r => v ∈ r) again returned →
        written .simple again = .ok ([true], bytes) ∧
        ∀ w : VisitingOrder, ∃ w' : VisitingOrder, written .simple (again.map (Item.visited w)) =
          written .simple ((objectItems [shared 7 8 0x8000000000000000]).map (Item.visited w')) :=
  relay_exact .simple _ (session_shared (by decide) _) .empty ⟨0, rfl⟩

/-! ### Graphs with the same bytes -/

/-- The calls for objects are calls of `decode<Object>`. -/
theorem decodes_of_items {os : List Object} : ∀ {s s' : State UInt8 Tables} {returned : List (List Item)},
    decodeItems P (objectItems os) s = .ok returned s' →
      ∃ values, Decodes P s values s' ∧ returned = values.map fun v => [.message (.object v)] := by
  induction os with
  | nil =>
    rintro s s' returned ⟨⟩
    exact ⟨[], .nil s, rfl⟩
  | cons o os ih =>
    intro s s' returned h
    obtain ⟨r, s₁, hr, h⟩ := Parser.bind_eq_ok.1 h
    obtain ⟨rs, s₂, hrs, h⟩ := Parser.bind_eq_ok.1 h
    obtain ⟨m, s₃, hm, hr⟩ := Parser.bind_eq_ok.1 hr
    obtain ⟨value, s₄, hvalue, hm⟩ := Parser.bind_eq_ok.1 hm
    cases h
    cases hr
    cases hm
    obtain ⟨values, htail, rfl⟩ := ih hrs
    exact ⟨value :: values, .cons hvalue htail, rfl⟩

/-- At the end of the input nothing more is read. -/
theorem Decodes.eq_nil {s s' : State UInt8 Tables} {values : List Object} (h : Decodes P s values s')
    (hend : s.cursor.unread = []) : values = [] := by
  cases h with
  | nil => rfl
  | cons head tail =>
    rw [decodeObject_eq, ahead_of_nil hend] at head
    cases head

/-- Calls that read the same bytes to their end return the same. -/
theorem Decodes.unique {s s₁ s₂ : State UInt8 Tables} {values : List Object} (h₁ : Decodes P s values s₁)
    (hend₁ : s₁.cursor.unread = []) : ∀ {values' : List Object}, Decodes P s values' s₂ →
      s₂.cursor.unread = [] → values = values' := by
  induction h₁ with
  | nil s => exact fun h₂ _ => (h₂.eq_nil hend₁).symm
  | cons head tail ih =>
    intro values' h₂ hend₂
    cases h₂ with
    | nil => exact Decodes.eq_nil (.cons head tail) hend₂
    | cons head' tail' =>
      rw [head] at head'
      cases head'
      rw [ih hend₁ tail' hend₂]

theorem Decodes.before {s s' : State UInt8 Tables} {values : List Object} (h : Decodes P s values s') :
    s.cursor.Before s'.cursor := by
  induction h with
  | nil s => exact .refl _
  | cons head tail ih => exact ((decodeObject_tame (P := P) (N := 0)).delimited.before head).trans ih

/-- Graphs of a session come back at other addresses, and nothing is left over. -/
theorem Session.decodes {os : List Object} (h : Session P (objectItems os)) : ∃ bytes values s,
    written P (objectItems os) = .ok (os.map fun _ => true, bytes) ∧
      Decodes P ⟨.ofList bytes, .empty⟩ values s ∧ s.cursor.unread = [] ∧
      Isomorphic (os.map Object.received) values := by
  obtain ⟨e, returned, s, f, hencode, hdecode, hend, hreturned, hf, -⟩ := h.delivers (t := .empty) ⟨0, rfl⟩
  obtain ⟨values, hvalues, rfl⟩ := decodes_of_items hdecode
  refine ⟨e.output, values, s, ?_, hvalues, ?_, f, ?_, ?_⟩
  · rw [written, hencode, objectItems, List.map_map]
    rfl
  · have hunread := s.cursor.length_unread
    rw [hvalues.before.1, hend] at hunread
    exact List.length_eq_zero_iff.1 (hunread.trans (Nat.sub_self _))
  · simpa [objectItems, Item.containers, Message.containers, List.flatMap_map] using hf
  · rw [objectItems, List.forall₂_map_left_iff, List.forall₂_map_right_iff] at hreturned
    have hsame : List.Forall₂ (· = ·) (os.map fun o => o.received.rename f) values :=
      List.forall₂_map_left_iff.2 (hreturned.imp fun o v hv => by
        have harrived := hv.2 _ (List.mem_singleton_self _)
        rw [Item.arrived, Item.message.injEq, Message.object.injEq] at harrived
        exact harrived.symm)
    rw [List.forall₂_eq_eq_eq] at hsame
    rw [← hsame, List.map_map]
    rfl

/-- What arrives of graphs is written as the graphs. -/
theorem written_received (os : List Object) :
    written P (objectItems (os.map Object.received)) = written P (objectItems os) := by
  rw [written, written, encodeItems_congr]
  rw [objectItems, objectItems, List.map_map, List.forall₂_map_left_iff, List.forall₂_map_right_iff]
  exact List.forall₂_same.2 fun o _ => o.encode_received

/-- Graphs that arrive as the same, up to their addresses, are written as the same bytes. -/
theorem Session.written_isomorphic {os os' : List Object} (h : Session P (objectItems os))
    (hiso : Isomorphic (os.map Object.received) (os'.map Object.received)) :
    written P (objectItems os') = written P (objectItems os) := by
  obtain ⟨f, hf, hsame⟩ := hiso
  have hcontainers : (objectItems os).flatMap Item.containers =
      (os.map Object.received).flatMap Object.containers := by
    simp [objectItems, List.flatMap_map, Item.containers, Message.containers]
  have hrenamed : os'.map Object.received = (os.map (Object.rename f)).map Object.received := by
    rw [hsame, List.map_map, List.map_map]
    exact List.map_congr_left fun o _ => o.received_rename
  have hitems : objectItems (os.map (Object.rename f)) = (objectItems os).map (Item.rename f) := by
    simp [objectItems, Item.rename]
  rw [← written_received, hrenamed, written_received, hitems,
    h.written_rename (fun _ ha => ha) (hcontainers ▸ hf)]

/-- Graphs with a common copy are isomorphic. -/
theorem Isomorphic.of_common {os os' values : List Object} (h : Isomorphic os values)
    (h' : Isomorphic os' values)
    (hrefs : ∀ i ∈ os'.flatMap Object.refs, i ∈ os'.flatMap Object.containers) : Isomorphic os os' := by
  obtain ⟨f, hf, rfl⟩ := h
  obtain ⟨f', hf', hvalues⟩ := h'
  have hinj : Set.InjOn f' {i | i ∈ os'.flatMap Object.containers} := fun i hi j hj => hf' i hi j hj
  let back := Function.invFunOn f' {i | i ∈ os'.flatMap Object.containers}
  have hback : ∀ i ∈ os'.flatMap Object.containers, back (f' i) = i := hinj.leftInvOn_invFunOn
  -- the containers of the common copy are those of both sides
  have hcontainers : (os.flatMap Object.containers).map f = (os'.flatMap Object.containers).map f' := by
    have h := congrArg (List.flatMap Object.containers) hvalues
    simpa only [List.flatMap_map, Object.containers_rename, List.map_flatMap] using h
  refine ⟨back ∘ f, fun i hi j hj hij => hf i hi j hj ?_, ?_⟩
  · have hcommon : ∀ i ∈ os.flatMap Object.containers, f' (back (f i)) = f i := by
      intro i hi
      obtain ⟨k, hk, hki⟩ := List.mem_map.1 (hcontainers ▸ List.mem_map_of_mem (f := f) hi)
      rw [← hki, hback k hk]
    rw [← hcommon i hi, ← hcommon j hj]
    exact congrArg f' hij
  · calc os' = os'.map (Object.rename (back ∘ f')) := by
          refine (List.map_id os').symm.trans (List.map_congr_left fun o ho => ?_)
          refine (Object.rename_id o).symm.trans (Object.rename_congr (fun i hi => ?_) fun i hi => ?_)
          · exact (hback i (List.mem_flatMap.2 ⟨o, ho, hi⟩)).symm
          · exact (hback i (hrefs i (List.mem_flatMap.2 ⟨o, ho, hi⟩))).symm
      _ = (os'.map (Object.rename f')).map (Object.rename back) := by simp [Object.rename_rename]
      _ = (os.map (Object.rename f)).map (Object.rename back) := by rw [hvalues]
      _ = os.map (Object.rename (back ∘ f)) := by simp [Object.rename_rename]

/-- **Graphs are written as the same bytes exactly if they arrive as the same graphs**, up to the addresses
of their containers: the bytes determine the values, the names, the order of the entries and which
references point to which container, and nothing else is in them. -/
theorem sameBytes_iff (P : Platform) (os os' : List Object) (h : Session P (objectItems os))
    (h' : Session P (objectItems os')) :
    (written P (objectItems os)).map Prod.snd = (written P (objectItems os')).map Prod.snd ↔
      Isomorphic (os.map Object.received) (os'.map Object.received) := by
  obtain ⟨bytes, values, s, hwritten, hvalues, hend, hiso⟩ := h.decodes
  obtain ⟨bytes', values', s', hwritten', hvalues', hend', hiso'⟩ := h'.decodes
  constructor
  · intro hsame
    rw [hwritten, hwritten'] at hsame
    obtain rfl : bytes = bytes' := Except.ok.inj hsame
    obtain rfl := hvalues.unique hend hvalues' hend'
    refine hiso.of_common hiso' ?_
    have haddresses := h'.addresses
    simp only [objectItems, List.flatMap_map, Item.containers, Message.containers, Item.addresses] at haddresses
    simp only [List.flatMap_map, Object.refs_received, Object.containers_received]
    intro i hi
    obtain ⟨o, ho, hi⟩ := List.mem_flatMap.1 hi
    exact haddresses i (List.mem_flatMap.2 ⟨o, ho, List.mem_append_right _ hi⟩)
  · intro hiso
    rw [h.written_isomorphic hiso]

/-- A zero and the negative zero, in lists at different addresses with references to them. -/
theorem sameBytes_zeros :
    (written .simple (objectItems [shared 7 8 0])).map Prod.snd =
        (written .simple (objectItems [shared 9 5 0x8000000000000000])).map Prod.snd ↔
      Isomorphic ([shared 7 8 0].map Object.received)
        ([shared 9 5 0x8000000000000000].map Object.received) :=
  sameBytes_iff .simple _ _ (session_shared (by decide) _) (session_shared (by decide) _)

end Hessian2
