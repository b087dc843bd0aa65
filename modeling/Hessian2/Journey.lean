import Hessian2.Copies
import Hessian2.JavaString
import Hessian2.Names

/-!
# What travels, and what it needs

The conditions under which an object is sent and read back, and how the decoder keeps up with the
encoder on the way.

* `Object.Portable` : what is sent for an object alone comes back.
* `Object.KeysDistinct`, `Object.KeysSettled` : the keys of a map stay different, and have a hash
  when they are inserted.
* `Journey` : what is asked of a conversation.
* `Departs` : objects that can be sent, one after the other.
* `Mirrors` : a decoder that has read what is in the ledger.
* `Mirrors.allocate`, `Mirrors.finish`, `Mirrors.emplace` : what a decoder does on the way.
-/

namespace Hessian2

open Parsing Parsing.Parser Enc

/-- The strings of a definition are sent unaltered, and the number of its fields is an
`int32_t`. -/
structure RawDefinition.Intact (P : Platform) (d : RawDefinition) : Prop where
  type : Hessian2.Intact P d.type
  fieldNames : ∀ s ∈ d.fieldNames, Hessian2.Intact P s
  length : d.fieldNames.length < 2 ^ 31

theorem RawDefinition.Intact.sent {P : Platform} {d : RawDefinition} (h : d.Intact P) : d.Sent P :=
  ⟨h.type.carries, fun s hs => (h.fieldNames s hs).carries, h.length⟩

namespace Object

/-- What is sent for the object alone comes back as it was sent: its strings are sent unaltered, its
sizes are numbers of the widths on the wire, and an instance has as many values as fields. -/
def Portable (P : Platform) : Object → Prop
  | .string s => Intact P s
  | .binary b => b.length < 2 ^ 32
  | .list _ t vs => (∀ s, t = some s → Intact P s) ∧ vs.length < 2 ^ 31
  | .map _ t _ => ∀ s, t = some s → Intact P s
  | .classInstance _ d vs => d.Intact P ∧ vs.length = d.fieldNames.length
  | _ => True

/-- The keys of a map are different when they arrive. -/
def KeysDistinct : Object → Prop
  | .map _ _ es => es.Pairwise fun e e' => e.1.received.equal e'.1.received = false
  | _ => True

/-- The targets of the references among the keys of a map. -/
def keyTargets : Object → List ObjId
  | .map _ _ es => es.filterMap fun e => e.1.target?
  | _ => []

/-- No map in an instance has a reference to the instance as a key. -/
def KeysSettled : Object → Prop
  | .classInstance i _ vs => ∀ y ∈ vs.flatMap walk, i ∉ y.keyTargets
  | _ => True

end Object

/-- What is asked of a conversation. -/
structure Journey where
  /-- The ledger at the end of it. -/
  final : Ledger
  /-- Every map is to arrive with all its entries. -/
  distinct : Prop
  /-- Every key is to have a hash when it is inserted, the references among them included. -/
  settled : Prop
  /-- No key is to be a reference. -/
  direct : Prop
  types : final.types.size ≤ 2 ^ 15
  defs : final.defs.size ≤ 2 ^ 15
  distinct_of_hashed : settled ∨ direct → distinct

/-- The objects can be sent in this order to a decoder that is up to date with the ledger.  The
instances in `busy` are being sent. -/
structure Departs (P : Platform) (J : Journey) (L : Ledger) (busy : List ObjId)
    (xs : List Object) : Prop where
  portable : ∀ x ∈ xs, x.Portable P
  backward : L.Backward xs
  within : (L.notes xs).Prefix J.final
  fits : ∀ x ∈ xs, x.target? ≠ none → J.final.values.size ≤ 2 ^ 15
  distinct : J.distinct → ∀ x ∈ xs, x.KeysDistinct
  keys : J.settled → ∀ x ∈ xs, x.KeysSettled ∧ ∀ i ∈ busy, i ∉ x.keyTargets
  direct : J.direct → ∀ x ∈ xs, x.keyTargets = []
  fresh : J.settled → (L.values.keys ++ xs.filterMap Object.self?).Nodup

/-- The decoder has read what is in the ledger.  Under the strict conditions the containers live
where their numbers say, and all of them but the instances in `busy` have a hash. -/
structure Mirrors (P : Platform) (J : Journey) (L : Ledger) (busy : List ObjId) (t : Tables) :
    Prop where
  types : t.typesRef = L.types.keys
  defs : t.defRef = L.defs.keys
  values : t.valuesRef = List.range t.heap.length
  size : L.values.size ≤ t.heap.length
  exact : J.settled → t.heap.length = L.values.size
  cells : J.settled → ∀ i ∈ L.values.keys, i ∉ busy →
    ∃ cell, t.heap[L.number i]? = some cell ∧ cell.hash P ≠ none

variable {P : Platform} {J : Journey} {L : Ledger} {busy : List ObjId} {xs ys : List Object}
  {t : Tables}

namespace Departs

theorem append_left (h : Departs P J L busy (xs ++ ys)) : Departs P J L busy xs where
  portable x hx := h.portable x (List.mem_append_left _ hx)
  backward := (Ledger.backward_append.1 h.backward).1
  within := by
    have hw := h.within
    rw [Ledger.notes_append] at hw
    exact (Ledger.prefix_notes _ ys).trans hw
  fits x hx := h.fits x (List.mem_append_left _ hx)
  distinct hd x hx := h.distinct hd x (List.mem_append_left _ hx)
  keys hs x hx := h.keys hs x (List.mem_append_left _ hx)
  direct hs x hx := h.direct hs x (List.mem_append_left _ hx)
  fresh hs := by
    have hf := h.fresh hs
    rw [List.filterMap_append, ← List.append_assoc] at hf
    exact (List.nodup_append.1 hf).1

/-- The containers that have been sent in between. -/
theorem values_keys (h : Departs P J L busy xs) (hs : J.settled) :
    (L.notes xs).values.keys = L.values.keys ++ xs.filterMap Object.self? := by
  rw [Ledger.notes_eq]
  exact KeyTable.keys_enterAll_of_nodup (h.fresh hs)

theorem append_right (h : Departs P J L busy (xs ++ ys)) : Departs P J (L.notes xs) busy ys where
  portable x hx := h.portable x (List.mem_append_right _ hx)
  backward := (Ledger.backward_append.1 h.backward).2
  within := by
    have hw := h.within
    rwa [Ledger.notes_append] at hw
  fits x hx := h.fits x (List.mem_append_right _ hx)
  distinct hd x hx := h.distinct hd x (List.mem_append_right _ hx)
  keys hs x hx := h.keys hs x (List.mem_append_right _ hx)
  direct hs x hx := h.direct hs x (List.mem_append_right _ hx)
  fresh hs := by
    have hf := h.fresh hs
    rwa [List.filterMap_append, ← List.append_assoc, ← h.append_left.values_keys hs] at hf

/-- Behind the first object. -/
theorem tail {x : Object} (h : Departs P J L busy (x :: xs)) : Departs P J (L.note x) busy xs :=
  append_right (show Departs P J L busy ([x] ++ xs) from h)

/-- The targets of the references have numbers in the end. -/
theorem refs_mem (h : Departs P J L busy xs) {x : Object} (hx : x ∈ xs) {i : ObjId}
    (hi : x.target? = some i) : i ∈ J.final.values.keys :=
  h.within.values.subset (Ledger.mem_of_backward h.backward hx hi)

/-- The target of a reference has been sent. -/
theorem target_mem {o : Object} (h : Departs P J L busy (o.walk ++ xs)) {i : ObjId}
    (hi : o.target? = some i) : i ∈ L.values.keys := by
  cases o with
  | ref j => exact h.backward.1 i hi
  | _ => cases hi

/-- A container is sent for the first time. -/
theorem new {x : Object} {i : ObjId} (h : Departs P J L busy (x :: xs)) (hi : x.self? = some i)
    (hs : J.settled) : i ∉ L.values.keys := by
  have hf := h.fresh hs
  rw [List.filterMap_cons_some hi] at hf
  exact fun hmem => List.disjoint_of_nodup_append hf hmem List.mem_cons_self

/-- The numbers of the names fit. -/
theorem numbers_le {x : Object} (h : Departs P J L busy (x :: xs)) :
    (L.note x).types.size ≤ 2 ^ 15 ∧ (L.note x).defs.size ≤ 2 ^ 15 := by
  have hgrows := (Ledger.prefix_notes (L.note x) xs).trans h.within
  exact ⟨hgrows.types.length_le.trans J.types, hgrows.defs.length_le.trans J.defs⟩

/-- Inside an instance. -/
theorem inside {i : ObjId} {d : RawDefinition} {vs : List Object}
    (h : Departs P J L busy (.classInstance i d vs :: vs.flatMap Object.walk)) :
    Departs P J (L.note (.classInstance i d vs)) (i :: busy) (vs.flatMap Object.walk) :=
  { h.tail with
    keys := fun hs x hx => ⟨(h.tail.keys hs x hx).1, List.forall_mem_cons.2
      ⟨(h.keys hs _ List.mem_cons_self).1 x hx, (h.tail.keys hs x hx).2⟩⟩ }

/-- Objects without references can be sent if what is sent for each alone comes back. -/
theorem of_target?_eq_none (hs : ¬ J.settled) (hwithin : (L.notes xs).Prefix J.final)
    (hparts : ∀ x ∈ xs, x.Portable P ∧ x.KeysDistinct) (htarget : ∀ x ∈ xs, x.target? = none)
    (hwalk : ∀ x ∈ xs, ∀ y ∈ x.walk, y ∈ xs) : Departs P J L busy xs where
  portable x hx := (hparts x hx).1
  backward := by
    clear hwithin hparts hwalk
    induction xs generalizing L with
    | nil => trivial
    | cons x xs ih =>
      rw [List.forall_mem_cons] at htarget
      exact ⟨fun i hi => (Option.some_ne_none i (hi ▸ htarget.1)).elim, ih htarget.2⟩
  within := hwithin
  fits x hx hne := absurd (htarget x hx) hne
  distinct _ x hx := (hparts x hx).2
  keys hs' := absurd hs' hs
  fresh hs' := absurd hs' hs
  direct _ x hx := by
    cases x with
    | map i u es =>
      refine List.filterMap_eq_nil_iff.2 fun e he => htarget _ (hwalk _ hx _ ?_)
      rw [Object.walk_map, List.mem_cons, List.mem_flatMap]
      exact .inr ⟨e, he, List.mem_append_left _ e.1.mem_walk_self⟩
    | _ => rfl

end Departs

/-! ### What the decoder does -/

/-- The number of a container that is entered. -/
theorem number_enter {i : ObjId} (h : i ∉ L.values.keys) :
    (Ledger.mk L.types L.defs (L.values.enter i)).number i = L.values.size := by
  rw [Ledger.number, KeyTable.number?_enter_of_notMem h]
  rfl

@[simp] theorem Tables.length_heap_started (t : Tables) (kind : ContainerKind) :
    (t.started kind).heap.length = t.heap.length + 1 := List.length_append

namespace Mirrors

theorem enterType (h : Mirrors P J L busy t) (v : Bytes) :
    Mirrors P J ⟨L.types.enter v, L.defs, L.values⟩ busy
      { t with typesRef := (L.types.enter v).keys } where
  types := rfl
  defs := h.defs
  values := h.values
  size := h.size
  exact := h.exact
  cells := h.cells

theorem enterDef (h : Mirrors P J L busy t) (d : RawDefinition) :
    Mirrors P J ⟨L.types, L.defs.enter d, L.values⟩ busy
      { t with defRef := (L.defs.enter d).keys } where
  types := h.types
  defs := rfl
  values := h.values
  size := h.size
  exact := h.exact
  cells := h.cells

/-- Notes and the static variable are not mirrored. -/
theorem note (h : Mirrors P J L busy t) (events : List Event) (static : UInt64) :
    Mirrors P J L busy { t with events := events, binaryHash := static } where
  types := h.types
  defs := h.defs
  values := h.values
  size := h.size
  exact := h.exact
  cells := h.cells

/-- A container is created, which has no hash yet only if it is an instance. -/
theorem allocate (h : Mirrors P J L busy t) (kind : ContainerKind) {i : ObjId} {busy' : List ObjId}
    (hnew : J.settled → i ∉ L.values.keys) (hsub : ∀ j ∈ busy, j ∈ busy')
    (hkind : i ∈ busy' ∨ (Cell.started kind).hash P ≠ none) :
    Mirrors P J ⟨L.types, L.defs, L.values.enter i⟩ busy' (t.started kind) where
  types := h.types
  defs := h.defs
  values := by
    rw [Tables.length_heap_started, List.range_succ, ← h.values]
    rfl
  size := by
    have hle := h.size
    have hstep : (L.values.enter i).size ≤ L.values.size + 1 := by
      by_cases hi : i ∈ L.values.keys
      · rw [KeyTable.enter_of_mem hi]
        omega
      · rw [KeyTable.size_enter_of_notMem hi]
    rw [Tables.length_heap_started]
    exact hstep.trans (Nat.succ_le_succ hle)
  exact hs := by
    rw [KeyTable.size_enter_of_notMem (hnew hs), ← h.exact hs, Tables.length_heap_started]
  cells hs j hj hbusy := by
    rcases KeyTable.mem_keys_enter.1 hj with hj | rfl
    · obtain ⟨cell, hcell, hhash⟩ := h.cells hs j hj fun hb => hbusy (hsub j hb)
      have hgrows : L.Prefix ⟨L.types, L.defs, L.values.enter i⟩ :=
        ⟨List.prefix_rfl, List.prefix_rfl, L.values.prefix_enter i⟩
      refine ⟨cell, ?_, hhash⟩
      rw [(Ledger.number_eq hgrows hj).1, Tables.started,
        List.getElem?_append_left (List.getElem?_eq_some_iff.1 hcell).1, hcell]
    · refine ⟨.started kind, ?_, hkind.resolve_left hbusy⟩
      rw [number_enter (hnew hs), ← h.exact hs]
      exact List.getElem?_concat_length

/-- A container is created that the encoder has no number for. -/
theorem create (h : Mirrors P J L busy t) (hs : ¬ J.settled) (kind : ContainerKind) :
    Mirrors P J L busy (t.started kind) where
  types := h.types
  defs := h.defs
  values := by
    rw [Tables.length_heap_started, List.range_succ, ← h.values]
    rfl
  size := by
    rw [Tables.length_heap_started]
    exact h.size.trans (Nat.le_succ _)
  exact hs' := absurd hs' hs
  cells hs' := absurd hs' hs

/-- A container gets its contents. -/
theorem finish (h : Mirrors P J L busy t) (n : ℕ) {r : ObjId} (contents : Object)
    (hself : contents.self? = some r) {busy' : List ObjId}
    (hbusy : J.settled → ∀ j ∈ busy, j ∉ busy' → L.number j = n ∧ n < t.heap.length) :
    Mirrors P J L busy' { t with heap := t.heap.set n (.finished contents) } where
  types := h.types
  defs := h.defs
  values := by simp only [h.values, List.length_set]
  size := by simpa only [List.length_set] using h.size
  exact hs := by simpa only [List.length_set] using h.exact hs
  cells hs j hj hj' := by
    have hfinished := Cell.hash_finished P hself
    by_cases hb : j ∈ busy
    · obtain ⟨hn, hlt⟩ := hbusy hs j hb hj'
      exact ⟨.finished contents, by rw [hn, List.getElem?_set_self hlt], hfinished⟩
    · obtain ⟨cell, hcell, hhash⟩ := h.cells hs j hj hb
      by_cases hn : n = L.number j
      · rw [← hn] at hcell ⊢
        exact ⟨.finished contents,
          List.getElem?_set_self (List.getElem?_eq_some_iff.1 hcell).1, hfinished⟩
      · exact ⟨cell, by rw [List.getElem?_set_ne hn, hcell], hhash⟩

/-- Something happens to the contents of containers. -/
theorem disturb (h : Mirrors P J L busy t) (hs : ¬ J.settled) {t' : Tables}
    (htypes : t'.typesRef = t.typesRef) (hdefs : t'.defRef = t.defRef)
    (hvalues : t'.valuesRef = t.valuesRef) (hheap : t'.heap.length = t.heap.length) :
    Mirrors P J L busy t' where
  types := htypes.trans h.types
  defs := hdefs.trans h.defs
  values := by rw [hvalues, h.values, hheap]
  size := hheap ▸ h.size
  exact hs' := absurd hs' hs
  cells hs' := absurd hs' hs

end Mirrors

/-- The faults that are excused: a key without a hash. -/
def Journey.Excuses (J : Journey) (e : Fault) : Prop := e = .undefinedHash ∧ ¬ (J.settled ∨ J.direct)

theorem length_destroy (t : Tables) (ids : List ObjId) :
    (t.destroy ids).heap.length = t.heap.length := List.length_mapIdx

/-- An insertion into a hash map stores the pair if its key is different from the others. -/
theorem Mirrors.emplace (h : Mirrors P J L busy t) (self : ObjId) (slots : List Slot)
    (key value : Object) (hhash : J.settled ∨ J.direct → key.hash P t.heap t.binaryHash ≠ none)
    (hkeys : J.distinct → ∀ s ∈ slots, s.key.equal key = false) :
    ∃ slots' t', ReadsUpTo J.Excuses (Dec.emplace P self slots key value) t [] slots' t' ∧
      Mirrors P J L busy t' ∧ t'.heap.length = t.heap.length ∧
      (J.distinct → ∃ hash, slots' = slots ++ [⟨hash, key, value⟩]) := by
  cases hk : key.hash P t.heap t.binaryHash with
  | none =>
    have hfault (c : Cursor UInt8) : Dec.emplace P self slots key value ⟨c, t⟩ =
        .fault .undefinedHash ⟨c, { t with
          events := t.events ++ [.insertion ⟨self, key, value, t.heap, t.binaryHash, false⟩] }⟩ := by
      rw [Dec.emplace, bind_apply, aux_apply, Outcome.ok_andThen, hk]
      rfl
    exact ⟨slots ++ [⟨0, key, value⟩], t, fun c _ _ => .inr ⟨.undefinedHash, _,
      ⟨rfl, fun hs => hhash hs hk⟩, hfault c⟩, h, rfl, fun _ => ⟨0, rfl⟩⟩
  | some r =>
    obtain ⟨hash, static⟩ := r
    cases hstored : !findsKey slots hash key with
    | true =>
      refine ⟨slots ++ [⟨hash, key, value⟩], _, Reads.upTo ?_,
        h.note (t.events ++ [.insertion ⟨self, key, value, t.heap, t.binaryHash, true⟩]) static, rfl,
        fun _ => ⟨hash, rfl⟩⟩
      rw [Dec.emplace]
      refine (reads_aux t).bind_nil ?_
      rw [hk]
      dsimp only
      rw [hstored]
      exact (reads_modifyAux _ t).bind_nil ((reads_modifyAux _ _).bind_nil (reads_pure _ _))
    | false =>
      -- the pair is not stored, so there is an equal key
      have hdrop : ¬ J.distinct := by
        intro hd
        have hnone : findsKey slots hash key = false := by
          rw [findsKey, List.any_eq_false]
          intro s hs
          rw [hkeys hd s hs, Bool.and_false]
          exact Bool.false_ne_true
        rw [hnone] at hstored
        cases hstored
      refine ⟨slots, Tables.destroy { t with
          events := t.events ++ [.insertion ⟨self, key, value, t.heap, t.binaryHash, false⟩],
          binaryHash := static } (key.containers ++ value.containers), Reads.upTo ?_,
        h.disturb (fun hs => hdrop (J.distinct_of_hashed (.inl hs))) rfl rfl rfl (length_destroy _ _),
        length_destroy _ _, fun hd => absurd hd hdrop⟩
      rw [Dec.emplace]
      refine (reads_aux t).bind_nil ?_
      rw [hk]
      dsimp only
      rw [hstored]
      exact (reads_modifyAux _ t).bind_nil ((reads_modifyAux _ _).bind_nil
        ((reads_modifyAux _ _).bind_nil (reads_pure _ _)))

/-- A key has a hash when it arrives if it is no reference, or its target has one. -/
theorem hash_relocate_ne_none {f : ObjId → ObjId} {n : ObjId} {k : Object} {heap : Heap}
    {static : UInt64} (h : ∀ i, k.target? = some i →
      ∃ cell, heap[f i]? = some cell ∧ cell.hash P ≠ none) :
    (k.received.relocate f n).hash P heap static ≠ none := by
  cases k with
  | ref i =>
    obtain ⟨cell, hcell, hhash⟩ := h i rfl
    have hr : (Object.ref i).received.relocate f n = .ref (f i) := rfl
    rw [hr, Object.hash, hcell, Option.bind_some]
    simpa using hhash
  | binary b =>
    have hb : (Object.binary b).received.relocate f n = .binary b := rfl
    rw [hb, Object.hash]
    split <;> exact Option.some_ne_none _
  | _ => exact Option.some_ne_none _

end Hessian2
