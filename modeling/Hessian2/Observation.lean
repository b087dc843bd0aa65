import Hessian2.Inspection
import Hessian2.Lookup
import Hessian2.Relaying

/-!
# What a program sees of received objects

Received objects live at other addresses than those that were sent, and a program that only looks at them
cannot tell.

* `Object.equalAs_rename`, `Object.hash_rename`, `Object.toDebugString_rename` : what the methods of an
  object return for a copy at other addresses.
* `Filled.get_some_iff` : what `get` returns, by the entries of the map.
* `LookAlike` : objects and their copies look the same.
* `Object.Moved.visited` : copies in any order are copies of objects in some order.
* `received_alike` : **objects look the same before and behind the wire**, in whatever order maps are visited.
-/

namespace Hessian2

open Parsing Parsing.Parser NodeMap

variable {P : Platform} {F : Formats} {f g : ObjId → ObjId}

/-- Addresses are written as those that `f` says. -/
def Formats.moved (F : Formats) (f : ObjId → ObjId) : Formats := { F with pointer := F.pointer ∘ f }

/-- The container with the entries of the maps in it as they are visited. -/
def Cell.visited (w : VisitingOrder) : Cell → Cell
  | finished contents => finished (contents.visited w)
  | c => c

namespace Object

/-! ### Equality -/

theorem relocateValues_rename {vs : List Object}
    (ih : ∀ v ∈ vs, ∀ n, (v.rename f).relocate g n = v.relocate (g ∘ f) n) : ∀ n,
    relocateValues g n (vs.map (rename f)) = relocateValues (g ∘ f) n vs := by
  induction vs with
  | nil => exact fun _ => rfl
  | cons v vs ihvs =>
    intro n
    rw [List.forall_mem_cons] at ih
    rw [List.map_cons, relocateValues, relocateValues, ih.1, containers_rename, List.length_map, ihvs ih.2]

theorem relocateEntries_rename {es : List (Object × Object)}
    (ih : ∀ e ∈ es, (∀ n, (e.1.rename f).relocate g n = e.1.relocate (g ∘ f) n) ∧
      ∀ n, (e.2.rename f).relocate g n = e.2.relocate (g ∘ f) n) : ∀ n,
    relocateEntries g n (es.map fun e => (e.1.rename f, e.2.rename f)) = relocateEntries (g ∘ f) n es := by
  induction es with
  | nil => exact fun _ => rfl
  | cons e es ihes =>
    intro n
    rw [List.forall_mem_cons] at ih
    rw [List.map_cons, relocateEntries, relocateEntries, ih.1.1, ih.1.2, containers_rename,
      containers_rename, List.length_map, List.length_map, ihes ih.2]

/-- A copy forgets the addresses of what it is a copy of. -/
theorem relocate_rename (o : Object) : ∀ n, (o.rename f).relocate g n = o.relocate (g ∘ f) n := by
  induction o using Object.induct with
  | list i t vs ih =>
    intro n
    rw [rename, renameValues_eq, relocate, relocate, relocateValues_rename ih]
  | map i t es ih =>
    intro n
    rw [rename, renameEntries_eq, relocate, relocate, relocateEntries_rename ih]
  | classInstance i d vs ih =>
    intro n
    rw [rename, renameValues_eq, relocate, relocate, relocateValues_rename ih]
  | _ => exact fun _ => rfl

/-- Copies are equal exactly if the originals are, wherever they live. -/
theorem equalAs_rename {x y : Object} (h : Separates f x.refs y.refs) (forward : Bool) :
    equalAs forward (x.rename f) (y.rename f) = equalAs forward x y := by
  have hid : Separates id (x.rename f).refs (y.rename f).refs := fun _ _ _ _ hij => hij
  calc equalAs forward (x.rename f) (y.rename f)
      = equalAs forward ((x.rename f).relocate id 0) ((y.rename f).relocate id 0) :=
        (equalAs_relocate _ forward 0 0 _ hid).symm
    _ = equalAs forward (x.relocate f 0) (y.relocate f 0) := by
        rw [relocate_rename, relocate_rename, Function.id_comp]
    _ = equalAs forward x y := equalAs_relocate x forward 0 0 y h

/-- Without references, a copy is to any object what the original is. -/
theorem equalAs_rename_tree {x y : Object} (h : x.refs = []) (forward : Bool) :
    equalAs forward (x.rename f) y = equalAs forward x y := by
  have hid {x y : Object} : Separates id x.refs y.refs := fun _ _ _ _ hij => hij
  calc equalAs forward (x.rename f) y
      = equalAs forward ((x.rename f).relocate id 0) (y.relocate id 0) :=
        (equalAs_relocate _ forward 0 0 y hid).symm
    _ = equalAs forward (x.relocate id 0) (y.relocate id 0) := by
        rw [relocate_rename, Function.id_comp, relocate_congr (g := id) (by simp [h])]
    _ = equalAs forward x y := equalAs_relocate x forward 0 0 y hid

/-! ### Memory -/

/-- The containers among the objects lie in the memory. -/
def Stored (heap : Heap) (xs : List Object) : Prop :=
  ∀ x ∈ xs, ∀ i : ℕ, x.self? = some i → heap[i]? = some (.finished x)

theorem walk_rename (o : Object) : (o.rename f).walk = o.walk.map (rename f) := by
  have values {vs : List Object} (ih : ∀ v ∈ vs, (v.rename f).walk = v.walk.map (rename f)) :
      (vs.map (rename f)).flatMap walk = (vs.flatMap walk).map (rename f) := by
    rw [List.flatMap_map, List.map_flatMap]
    exact List.flatMap_congr ih
  induction o using Object.induct with
  | list i t vs ih =>
    rw [rename, renameValues_eq, walk_list, walk_list, values ih, List.map_cons, rename, renameValues_eq]
  | map i t es ih =>
    rw [rename, renameEntries_eq, walk_map, walk_map, List.map_cons, rename, renameEntries_eq,
      List.flatMap_map, List.map_flatMap]
    congr 1
    refine List.flatMap_congr fun e he => ?_
    rw [List.map_append, (ih e he).1, (ih e he).2]
  | classInstance i d vs ih =>
    rw [rename, renameValues_eq, walk_classInstance, walk_classInstance, values ih, List.map_cons, rename,
      renameValues_eq]
  | _ => rfl

theorem self?_rename (o : Object) : (o.rename f).self? = o.self?.map f := by
  cases o <;> rfl

/-- The objects and their copies lie in two memories, and references among them point to them. -/
structure Moved (f : ObjId → ObjId) (heap heap' : Heap) (xs : List Object) : Prop where
  stored : Stored heap xs
  copies : Stored heap' (xs.map (rename f))
  targets : ∀ x ∈ xs, ∀ r ∈ x.refs, ∃ y ∈ xs, y.self? = some r
  separates : ∀ x ∈ xs, ∀ y ∈ xs, Separates f x.refs y.refs

variable {heap heap' : Heap} {xs : List Object}

theorem Stored.visited (h : Stored heap xs) (w : VisitingOrder) :
    Stored (heap.map (Cell.visited w)) (xs.map (visited w)) := by
  intro x hx i hi
  obtain ⟨y, hy, rfl⟩ := List.mem_map.1 hx
  rw [self?_visited] at hi
  rw [List.getElem?_map, h y hy i hi]
  rfl

/-- In whatever order the maps among the copies are visited, the originals have an order in which they
are originals of them. -/
theorem Moved.visited (h : Moved f heap heap' xs) (w : VisitingOrder) :
    Moved f (heap.map (Cell.visited (w.along f (rename f)))) (heap'.map (Cell.visited w))
      (xs.map (Object.visited (w.along f (rename f)))) where
  stored := h.stored.visited _
  copies := by
    have hcopies : (xs.map (Object.visited (w.along f (rename f)))).map (rename f) =
        (xs.map (rename f)).map (Object.visited w) := by
      rw [List.map_map, List.map_map]
      exact List.map_congr_left fun x _ => ((recasts_rename f).visited w x).symm
    rw [hcopies]
    exact h.copies.visited w
  targets x hx r hr := by
    obtain ⟨y, hy, rfl⟩ := List.mem_map.1 hx
    obtain ⟨z, hz, hself⟩ := h.targets y hy r ((refs_visited y).mem_iff.1 hr)
    exact ⟨_, List.mem_map_of_mem hz, (self?_visited z).trans hself⟩
  separates x hx y hy i hi j hj := by
    obtain ⟨x', hx', rfl⟩ := List.mem_map.1 hx
    obtain ⟨y', hy', rfl⟩ := List.mem_map.1 hy
    exact h.separates x' hx' y' hy' i ((refs_visited x').mem_iff.1 hi) j ((refs_visited y').mem_iff.1 hj)

/-- What a reference points to, and what the copy of the reference points to. -/
theorem Moved.target (h : Moved f heap heap' xs) {x : Object} (hx : x ∈ xs) {r : ObjId} (hr : r ∈ x.refs) :
    ∃ y ∈ xs, y.self? = some r ∧ heap[r]? = some (.finished y) ∧
      heap'[f r]? = some (.finished (y.rename f)) := by
  obtain ⟨y, hy, hself⟩ := h.targets x hx r hr
  refine ⟨y, hy, hself, h.stored y hy r hself, h.copies _ (List.mem_map_of_mem hy) (f r) ?_⟩
  rw [self?_rename, hself]
  rfl

/-- A container keeps its name and its size. -/
theorem cell_hash_rename (o : Object) :
    (Cell.finished (o.rename f)).hash P = (Cell.finished o).hash P := by
  cases o <;> simp [rename, renameValues_eq, renameEntries_eq, Cell.hash]

theorem hash_rename (h : Moved f heap heap' xs) {x : Object} (hx : x ∈ xs) (static : UInt64) :
    (x.rename f).hash P heap' static = x.hash P heap static := by
  cases x with
  | ref r =>
    obtain ⟨y, -, -, hcell, hcell'⟩ := h.target hx (r := r) (by simp [refs, walk, target?])
    simp only [rename, Object.hash, hcell, hcell', Option.bind_some, cell_hash_rename]
  | list i t vs => simp [rename, renameValues_eq, Object.hash]
  | map i t es => simp [rename, renameEntries_eq, Object.hash]
  | classInstance i d vs => simp [rename, renameValues_eq, Object.hash]
  | _ => rfl

/-! ### Texts -/

section Text

variable {deref deref' : ObjId → Option Bytes}

theorem debugValues_rename {separator : Bytes} {vs : List Object}
    (ih : ∀ v ∈ vs, (v.rename f).debugText F deref' = v.debugText (F.moved f) deref) :
    debugValues F deref' separator (vs.map (rename f)) = debugValues (F.moved f) deref separator vs := by
  induction vs with
  | nil => rfl
  | cons v vs ihvs =>
    rw [List.forall_mem_cons] at ih
    rw [List.map_cons, debugValues, debugValues, ih.1, ihvs ih.2]

theorem debugEntries_rename {es : List (Object × Object)}
    (ih : ∀ e ∈ es, (e.1.rename f).debugText F deref' = e.1.debugText (F.moved f) deref ∧
      (e.2.rename f).debugText F deref' = e.2.debugText (F.moved f) deref) :
    debugEntries F deref' (es.map fun e => (e.1.rename f, e.2.rename f)) =
      debugEntries (F.moved f) deref es := by
  induction es with
  | nil => rfl
  | cons e es ihes =>
    rw [List.forall_mem_cons] at ih
    rw [List.map_cons, debugEntries, debugEntries, ih.1.1, ih.1.2, ihes ih.2]

/-- A text shows the addresses of the targets of references, and no others. -/
theorem debugText_rename {o : Object} (h : ∀ r ∈ o.refs, deref' (f r) = deref r) :
    (o.rename f).debugText F deref' = o.debugText (F.moved f) deref := by
  induction o using Object.induct with
  | ref i =>
    rw [rename, debugText, debugText, h i (by simp [refs, walk, target?])]
    rfl
  | list i t vs ih =>
    rw [refs_list, List.forall_mem_flatMap] at h
    rw [rename, renameValues_eq, debugText, debugText, debugValues_rename fun v hv => ih v hv (h v hv)]
  | map i t es ih =>
    rw [refs_map, List.forall_mem_flatMap] at h
    rw [rename, renameEntries_eq, debugText, debugText, debugEntries_rename fun e he =>
      ⟨(ih e he).1 (List.forall_mem_append.1 (h e he)).1, (ih e he).2 (List.forall_mem_append.1 (h e he)).2⟩]
  | classInstance i d vs ih =>
    rw [refs_classInstance, List.forall_mem_flatMap] at h
    rw [rename, renameValues_eq, debugText, debugText, debugValues_rename fun v hv => ih v hv (h v hv)]
  | _ => rfl

/-- However many references may be followed, the texts agree. -/
theorem toDebugString_rename (h : Moved f heap heap' xs) (depth : ℕ) : ∀ x ∈ xs,
    (x.rename f).toDebugString F heap' depth = x.toDebugString (F.moved f) heap depth := by
  induction depth with
  | zero => exact fun x _ => debugText_rename fun _ _ => rfl
  | succ depth ih =>
    intro x hx
    refine debugText_rename fun r hr => ?_
    obtain ⟨y, hy, -, hcell, hcell'⟩ := h.target hx hr
    rw [hcell, hcell']
    exact ih y hy

end Text

end Object

/-! ### Lookup -/

/-- `get` returns the value of the entry with the string as its key. -/
theorem Filled.get_some_iff {calls : List (Object × Object)} {m : MapObject Object}
    (h : Filled P calls m) {s : Bytes} {value : Object} :
    m.Get P s (some value) ↔ (.string s, value) ∈ m.data.map Node.pair := by
  have hrepresented := h.built.represented (viewQuery_faithful s)
  constructor
  · rintro ⟨node, hfind, hvalue⟩
    obtain ⟨n, rfl, rfl⟩ := Option.map_eq_some_iff.1 hvalue.symm
    cases hfind with
    | found hn hacc =>
      refine List.mem_map.2 ⟨n, hn, ?_⟩
      rw [Node.pair, equalView_iff.1 hacc.2]
  · intro hmem
    obtain ⟨n, hn, hpair⟩ := List.mem_map.1 hmem
    obtain ⟨hkey, rfl⟩ := Prod.mk.inj hpair
    have hequal : equalView n.key s = true := equalView_iff.2 hkey
    exact ⟨some n, .found hn ⟨(hrepresented.node n hn hequal).1, hequal⟩, rfl⟩

/-- It returns nothing where there is no such entry. -/
theorem Filled.get_none_iff {calls : List (Object × Object)} {m : MapObject Object}
    (h : Filled P calls m) {s : Bytes} :
    m.Get P s none ↔ ∀ value, (.string s, value) ∉ m.data.map Node.pair := by
  constructor
  · intro hnone value hmem
    have hsome := h.get_iff.1 (h.get_some_iff.2 hmem)
    rw [← h.get_iff.1 hnone] at hsome
    cases hsome
  · intro hno
    obtain ⟨node, hfind⟩ := exists_finds m.data (viewQuery P s)
    cases node with
    | none => exact ⟨none, hfind, rfl⟩
    | some n => exact absurd (h.get_some_iff.1 ⟨some n, hfind, rfl⟩) (hno n.value)

/-- What `get` returns for a copy of a map is the copy of what it returns for the map, in whatever
order the entries stand. -/
theorem Filled.get_rename {calls calls' : List (Object × Object)} {m m' : MapObject Object}
    {es : List (Object × Object)} (h : Filled P calls m) (h' : Filled P calls' m')
    (hes : ∀ e, e ∈ m.data.map Node.pair ↔ e ∈ es)
    (hes' : ∀ e, e ∈ m'.data.map Node.pair ↔ e ∈ es.map fun e => (e.1.rename f, e.2.rename f))
    {s : Bytes} {result : Option Object} (hget : m.Get P s result) :
    m'.Get P s (result.map (Object.rename f)) := by
  cases result with
  | some value =>
    rw [h.get_some_iff, hes] at hget
    exact h'.get_some_iff.2 ((hes' _).2 (List.mem_map.2 ⟨_, hget, rfl⟩))
  | none =>
    rw [h.get_none_iff] at hget
    refine h'.get_none_iff.2 fun value hmem => ?_
    obtain ⟨e, he, hpair⟩ := List.mem_map.1 ((hes' _).1 hmem)
    obtain ⟨hkey, rfl⟩ := Prod.mk.inj hpair
    have hstring : e.1 = .string s := by
      cases hk : e.1 <;> rw [hk] at hkey <;> cases hkey
      rfl
    exact hget e.2 ((hes _).2 (hstring ▸ he))

/-! ### Behind the wire -/

/-- The objects and their copies, each in its memory, look the same: what their methods return does not
tell them apart, besides the addresses in the texts. -/
structure LookAlike (P : Platform) (F : Formats) (f : ObjId → ObjId) (heap heap' : Heap) (xs : List Object) :
    Prop where
  equal : ∀ x ∈ xs, ∀ y ∈ xs, (x.rename f).equal (y.rename f) = x.equal y
  /-- Without references, a copy is also compared with other objects as the original is. -/
  tree : ∀ x ∈ xs, x.refs = [] → ∀ y, (x.rename f).equal y = x.equal y
  hash : ∀ x ∈ xs, ∀ static, (x.rename f).hash P heap' static = x.hash P heap static
  debugString : ∀ x ∈ xs, ∀ depth,
    (x.rename f).toDebugString F heap' depth = x.toDebugString (F.moved f) heap depth
  /-- `get` of two map objects with the entries of a map and of its copy. -/
  get : ∀ i t es, .map i t es ∈ xs → ∀ {calls calls' : List (Object × Object)} {m m' : MapObject Object},
    Filled P calls m → Filled P calls' m' → (∀ e, e ∈ m.data.map Node.pair ↔ e ∈ es) →
      (∀ e, e ∈ m'.data.map Node.pair ↔ e ∈ es.map fun e => (e.1.rename f, e.2.rename f)) →
        ∀ s result, m.Get P s result → m'.Get P s (result.map (Object.rename f))

theorem Object.Moved.lookAlike {heap heap' : Heap} {xs : List Object} (h : Object.Moved f heap heap' xs) :
    LookAlike P F f heap heap' xs where
  equal x hx y hy := Object.equalAs_rename (h.separates x hx y hy) true
  tree _ _ hx _ := Object.equalAs_rename_tree hx true
  hash _ hx := Object.hash_rename h hx
  debugString x hx depth := Object.toDebugString_rename h depth x hx
  get _ _ _ _ _ _ _ _ hm hm' hes hes' _ _ := hm.get_rename hm' hes hes'

/-- In a session references point to containers that are sent. -/
theorem Session.targets {os : List Object} (h : Session P (objectItems os)) :
    ∀ x ∈ os.flatMap Object.walk, ∀ r ∈ x.refs, ∃ y ∈ os.flatMap Object.walk, y.self? = some r := by
  intro x hx r hr
  obtain ⟨o, ho, hx⟩ := List.mem_flatMap.1 hx
  have hmem : r ∈ o.refs := Object.mem_refs.2 (o.walk_subset x hx _ (Object.mem_refs.1 hr))
  have haddresses := h.addresses r
  simp only [objectItems, List.flatMap_map, Item.containers, Message.containers, Item.addresses] at haddresses
  obtain ⟨o', ho', hr'⟩ := List.mem_flatMap.1
    (haddresses (List.mem_flatMap.2 ⟨o, ho, List.mem_append_right _ hmem⟩))
  obtain ⟨y, hy, hself⟩ := List.mem_filterMap.1 hr'
  exact ⟨y, List.mem_flatMap.2 ⟨o', ho', hy⟩, hself⟩

/-- **Objects look the same before and behind the wire.**  For every sequence of graphs that can be sent,
without far dates and negative zeros, in a memory that holds their containers: the decoder returns copies
of them at other addresses, and in its memory any two objects anywhere in the copies are equal exactly if
the originals are, every object has the hash of the original, its text is that of the original with the
addresses of the copies, and `get` of a map finds for every string the copy of what it finds there.  In
whatever order the maps on the receiving side are visited, this holds of the originals in some order of
their maps. -/
theorem received_alike (P : Platform) (F : Formats) (os : List Object) (h : Session P (objectItems os))
    (hlossless : ∀ x ∈ os.flatMap Object.walk, x.Lossless) (heap : Heap)
    (hheap : Object.Stored heap (os.flatMap Object.walk)) : ∃ bytes s f,
      written P (objectItems os) = .ok (os.map fun _ => true, bytes) ∧
      Decodes P ⟨.ofList bytes, .empty⟩ (os.map (Object.rename f)) s ∧ s.cursor.unread = [] ∧
      LookAlike P F f heap s.aux.heap (os.flatMap Object.walk) ∧
      ∀ w : VisitingOrder, ∃ w' : VisitingOrder,
        (∀ o : Object, (o.rename f).visited w = (o.visited w').rename f) ∧
        LookAlike P F f (heap.map (Cell.visited w')) (s.aux.heap.map (Cell.visited w))
          ((os.flatMap Object.walk).map (Object.visited w')) := by
  obtain ⟨bytes, values, s, hwritten, hdecodes, hend, f, hf, rfl⟩ := h.decodes
  have hreceived : os.map Object.received = os := by
    refine (List.map_congr_left fun o ho => ?_).trans os.map_id'
    exact Object.received_eq_self fun x hx => hlossless x (List.mem_flatMap.2 ⟨o, ho, hx⟩)
  rw [hreceived] at hdecodes hf
  have hmoved : Object.Moved f heap s.aux.heap (os.flatMap Object.walk) := by
    refine ⟨hheap, ?_, h.targets, ?_⟩
    · have howned := (decodes_owns hdecodes (Tables.Fresh.sound ⟨rfl, rfl, rfl⟩)).2.owned
      have hwalk : (os.map (Object.rename f)).flatMap Object.walk =
          (os.flatMap Object.walk).map (Object.rename f) := by
        rw [List.flatMap_map, List.map_flatMap]
        exact List.flatMap_congr fun o _ => o.walk_rename
      rw [hwalk] at howned
      exact fun x hx i hi => (howned x hx i hi).2
    · intro x hx y hy i hi j hj hij
      have hcontainer {x : Object} (hx : x ∈ os.flatMap Object.walk) {r : ObjId} (hr : r ∈ x.refs) :
          r ∈ os.flatMap Object.containers := by
        obtain ⟨y, hy, hself⟩ := h.targets x hx r hr
        obtain ⟨o, ho, hy⟩ := List.mem_flatMap.1 hy
        exact List.mem_flatMap.2 ⟨o, ho, List.mem_filterMap.2 ⟨y, hy, hself⟩⟩
      exact hf i (hcontainer hx hi) j (hcontainer hy hj) hij
  refine ⟨bytes, s, f, hwritten, hdecodes, hend, hmoved.lookAlike, fun w => ?_⟩
  exact ⟨_, (Object.recasts_rename f).visited w, (hmoved.visited w).lookAlike⟩

/-- A map with a list and a reference to it. -/
theorem received_alike_shared : ∃ bytes s f,
    written .simple (objectItems [shared 0 1 0]) = .ok ([true], bytes) ∧
      Decodes .simple ⟨.ofList bytes, .empty⟩ ([shared 0 1 0].map (Object.rename f)) s ∧
      s.cursor.unread = [] ∧
      LookAlike .simple ⟨fun _ => [], fun i => decimal i⟩ f
        [.finished (shared 0 1 0), .finished (.untypedList 1 [.double 0])] s.aux.heap
        ([shared 0 1 0].flatMap Object.walk) ∧
      ∀ w : VisitingOrder, ∃ w' : VisitingOrder,
        (∀ o : Object, (o.rename f).visited w = (o.visited w').rename f) ∧
        LookAlike .simple ⟨fun _ => [], fun i => decimal i⟩ f
          ([.finished (shared 0 1 0), .finished (.untypedList 1 [.double 0])].map (Cell.visited w'))
          (s.aux.heap.map (Cell.visited w)) (([shared 0 1 0].flatMap Object.walk).map (Object.visited w')) := by
  have hwalk : [shared 0 1 0].flatMap Object.walk = (shared 0 1 0).walk := rfl
  refine received_alike .simple _ [shared 0 1 0] (session_shared (by decide) 0) ?_ _ ?_
  · rw [hwalk, walk_shared]
    simp only [List.forall_mem_cons]
    exact ⟨trivial, trivial, trivial, (by decide : (0 : UInt64) ≠ 0x8000000000000000), trivial, trivial,
      fun _ h => absurd h List.not_mem_nil⟩
  · intro x hx i hi
    simp only [hwalk, walk_shared, List.mem_cons, List.not_mem_nil, or_false] at hx
    obtain rfl | rfl | rfl | rfl | rfl | rfl := hx <;> cases hi <;> rfl

end Hessian2
