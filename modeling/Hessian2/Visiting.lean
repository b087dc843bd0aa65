import Hessian2.Arrival
import Hessian2.Ledger

/-!
# The order in which the entries of a map are visited

An encoder visits the entries of a hash map in the order in which the hash map iterates over them,
which need not be the order in which they were inserted.

* `VisitingOrder` : an order for every map.
* `Object.visited` : the object with its entries in this order.
* `Object.Recasts.visited` : a copy in any order is a copy of the object in some order.
* `Object.CrossFree` : no reference in an entry of a map points into another entry of the map.
* `backward_visited` : **if no reference crosses from one entry to another, references point to
  containers that are visited before them, whatever the order.**
* `crossFree_of_backward` : in the reversed order they do so only if none crosses.
-/

namespace Hessian2

/-- An order in which the entries of every map are visited. -/
structure VisitingOrder where
  /-- The entries of the map at an address as they are visited. -/
  arrange : ObjId → List (Object × Object) → List (Object × Object)
  perm : ∀ i es, (arrange i es).Perm es

/-- Every map from its last entry to its first one. -/
def VisitingOrder.reversed : VisitingOrder := ⟨fun _ es => es.reverse, fun _ es => es.reverse_perm⟩

namespace Object

mutual

/-- The object with the entries of its maps as they are visited. -/
def visited (w : VisitingOrder) : Object → Object
  | .list i t vs => .list i t (visitedValues w vs)
  | .map i t es => .map i t (w.arrange i (visitedEntries w es))
  | .classInstance i d vs => .classInstance i d (visitedValues w vs)
  | o => o
termination_by structural o => o

/-- `visited` over the elements of a list. -/
def visitedValues (w : VisitingOrder) : List Object → List Object
  | [] => []
  | v :: vs => visited w v :: visitedValues w vs
termination_by structural vs => vs

/-- `visited` over the entries of a map. -/
def visitedEntries (w : VisitingOrder) : List (Object × Object) → List (Object × Object)
  | [] => []
  | (k, v) :: es => (visited w k, visited w v) :: visitedEntries w es
termination_by structural es => es

end

variable {w : VisitingOrder}

theorem visitedValues_eq : ∀ vs, visitedValues w vs = vs.map (visited w)
  | [] => rfl
  | v :: vs => by rw [visitedValues, visitedValues_eq vs, List.map_cons]

theorem visitedEntries_eq :
    ∀ es, visitedEntries w es = es.map fun e => (e.1.visited w, e.2.visited w)
  | [] => rfl
  | e :: es => by rw [visitedEntries, visitedEntries_eq es, List.map_cons]

theorem visited_list (i : ObjId) (t : Option Bytes) (vs : List Object) :
    (list i t vs).visited w = .list i t (vs.map (visited w)) := by rw [visited, visitedValues_eq]

theorem visited_map (i : ObjId) (t : Option Bytes) (es : List (Object × Object)) :
    (map i t es).visited w =
      .map i t (w.arrange i (es.map fun e => (e.1.visited w, e.2.visited w))) := by
  rw [visited, visitedEntries_eq]

theorem visited_classInstance (i : ObjId) (d : RawDefinition) (vs : List Object) :
    (classInstance i d vs).visited w = .classInstance i d (vs.map (visited w)) := by
  rw [visited, visitedValues_eq]

@[simp] theorem self?_visited (o : Object) : (o.visited w).self? = o.self? := by cases o <;> rfl

@[simp] theorem target?_visited (o : Object) : (o.visited w).target? = o.target? := by
  cases o <;> rfl

@[simp] theorem typeName?_visited (o : Object) : (o.visited w).typeName? = o.typeName? := by
  cases o <;> rfl

@[simp] theorem definition?_visited (o : Object) : (o.visited w).definition? = o.definition? := by
  cases o <;> rfl

theorem flatMap_walk_visited {vs : List Object}
    (ih : ∀ v ∈ vs, (v.visited w).walk.Perm (v.walk.map (visited w))) :
    ((vs.map (visited w)).flatMap walk).Perm ((vs.flatMap walk).map (visited w)) := by
  rw [List.flatMap_map, List.map_flatMap]
  exact .flatMap_left vs ih

/-- The object consists of the same objects in whatever order they are visited. -/
theorem walk_visited (o : Object) : (o.visited w).walk.Perm (o.walk.map (visited w)) := by
  induction o using Object.induct with
  | list i t vs ih =>
    rw [walk_list, List.map_cons, visited_list, walk_list]
    exact (flatMap_walk_visited ih).cons _
  | map i t es ih =>
    rw [walk_map, List.map_cons, visited_map, walk_map]
    refine List.Perm.cons _ ?_
    refine ((w.perm i _).flatMap_right _).trans ?_
    rw [List.flatMap_map, List.map_flatMap]
    refine .flatMap_left es fun e he => ?_
    rw [List.map_append]
    exact (ih e he).1.append (ih e he).2
  | classInstance i d vs ih =>
    rw [walk_classInstance, List.map_cons, visited_classInstance, walk_classInstance]
    exact (flatMap_walk_visited ih).cons _
  | _ => exact .refl _

theorem mem_walk_visited {o x : Object} :
    x ∈ (o.visited w).walk ↔ ∃ y ∈ o.walk, y.visited w = x := by
  rw [o.walk_visited.mem_iff, List.mem_map]

/-- What all objects say about themselves is said in any order. -/
theorem filterMap_walk_visited {α : Type} {g : Object → Option α}
    (hg : ∀ o, g (o.visited w) = g o) (o : Object) :
    ((o.visited w).walk.filterMap g).Perm (o.walk.filterMap g) := by
  refine (o.walk_visited.filterMap g).trans (.of_eq ?_)
  rw [List.filterMap_map]
  exact congrArg (fun g => o.walk.filterMap g) (funext hg)

theorem containers_visited (o : Object) : (o.visited w).containers.Perm o.containers :=
  filterMap_walk_visited self?_visited o

theorem refs_visited (o : Object) : (o.visited w).refs.Perm o.refs :=
  filterMap_walk_visited target?_visited o

/-! ### Orders of copies -/

theorem visited_of_leaf {o : Object} (h : o.self? = none) : o.visited w = o := by
  cases o <;> first | rfl | cases h

/-- `φ` makes copies of objects: it changes leaves and addresses only, and gives the address `f i` to the
copy of the container at `i`. -/
structure Recasts (f : ObjId → ObjId) (φ : Object → Object) : Prop where
  leaf : ∀ o, o.self? = none → (φ o).self? = none
  list : ∀ i t vs, φ (.list i t vs) = .list (f i) t (vs.map φ)
  map : ∀ i t es, φ (.map i t es) = .map (f i) t (es.map (Prod.map φ φ))
  classInstance : ∀ i d vs, φ (.classInstance i d vs) = .classInstance (f i) d (vs.map φ)

end Object

/-- An order of copies is the copy of an order. -/
theorem exists_perm_map {α β : Type} {g : α → β} {as : List α} {bs : List β} (h : bs.Perm (as.map g)) :
    ∃ as' : List α, as'.map g = bs ∧ as'.Perm as := by
  have hcopies : List.Forall₂ (fun b a => g a = b) (as.map g) as :=
    List.forall₂_map_left_iff.2 (List.forall₂_same.2 fun _ _ => rfl)
  obtain ⟨as', hbs, hperm⟩ := List.perm_comp_forall₂ h hcopies
  refine ⟨as', ?_, hperm⟩
  rw [← List.forall₂_eq_eq_eq, List.forall₂_map_left_iff]
  exact hbs.flip

/-- The order in which a map is to be visited for its copy to be visited in the order `w`. -/
noncomputable def VisitingOrder.along (w : VisitingOrder) (f : ObjId → ObjId) (φ : Object → Object) :
    VisitingOrder where
  arrange i es := (exists_perm_map (w.perm (f i) (es.map (Prod.map φ φ)))).choose
  perm i es := (exists_perm_map (w.perm (f i) (es.map (Prod.map φ φ)))).choose_spec.2

theorem VisitingOrder.map_along (w : VisitingOrder) (f : ObjId → ObjId) (φ : Object → Object) (i : ObjId)
    (es : List (Object × Object)) : ((w.along f φ).arrange i es).map (Prod.map φ φ) =
      w.arrange (f i) (es.map (Prod.map φ φ)) :=
  (exists_perm_map (w.perm (f i) (es.map (Prod.map φ φ)))).choose_spec.1

namespace Object

/-- A copy in any order is a copy of the object in some order. -/
theorem Recasts.visited {f : ObjId → ObjId} {φ : Object → Object} (h : Recasts f φ) (w : VisitingOrder)
    (o : Object) : (φ o).visited w = φ (o.visited (w.along f φ)) := by
  induction o using Object.induct with
  | list i t vs ih =>
    rw [h.list, visited_list, visited_list, h.list, List.map_map, List.map_map]
    exact congrArg _ (List.map_congr_left ih)
  | map i t es ih =>
    have hes : (es.map (Prod.map φ φ)).map (fun e => (e.1.visited w, e.2.visited w)) =
        (es.map fun e => (e.1.visited (w.along f φ), e.2.visited (w.along f φ))).map (Prod.map φ φ) := by
      rw [List.map_map, List.map_map]
      exact List.map_congr_left fun e he => Prod.ext (ih e he).1 (ih e he).2
    rw [h.map, visited_map, visited_map, h.map, hes, w.map_along]
  | classInstance i d vs ih =>
    rw [h.classInstance, visited_classInstance, visited_classInstance, h.classInstance, List.map_map,
      List.map_map]
    exact congrArg _ (List.map_congr_left ih)
  | _ => exact visited_of_leaf (h.leaf _ rfl)

/-! ### References across entries -/

/-- The targets of the references in an entry. -/
def pairRefs (e : Object × Object) : List ObjId := e.1.refs ++ e.2.refs

/-- The containers in an entry. -/
def pairContainers (e : Object × Object) : List ObjId := e.1.containers ++ e.2.containers

theorem mem_pairRefs {e : Object × Object} {r : ObjId} :
    r ∈ pairRefs e ↔ ∃ x ∈ e.1.walk ++ e.2.walk, x.target? = some r := by
  rw [← List.mem_filterMap, List.filterMap_append]
  rfl

theorem mem_pairContainers {e : Object × Object} {r : ObjId} :
    r ∈ pairContainers e ↔ ∃ x ∈ e.1.walk ++ e.2.walk, x.self? = some r := by
  rw [← List.mem_filterMap, List.filterMap_append]
  rfl

/-- No reference in one of the entries points into the other one. -/
def Uncrossed (e e' : Object × Object) : Prop :=
  (∀ r ∈ pairRefs e, r ∉ pairContainers e') ∧ ∀ r ∈ pairRefs e', r ∉ pairContainers e

instance : Std.Symm Uncrossed := ⟨fun _ _ h => ⟨h.2, h.1⟩⟩

/-- No reference in an entry of the map points into another entry of the map. -/
def CrossFree : Object → Prop
  | .map _ _ es => es.Pairwise Uncrossed
  | _ => True

/-- The references in the object point back in the order `w`, from any ledger that has all their
targets but those that the object owns. -/
def PointsBack (w : VisitingOrder) (o : Object) : Prop :=
  ∀ ⦃L : Ledger⦄, (∀ r ∈ o.refs, r ∈ L.values.keys ∨ r ∈ o.containers) →
    L.Backward (o.visited w).walk

end Object

open Object

/-- No reference points to a container that is created later. -/
theorem notMem_containers_of_before {xs ys : List Object} (h : (xs ++ ys).Pairwise Before) {r : ObjId}
    (hr : r ∈ xs.filterMap target?) : r ∉ ys.filterMap self? := by
  intro hmem
  obtain ⟨x, hx, hxr⟩ := List.mem_filterMap.1 hr
  obtain ⟨y, hy, hyr⟩ := List.mem_filterMap.1 hmem
  exact lt_irrefl r ((List.pairwise_append.1 h).2.2 x hx y hy r hyr r (.inr hxr))

namespace Ledger

variable {L : Ledger} {xs : List Object}

theorem mem_values_notes {r : ObjId} :
    r ∈ (L.notes xs).values.keys ↔ r ∈ L.values.keys ∨ r ∈ xs.filterMap self? := by
  rw [notes_eq, KeyTable.mem_keys_enterAll]

/-- A container has been visited before what it owns. -/
theorem mem_note_of_cons {x : Object} {i r : ObjId} {rest : List ObjId} (hx : x.self? = some i)
    (h : r ∈ L.values.keys ∨ r ∈ i :: rest) : r ∈ (L.note x).values.keys ∨ r ∈ rest := by
  have hmem : r ∈ (L.note x).values.keys ↔ r ∈ L.values.keys ∨ r = i := by
    rw [note, hx, KeyTable.mem_keys_enterAll, Option.toList_some, List.mem_singleton]
  rw [hmem, or_assoc]
  exact h.imp_right List.mem_cons.1

/-- An object without a reference of its own is followed by what it owns. -/
theorem backward_cons {x : Object} (hx : x.target? = none) :
    L.Backward (x :: xs) ↔ (L.note x).Backward xs := by
  rw [Backward, hx]
  exact and_iff_right fun i hi => by cases hi

/-- Parts whose references point back from the start on may come in any order. -/
theorem backward_flatMap {α : Type} {as : List α} {f : α → List Object} (L₀ : Ledger)
    (h : ∀ a ∈ as, ∀ L, L₀.Prefix L → L.Backward (f a)) :
    ∀ {L}, L₀.Prefix L → L.Backward (as.flatMap f) := by
  induction as with
  | nil => exact fun _ => trivial
  | cons a as ih =>
    intro L hL
    rw [List.forall_mem_cons] at h
    rw [List.flatMap_cons, backward_append]
    exact ⟨h.1 L hL, ih h.2 (hL.trans (L.prefix_notes _))⟩

end Ledger

variable {w : VisitingOrder} {L : Ledger}

/-- The elements of a list are visited as they stand. -/
theorem backward_values {vs : List Object} (ih : ∀ v ∈ vs, PointsBack w v) :
    ∀ {L : Ledger}, (vs.flatMap walk).Pairwise Before →
      (∀ r ∈ vs.flatMap refs, r ∈ L.values.keys ∨ r ∈ vs.flatMap containers) →
      L.Backward ((vs.map (visited w)).flatMap walk) := by
  induction vs with
  | nil => exact fun _ _ => trivial
  | cons v vs ihvs =>
    intro L hbefore hrefs
    rw [List.forall_mem_cons] at ih
    simp only [List.flatMap_cons, List.mem_append] at hbefore hrefs
    rw [List.map_cons, List.flatMap_cons, Ledger.backward_append]
    refine ⟨ih.1 fun r hr => ?_, ihvs ih.2 (List.pairwise_append.1 hbefore).2.1 fun r hr => ?_⟩
    · refine (hrefs r (.inl hr)).imp_right fun hmem => hmem.resolve_right fun hlater => ?_
      refine notMem_containers_of_before hbefore hr ?_
      rwa [filterMap_flatMap_walk]
    · rw [Ledger.mem_values_notes]
      rcases hrefs r (.inr hr) with hmem | hmem | hmem
      · exact .inl (.inl hmem)
      · exact .inl (.inr ((containers_visited v).mem_iff.2 hmem))
      · exact .inr hmem

/-- An entry is visited with its key first. -/
theorem backward_entry {e : Object × Object} (hk : PointsBack w e.1) (hv : PointsBack w e.2)
    (hbefore : (e.1.walk ++ e.2.walk).Pairwise Before)
    (hrefs : ∀ r ∈ pairRefs e, r ∈ L.values.keys ∨ r ∈ pairContainers e) :
    L.Backward ((e.1.visited w).walk ++ (e.2.visited w).walk) := by
  simp only [pairRefs, pairContainers, List.mem_append] at hrefs
  rw [Ledger.backward_append]
  refine ⟨hk fun r hr => ?_, hv fun r hr => ?_⟩
  · exact (hrefs r (.inl hr)).imp_right fun hmem =>
      hmem.resolve_right (notMem_containers_of_before hbefore hr)
  · rw [Ledger.mem_values_notes]
    rcases hrefs r (.inr hr) with hmem | hmem | hmem
    · exact .inl (.inl hmem)
    · exact .inl (.inr ((containers_visited e.1).mem_iff.2 hmem))
    · exact .inr hmem

/-- The entries of a map may be visited in any order if no reference crosses from one to another. -/
theorem backward_entries {i : ObjId} {t : Option Bytes} {es : List (Object × Object)}
    (ih : ∀ e ∈ es, PointsBack w e.1 ∧ PointsBack w e.2)
    (hbefore : (es.flatMap fun e => e.1.walk ++ e.2.walk).Pairwise Before)
    (hfree : CrossFree (.map i t es))
    (hrefs : ∀ r ∈ es.flatMap pairRefs, r ∈ L.values.keys ∨ r ∈ es.flatMap pairContainers) :
    L.Backward ((w.arrange i (es.map fun e => (e.1.visited w, e.2.visited w))).flatMap
      fun e => e.1.walk ++ e.2.walk) := by
  refine Ledger.backward_flatMap L (fun e' he' L' hL' => ?_) (.refl L)
  obtain ⟨e, he, rfl⟩ := List.mem_map.1 ((w.perm i _).subset he')
  refine backward_entry (ih e he).1 (ih e he).2 ((List.pairwise_flatMap.1 hbefore).1 e he) fun r hr => ?_
  refine (hrefs r (List.mem_flatMap.2 ⟨e, he, hr⟩)).imp (fun h => hL'.values.subset h) fun h => ?_
  obtain ⟨e₁, he₁, hmem⟩ := List.mem_flatMap.1 h
  -- the container is in the same entry, since no reference points into another one
  by_cases hsame : e = e₁
  · rwa [hsame]
  · exact absurd hmem ((List.Pairwise.forall hfree he he₁ hsame).1 r hr)

/-- **Without references across entries, references point back in every order.** -/
theorem backward_visited (w : VisitingOrder) (o : Object) (hbefore : o.walk.Pairwise Before)
    (hfree : ∀ x ∈ o.walk, x.CrossFree) : PointsBack w o := by
  have values {vs : List Object} (hbefore : (vs.flatMap walk).Pairwise Before)
      (hfree : ∀ x ∈ vs.flatMap walk, x.CrossFree) (ih : ∀ v ∈ vs, v.walk.Pairwise Before →
        (∀ x ∈ v.walk, x.CrossFree) → PointsBack w v) : ∀ v ∈ vs, PointsBack w v := fun v hv =>
    ih v hv ((List.pairwise_flatMap.1 hbefore).1 v hv)
      fun x hx => hfree x (List.mem_flatMap.2 ⟨v, hv, hx⟩)
  induction o using Object.induct with
  | ref i =>
    refine fun L h => ⟨fun j hj => ?_, trivial⟩
    obtain rfl : i = j := Option.some.inj hj
    exact (h i List.mem_cons_self).resolve_right List.not_mem_nil
  | list i t vs ih =>
    intro L hrefs
    rw [walk_list, List.pairwise_cons] at hbefore
    rw [walk_list, List.forall_mem_cons] at hfree
    rw [refs_list, containers_list] at hrefs
    rw [visited_list, walk_list, Ledger.backward_cons rfl]
    exact backward_values (values hbefore.2 hfree.2 ih) hbefore.2
      fun r hr => Ledger.mem_note_of_cons rfl (hrefs r hr)
  | map i t es ih =>
    intro L hrefs
    rw [walk_map, List.pairwise_cons] at hbefore
    rw [walk_map, List.forall_mem_cons] at hfree
    rw [refs_map, containers_map] at hrefs
    rw [visited_map, walk_map, Ledger.backward_cons rfl]
    refine backward_entries (fun e he => ?_) hbefore.2 hfree.1
      fun r hr => Ledger.mem_note_of_cons rfl (hrefs r hr)
    -- the key and the value are visited in order, whatever the order of the entries
    have hentry := List.pairwise_append.1 ((List.pairwise_flatMap.1 hbefore.2).1 e he)
    have hparts (x) (hx : x ∈ e.1.walk ++ e.2.walk) : x.CrossFree :=
      hfree.2 x (List.mem_flatMap.2 ⟨e, he, hx⟩)
    exact ⟨(ih e he).1 hentry.1 fun x hx => hparts x (List.mem_append_left _ hx),
      (ih e he).2 hentry.2.1 fun x hx => hparts x (List.mem_append_right _ hx)⟩
  | classInstance i d vs ih =>
    intro L hrefs
    rw [walk_classInstance, List.pairwise_cons] at hbefore
    rw [walk_classInstance, List.forall_mem_cons] at hfree
    rw [refs_classInstance, containers_classInstance] at hrefs
    rw [visited_classInstance, walk_classInstance, Ledger.backward_cons rfl]
    exact backward_values (values hbefore.2 hfree.2 ih) hbefore.2
      fun r hr => Ledger.mem_note_of_cons rfl (hrefs r hr)
  | _ => exact fun _ _ => ⟨fun i hi => (by cases hi), trivial⟩

/-! ### The reversed order -/

/-- Where references point back, none points to a container that comes later. -/
theorem Ledger.Backward.pairwise {xs : List Object} (h : L.Backward xs)
    (hnodup : (L.values.keys ++ xs.filterMap self?).Nodup) :
    xs.Pairwise fun x y => ∀ r, x.target? = some r → y.self? ≠ some r := by
  induction xs generalizing L with
  | nil => exact .nil
  | cons x xs ih =>
    have hcons : (x :: xs).filterMap self? = x.self?.toList ++ xs.filterMap self? := by
      cases hx : x.self? with
      | none => exact List.filterMap_cons_none hx
      | some i => exact List.filterMap_cons_some hx
    rw [hcons, ← List.append_assoc] at hnodup
    refine .cons (fun y hy r hr hself => ?_) (ih h.2 ?_)
    · have hmem : r ∈ xs.filterMap self? := List.mem_filterMap.2 ⟨y, hy, hself⟩
      exact List.disjoint_of_nodup_append hnodup (List.mem_append_left _ (h.1 r hr)) hmem
    · have hkeys : (L.note x).values.keys = L.values.keys ++ x.self?.toList :=
        KeyTable.keys_enterAll_of_nodup (List.nodup_append.1 hnodup).1
      rwa [hkeys]

/-- What an object in an object consists of comes in the same order. -/
theorem walk_sublist {o : Object} : ∀ x ∈ o.walk, x.walk.Sublist o.walk := by
  have values {vs : List Object} (ih : ∀ v ∈ vs, ∀ x ∈ v.walk, x.walk.Sublist v.walk) :
      ∀ x ∈ vs.flatMap walk, x.walk.Sublist (vs.flatMap walk) := by
    intro x hx
    obtain ⟨v, hv, hx⟩ := List.mem_flatMap.1 hx
    exact (ih v hv x hx).trans (List.sublist_flatten_of_mem (List.mem_map_of_mem hv))
  induction o using Object.induct with
  | list i t vs ih =>
    intro x hx
    rw [walk_list] at hx ⊢
    rcases List.mem_cons.1 hx with rfl | hx
    · rw [walk_list]
    · exact (values ih x hx).cons _
  | map i t es ih =>
    intro x hx
    rw [walk_map] at hx ⊢
    rcases List.mem_cons.1 hx with rfl | hx
    · rw [walk_map]
    obtain ⟨e, he, hx⟩ := List.mem_flatMap.1 hx
    -- the walk of an entry lies in one piece in the walk of the map
    have hentry : (e.1.walk ++ e.2.walk).Sublist (es.flatMap fun e => e.1.walk ++ e.2.walk) :=
      List.sublist_flatten_of_mem (List.mem_map_of_mem he)
    refine (List.Sublist.trans ?_ hentry).cons _
    rcases List.mem_append.1 hx with hx | hx
    · exact ((ih e he).1 x hx).trans (List.sublist_append_left _ _)
    · exact ((ih e he).2 x hx).trans (List.sublist_append_right _ _)
  | classInstance i d vs ih =>
    intro x hx
    rw [walk_classInstance] at hx ⊢
    rcases List.mem_cons.1 hx with rfl | hx
    · rw [walk_classInstance]
    · exact (values ih x hx).cons _
  | _ =>
    intro x hx
    obtain rfl := List.mem_singleton.1 hx
    exact .refl _

/-- Containers that were created one after the other are different. -/
theorem nodup_of_before {xs : List Object} (h : xs.Pairwise Before) : (xs.filterMap self?).Nodup := by
  refine List.Pairwise.filterMap self? (fun x y hxy i hi j hj => ?_) h
  exact (hxy j hj i (.inl hi)).ne

/-- **If references point back in the reversed order too, none crosses from one entry to
another.** -/
theorem crossFree_of_backward {o : Object} (hbefore : o.walk.Pairwise Before)
    (h : Ledger.empty.Backward (o.visited .reversed).walk) : ∀ x ∈ o.walk, x.CrossFree := by
  have hnodup : (o.visited .reversed).containers.Nodup :=
    (containers_visited o).nodup_iff.2 (nodup_of_before hbefore)
  have hapart := h.pairwise hnodup
  intro x hx
  have hearlier := hbefore.sublist (walk_sublist x hx)
  have hlater := hapart.sublist (walk_sublist _ (mem_walk_visited.2 ⟨x, hx, rfl⟩))
  cases x with
  | map i t es =>
    rw [walk_map, List.pairwise_cons, List.pairwise_flatMap] at hearlier
    rw [visited_map, walk_map, List.pairwise_cons, List.pairwise_flatMap, VisitingOrder.reversed,
      List.pairwise_reverse, List.pairwise_map] at hlater
    have parts {e : Object × Object} {x : Object} (hx : x ∈ e.1.walk ++ e.2.walk) :
        x.visited .reversed ∈ (e.1.visited .reversed).walk ++ (e.2.visited .reversed).walk := by
      rw [List.mem_append, mem_walk_visited, mem_walk_visited]
      exact (List.mem_append.1 hx).imp (fun hx => ⟨x, hx, rfl⟩) fun hx => ⟨x, hx, rfl⟩
    refine (hearlier.2.2.and hlater.2.2).imp fun {e e'} h => ⟨fun r hr hmem => ?_, fun r hr hmem => ?_⟩
    · obtain ⟨x, hx, hxr⟩ := mem_pairRefs.1 hr
      obtain ⟨y, hy, hyr⟩ := mem_pairContainers.1 hmem
      exact lt_irrefl r (h.1 x hx y hy r hyr r (.inr hxr))
    · obtain ⟨x, hx, hxr⟩ := mem_pairRefs.1 hr
      obtain ⟨y, hy, hyr⟩ := mem_pairContainers.1 hmem
      rw [← target?_visited] at hxr
      rw [← self?_visited] at hyr
      exact h.2 _ (parts hx) _ (parts hy) r hxr hyr
  | _ => trivial

end Hessian2
