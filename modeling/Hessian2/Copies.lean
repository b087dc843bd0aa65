import Hessian2.Duration
import Hessian2.Object

/-!
# Copies of objects

The object that arrives is a copy of the one that was sent, at addresses of its own.

* `Object.received` : the object with the leaves that arrive.
* `Object.rename` : the object with its addresses, and those it refers to, renamed.
* `relocate_eq_rename` : a relocated copy whose references point to the copies is a renamed one.
* `equalAs_relocate` : **copies are equal exactly if the originals are.**
-/

namespace Hessian2

namespace Object

/-! ### Leaves -/

mutual

/-- The object that arrives: whole minutes are 32-bit numbers on the wire, and the zeros lose their
sign. -/
def received : Object → Object
  | .double d => .double (Double.unsignedZero d)
  | .date t => .date (dateReceived t)
  | .list i t vs => .list i t (receivedValues vs)
  | .map i t es => .map i t (receivedEntries es)
  | .classInstance i d vs => .classInstance i d (receivedValues vs)
  | o => o
termination_by structural o => o

/-- `received` over the elements of a list. -/
def receivedValues : List Object → List Object
  | [] => []
  | v :: vs => received v :: receivedValues vs
termination_by structural vs => vs

/-- `received` over the entries of a map. -/
def receivedEntries : List (Object × Object) → List (Object × Object)
  | [] => []
  | (k, v) :: es => (received k, received v) :: receivedEntries es
termination_by structural es => es

end

@[simp] theorem receivedValues_eq : ∀ vs, receivedValues vs = vs.map received
  | [] => rfl
  | v :: vs => by rw [receivedValues, receivedValues_eq vs, List.map_cons]

@[simp] theorem receivedEntries_eq :
    ∀ es, receivedEntries es = es.map fun e => (e.1.received, e.2.received)
  | [] => rfl
  | (k, v) :: es => by rw [receivedEntries, receivedEntries_eq es, List.map_cons]

theorem received_list (i : ObjId) (t : Option Bytes) (vs : List Object) :
    (list i t vs).received = list i t (vs.map received) := by rw [received, receivedValues_eq]

theorem received_map (i : ObjId) (t : Option Bytes) (es : List (Object × Object)) :
    (map i t es).received = map i t (es.map fun e => (e.1.received, e.2.received)) := by
  rw [received, receivedEntries_eq]

theorem received_classInstance (i : ObjId) (d : RawDefinition) (vs : List Object) :
    (classInstance i d vs).received = classInstance i d (vs.map received) := by
  rw [received, receivedValues_eq]

theorem flatMap_walk_received {vs : List Object}
    (h : ∀ v ∈ vs, v.received.walk = v.walk.map received) :
    (vs.map received).flatMap walk = (vs.flatMap walk).map received := by
  rw [List.flatMap_map, List.map_flatMap]
  exact List.flatMap_congr h

theorem walk_received (o : Object) : o.received.walk = o.walk.map received := by
  induction o using Object.induct with
  | list i t vs ih =>
    rw [received_list, walk_list, walk_list, List.map_cons, received_list, flatMap_walk_received ih]
  | map i t es ih =>
    rw [received_map, walk_map, walk_map, List.map_cons, received_map, List.flatMap_map,
      List.map_flatMap]
    congr 1
    refine List.flatMap_congr fun e he => ?_
    rw [List.map_append, (ih e he).1, (ih e he).2]
  | classInstance i d vs ih =>
    rw [received_classInstance, walk_classInstance, walk_classInstance, List.map_cons,
      received_classInstance, flatMap_walk_received ih]
  | _ => rfl

theorem self?_received (o : Object) : o.received.self? = o.self? := by
  cases o <;> simp [received, self?]

theorem target?_received (o : Object) : o.received.target? = o.target? := by
  cases o <;> simp [received, target?]

@[simp] theorem containers_received (o : Object) : o.received.containers = o.containers := by
  rw [containers, walk_received, List.filterMap_map, containers]
  exact congrArg (fun g => o.walk.filterMap g) (funext self?_received)

@[simp] theorem refs_received (o : Object) : o.received.refs = o.refs := by
  rw [refs, walk_received, List.filterMap_map, refs]
  exact congrArg (fun g => o.walk.filterMap g) (funext target?_received)

/-- The leaf arrives as it is: a date is no whole number of minutes beyond an `int32_t`, and a
double is not -0.0. -/
def Lossless : Object → Prop
  | .date t => (60000 : ℤ) ∣ t.toInt → IntegralType.int32.Holds (t.toInt / 60000)
  | .double d => d ≠ 0x8000000000000000
  | _ => True

theorem received_eq_self {o : Object} (h : ∀ x ∈ o.walk, x.Lossless) : o.received = o := by
  induction o using Object.induct with
  | double d => rw [received, Double.unsignedZero_eq_self (h _ (mem_walk_self _))]
  | date t => rw [received, dateReceived_eq (h _ (mem_walk_self _))]
  | list i t vs ih =>
    rw [walk_list, List.forall_mem_cons, List.forall_mem_flatMap] at h
    rw [received_list, List.map_congr_left fun v hv => ih v hv (h.2 v hv), List.map_id']
  | map i t es ih =>
    rw [walk_map, List.forall_mem_cons, List.forall_mem_flatMap] at h
    have hes : ∀ e ∈ es, (e.1.received, e.2.received) = e := fun e he => by
      have hw := List.forall_mem_append.1 (h.2 e he)
      rw [(ih e he).1 hw.1, (ih e he).2 hw.2]
    rw [received_map, List.map_congr_left hes, List.map_id']
  | classInstance i d vs ih =>
    rw [walk_classInstance, List.forall_mem_cons, List.forall_mem_flatMap] at h
    rw [received_classInstance, List.map_congr_left fun v hv => ih v hv (h.2 v hv), List.map_id']
  | _ => rfl

/-! ### Addresses -/

mutual

/-- The object with its addresses, and those it refers to, renamed. -/
def rename (f : ObjId → ObjId) : Object → Object
  | .list i t vs => .list (f i) t (renameValues f vs)
  | .map i t es => .map (f i) t (renameEntries f es)
  | .classInstance i d vs => .classInstance (f i) d (renameValues f vs)
  | .ref i => .ref (f i)
  | o => o
termination_by structural o => o

/-- `rename` over the elements of a list. -/
def renameValues (f : ObjId → ObjId) : List Object → List Object
  | [] => []
  | v :: vs => rename f v :: renameValues f vs
termination_by structural vs => vs

/-- `rename` over the entries of a map. -/
def renameEntries (f : ObjId → ObjId) : List (Object × Object) → List (Object × Object)
  | [] => []
  | (k, v) :: es => (rename f k, rename f v) :: renameEntries f es
termination_by structural es => es

end

theorem renameValues_eq (f : ObjId → ObjId) : ∀ vs, renameValues f vs = vs.map (rename f)
  | [] => rfl
  | v :: vs => by rw [renameValues, renameValues_eq f vs, List.map_cons]

theorem relocateValues_eq_rename {f : ObjId → ObjId} {vs : List Object}
    (ih : ∀ v ∈ vs, ∀ n, v.containers.map f = List.range' n v.containers.length →
      v.relocate f n = v.rename f) : ∀ n,
    (vs.flatMap containers).map f = List.range' n (vs.flatMap containers).length →
      relocateValues f n vs = renameValues f vs := by
  induction vs with
  | nil => intro n _; rfl
  | cons v vs ihvs =>
    intro n h
    rw [List.forall_mem_cons] at ih
    rw [List.flatMap_cons, List.map_append, List.length_append, ← List.range'_append_1] at h
    obtain ⟨hv, hvs⟩ := List.append_inj h (by simp)
    rw [relocateValues, renameValues, ih.1 n hv, ihvs ih.2 _ hvs]

theorem relocateEntries_eq_rename {f : ObjId → ObjId} {es : List (Object × Object)}
    (ih : ∀ e ∈ es,
      (∀ n, e.1.containers.map f = List.range' n e.1.containers.length →
        e.1.relocate f n = e.1.rename f) ∧
      ∀ n, e.2.containers.map f = List.range' n e.2.containers.length →
        e.2.relocate f n = e.2.rename f) : ∀ n,
    (es.flatMap fun e => e.1.containers ++ e.2.containers).map f =
        List.range' n (es.flatMap fun e => e.1.containers ++ e.2.containers).length →
      relocateEntries f n es = renameEntries f es := by
  induction es with
  | nil => intro n _; rfl
  | cons e es ihes =>
    intro n h
    rw [List.forall_mem_cons] at ih
    rw [List.flatMap_cons, List.append_assoc, List.map_append, List.map_append, List.length_append,
      List.length_append, ← List.range'_append_1, ← List.range'_append_1] at h
    obtain ⟨hk, hrest⟩ := List.append_inj h (by simp)
    obtain ⟨hv, hes⟩ := List.append_inj hrest (by simp)
    rw [relocateEntries, renameEntries, ih.1.1 n hk, ih.1.2 _ hv, ihes ih.2 _ hes]

/-- A copy whose addresses are those that `f` says is a renamed one. -/
theorem relocate_eq_rename {f : ObjId → ObjId} {o : Object} : ∀ {n : ObjId},
    o.containers.map f = List.range' n o.containers.length → o.relocate f n = o.rename f := by
  induction o using Object.induct with
  | list i t vs ih =>
    intro n h
    rw [containers_list, List.map_cons, List.length_cons, List.range'_succ, List.cons.injEq] at h
    rw [relocate, rename, h.1, relocateValues_eq_rename (fun v hv n => ih v hv) _ h.2]
  | map i t es ih =>
    intro n h
    rw [containers_map, List.map_cons, List.length_cons, List.range'_succ, List.cons.injEq] at h
    rw [relocate, rename, h.1, relocateEntries_eq_rename
      (fun e he => ⟨fun n => (ih e he).1, fun n => (ih e he).2⟩) _ h.2]
  | classInstance i d vs ih =>
    intro n h
    rw [containers_classInstance, List.map_cons, List.length_cons, List.range'_succ,
      List.cons.injEq] at h
    rw [relocate, rename, h.1, relocateValues_eq_rename (fun v hv n => ih v hv) _ h.2]
  | _ => intro n h; rfl

theorem containers_relocateValues {f : ObjId → ObjId} {vs : List Object} (ih : ∀ v ∈ vs, ∀ {n},
    (v.relocate f n).containers = List.range' n v.containers.length) : ∀ {n},
      (relocateValues f n vs).flatMap containers =
        List.range' n (vs.flatMap containers).length := by
  induction vs with
  | nil => intro n; rfl
  | cons v vs ihvs =>
    intro n
    rw [List.forall_mem_cons] at ih
    rw [relocateValues, List.flatMap_cons, List.flatMap_cons, ih.1, ihvs ih.2, List.length_append,
      List.range'_append_1]

theorem containers_relocateEntries {f : ObjId → ObjId} {es : List (Object × Object)} (ih : ∀ e ∈ es,
    (∀ {n}, (e.1.relocate f n).containers = List.range' n e.1.containers.length) ∧
      ∀ {n}, (e.2.relocate f n).containers = List.range' n e.2.containers.length) : ∀ {n},
        ((relocateEntries f n es).flatMap fun e => e.1.containers ++ e.2.containers) =
          List.range' n (es.flatMap fun e => e.1.containers ++ e.2.containers).length := by
  induction es with
  | nil => intro n; rfl
  | cons e es ihes =>
    intro n
    rw [List.forall_mem_cons] at ih
    rw [relocateEntries, List.flatMap_cons, List.flatMap_cons, ih.1.1, ih.1.2, ihes ih.2,
      List.length_append, List.length_append, List.range'_append_1, Nat.add_assoc,
      List.range'_append_1]

/-- The containers of a copy live at consecutive addresses. -/
theorem containers_relocate {f : ObjId → ObjId} {o : Object} : ∀ {n : ObjId},
    (o.relocate f n).containers = List.range' n o.containers.length := by
  induction o using Object.induct with
  | list i t vs ih =>
    intro n
    rw [relocate, containers_list, containers_list,
      containers_relocateValues (fun v hv _ => ih v hv), List.length_cons, List.range'_succ]
  | map i t es ih =>
    intro n
    rw [relocate, containers_map, containers_map,
      containers_relocateEntries (fun e he => ⟨(ih e he).1, (ih e he).2⟩), List.length_cons,
      List.range'_succ]
  | classInstance i d vs ih =>
    intro n
    rw [relocate, containers_classInstance, containers_classInstance,
      containers_relocateValues (fun v hv _ => ih v hv), List.length_cons, List.range'_succ]
  | _ => intro n; rfl

theorem filterMap_walk_relocateValues {α : Type} {f : ObjId → ObjId} {g : Object → Option α}
    {vs : List Object}
    (ih : ∀ v ∈ vs, ∀ {n}, (v.relocate f n).walk.filterMap g = v.walk.filterMap g) : ∀ {n},
      ((relocateValues f n vs).flatMap walk).filterMap g = (vs.flatMap walk).filterMap g := by
  induction vs with
  | nil => intro n; rfl
  | cons v vs ihvs =>
    intro n
    rw [List.forall_mem_cons] at ih
    rw [relocateValues, List.flatMap_cons, List.flatMap_cons, List.filterMap_append,
      List.filterMap_append, ih.1, ihvs ih.2]

theorem filterMap_walk_relocateEntries {α : Type} {f : ObjId → ObjId} {g : Object → Option α}
    {es : List (Object × Object)} (ih : ∀ e ∈ es,
    (∀ {n}, (e.1.relocate f n).walk.filterMap g = e.1.walk.filterMap g) ∧
      ∀ {n}, (e.2.relocate f n).walk.filterMap g = e.2.walk.filterMap g) : ∀ {n},
        ((relocateEntries f n es).flatMap fun e => e.1.walk ++ e.2.walk).filterMap g =
          (es.flatMap fun e => e.1.walk ++ e.2.walk).filterMap g := by
  induction es with
  | nil => intro n; rfl
  | cons e es ihes =>
    intro n
    rw [List.forall_mem_cons] at ih
    rw [relocateEntries, List.flatMap_cons, List.flatMap_cons, List.filterMap_append,
      List.filterMap_append, List.filterMap_append, List.filterMap_append, ih.1.1, ih.1.2,
      ihes ih.2]

/-- What does not depend on addresses is the same for a copy. -/
theorem filterMap_walk_relocate {α : Type} {f : ObjId → ObjId} {g : Object → Option α}
    (hg : ∀ x n, g (relocate f n x) = g x) {o : Object} : ∀ {n : ObjId},
      (o.relocate f n).walk.filterMap g = o.walk.filterMap g := by
  induction o using Object.induct with
  | list i t vs ih =>
    intro n
    have hself := hg (.list i t vs) n
    rw [relocate] at hself ⊢
    rw [walk_list, walk_list, List.filterMap_cons, List.filterMap_cons, hself,
      filterMap_walk_relocateValues fun v hv _ => ih v hv]
  | map i t es ih =>
    intro n
    have hself := hg (.map i t es) n
    rw [relocate] at hself ⊢
    rw [walk_map, walk_map, List.filterMap_cons, List.filterMap_cons, hself,
      filterMap_walk_relocateEntries fun e he => ⟨(ih e he).1, (ih e he).2⟩]
  | classInstance i d vs ih =>
    intro n
    have hself := hg (.classInstance i d vs) n
    rw [relocate] at hself ⊢
    rw [walk_classInstance, walk_classInstance, List.filterMap_cons, List.filterMap_cons, hself,
      filterMap_walk_relocateValues fun v hv _ => ih v hv]
  | ref i =>
    intro n
    have hself : g (.ref (f i)) = g (.ref i) := hg (.ref i) n
    change [Object.ref (f i)].filterMap g = [Object.ref i].filterMap g
    rw [List.filterMap_cons, List.filterMap_cons, hself]
  | _ => intro n; rfl

theorem relocateValues_congr {f g : ObjId → ObjId} {vs : List Object}
    (ih : ∀ v ∈ vs, ∀ {n}, (∀ i ∈ v.refs, f i = g i) → v.relocate f n = v.relocate g n) :
    ∀ {n}, (∀ i ∈ vs.flatMap refs, f i = g i) →
      relocateValues f n vs = relocateValues g n vs := by
  induction vs with
  | nil => intro n _; rfl
  | cons v vs ihvs =>
    intro n h
    rw [List.forall_mem_cons] at ih
    rw [List.flatMap_cons, List.forall_mem_append] at h
    rw [relocateValues, relocateValues, ih.1 h.1, ihvs ih.2 h.2]

theorem relocateEntries_congr {f g : ObjId → ObjId} {es : List (Object × Object)} (ih : ∀ e ∈ es,
    (∀ {n}, (∀ i ∈ e.1.refs, f i = g i) → e.1.relocate f n = e.1.relocate g n) ∧
      ∀ {n}, (∀ i ∈ e.2.refs, f i = g i) → e.2.relocate f n = e.2.relocate g n) :
    ∀ {n}, (∀ i ∈ es.flatMap fun e => e.1.refs ++ e.2.refs, f i = g i) →
      relocateEntries f n es = relocateEntries g n es := by
  induction es with
  | nil => intro n _; rfl
  | cons e es ihes =>
    intro n h
    rw [List.forall_mem_cons] at ih
    rw [List.flatMap_cons, List.forall_mem_append, List.forall_mem_append] at h
    rw [relocateEntries, relocateEntries, ih.1.1 h.1.1, ih.1.2 h.1.2, ihes ih.2 h.2]

/-- Copies whose references point to the same places are the same. -/
theorem relocate_congr {f g : ObjId → ObjId} {o : Object} : ∀ {n : ObjId},
    (∀ i ∈ o.refs, f i = g i) → o.relocate f n = o.relocate g n := by
  induction o using Object.induct with
  | ref i =>
    intro n h
    rw [relocate, relocate, h i (List.mem_singleton_self i)]
  | list i t vs ih =>
    intro n h
    rw [refs_list] at h
    rw [relocate, relocate, relocateValues_congr (fun v hv _ => ih v hv) h]
  | map i t es ih =>
    intro n h
    rw [refs_map] at h
    rw [relocate, relocate, relocateEntries_congr (fun e he => ⟨(ih e he).1, (ih e he).2⟩) h]
  | classInstance i d vs ih =>
    intro n h
    rw [refs_classInstance] at h
    rw [relocate, relocate, relocateValues_congr (fun v hv _ => ih v hv) h]
  | _ => intro n _; rfl

/-! ### Equality of copies -/

/-- `f` tells the targets of references apart. -/
def Separates (f : ObjId → ObjId) (is js : List ObjId) : Prop :=
  ∀ i ∈ is, ∀ j ∈ js, f i = f j → i = j

theorem separates_append_left {f : ObjId → ObjId} {is is' js : List ObjId} :
    Separates f (is ++ is') js ↔ Separates f is js ∧ Separates f is' js := List.forall_mem_append

theorem separates_append_right {f : ObjId → ObjId} {is js js' : List ObjId} :
    Separates f is (js ++ js') ↔ Separates f is js ∧ Separates f is js' := by
  simp only [Separates, List.forall_mem_append, forall_and]

/-- The copies of an object, wherever they are, compare with copies as it does with the
originals. -/
def Comparable (f : ObjId → ObjId) (x : Object) : Prop :=
  ∀ forward n m (y : Object), Separates f x.refs y.refs →
    equalAs forward (x.relocate f n) (y.relocate f m) = equalAs forward x y

theorem equalLists_relocate {f : ObjId → ObjId} {xs : List Object}
    (ih : ∀ x ∈ xs, Comparable f x) : ∀ {forward n m} {ys : List Object},
    Separates f (xs.flatMap refs) (ys.flatMap refs) →
      equalLists forward (relocateValues f n xs) (relocateValues f m ys) =
        equalLists forward xs ys := by
  induction xs with
  | nil =>
    intro forward n m ys _
    cases ys <;> rfl
  | cons x xs ihxs =>
    intro forward n m ys h
    rw [List.forall_mem_cons] at ih
    cases ys with
    | nil => rfl
    | cons y ys =>
      rw [List.flatMap_cons, List.flatMap_cons, separates_append_left, separates_append_right,
        separates_append_right] at h
      rw [relocateValues, relocateValues, equalLists, equalLists, ih.1 _ _ _ y h.1.1,
        ihxs ih.2 h.2.2]

/-- The targets in the entries of a map. -/
def entryRefs (es : List (Object × Object)) : List ObjId := es.flatMap fun e => e.1.refs ++ e.2.refs

theorem entryRefs_cons (e : Object × Object) (es : List (Object × Object)) :
    entryRefs (e :: es) = e.1.refs ++ (e.2.refs ++ entryRefs es) := by
  rw [entryRefs, List.flatMap_cons, List.append_assoc, entryRefs]

/-- The entry found for a key has a value that equals `v`, the key and `v` on the left. -/
def foundIn (k v : Object) (fs : List (Object × Object)) : Bool :=
  match fs.find? fun e => equalAs false k e.1 with
  | some e => equalAs false v e.2
  | none => false

theorem foundIn_cons (k v : Object) (e : Object × Object) (fs : List (Object × Object)) :
    foundIn k v (e :: fs) = if equalAs false k e.1 then equalAs false v e.2 else foundIn k v fs := by
  rw [foundIn, foundIn]
  by_cases h : equalAs false k e.1
  · rw [List.find?_cons_of_pos (p := fun e : Object × Object => equalAs false k e.1) h, if_pos h]
  · rw [List.find?_cons_of_neg (p := fun e : Object × Object => equalAs false k e.1) h, if_neg h]

theorem foundIn_relocate {f : ObjId → ObjId} {k v : Object} (hk : Comparable f k)
    (hv : Comparable f v) {i j : ObjId} {fs : List (Object × Object)} : ∀ {m : ObjId},
    Separates f k.refs (entryRefs fs) → Separates f v.refs (entryRefs fs) →
      foundIn (k.relocate f i) (v.relocate f j) (relocateEntries f m fs) = foundIn k v fs := by
  induction fs with
  | nil => intro m _ _; rfl
  | cons e fs ih =>
    intro m hks hvs
    rw [entryRefs_cons, separates_append_right, separates_append_right] at hks hvs
    rw [relocateEntries, foundIn_cons, foundIn_cons, hk _ _ _ e.1 hks.1, hv _ _ _ e.2 hvs.2.1,
      ih hks.2.2 hvs.2.2]

theorem allFound_relocate {f : ObjId → ObjId} {es fs : List (Object × Object)}
    (ih : ∀ e ∈ es, Comparable f e.1 ∧ Comparable f e.2) {m : ObjId} : ∀ {n : ObjId},
    Separates f (entryRefs es) (entryRefs fs) →
      allFound (relocateEntries f n es) (relocateEntries f m fs) = allFound es fs := by
  induction es with
  | nil => intro n _; rfl
  | cons e es ihes =>
    intro n h
    rw [List.forall_mem_cons] at ih
    rw [entryRefs_cons, separates_append_left, separates_append_left] at h
    have hfound := foundIn_relocate (i := n) (j := n + e.1.containers.length) (m := m) ih.1.1 ih.1.2
      h.1 h.2.1
    rw [relocateEntries, allFound, allFound, ihes ih.2 h.2.2]
    exact congrArg (· && allFound es fs) hfound

theorem findsEqual_relocate {f : ObjId → ObjId} {k v : Object} {n₁ n₂ : ObjId}
    {es : List (Object × Object)} (ih : ∀ e ∈ es, Comparable f e.1 ∧ Comparable f e.2) :
    ∀ {n : ObjId}, Separates f (entryRefs es) k.refs → Separates f (entryRefs es) v.refs →
      findsEqual (relocateEntries f n es) (k.relocate f n₁) (v.relocate f n₂) =
        findsEqual es k v := by
  induction es with
  | nil => intro n _ _; rfl
  | cons e es ihes =>
    intro n hk hv
    rw [List.forall_mem_cons] at ih
    rw [entryRefs_cons, separates_append_left, separates_append_left] at hk hv
    rw [relocateEntries, findsEqual, findsEqual, ih.1.1 _ _ _ k hk.1, ih.1.2 _ _ _ v hv.2.1,
      ihes ih.2 hk.2.2 hv.2.2]

theorem all_findsEqual_relocate {f : ObjId → ObjId} {es fs : List (Object × Object)} {n : ObjId}
    (ih : ∀ e ∈ es, Comparable f e.1 ∧ Comparable f e.2) : ∀ {m : ObjId},
    Separates f (entryRefs es) (entryRefs fs) →
      ((relocateEntries f m fs).all fun e => findsEqual (relocateEntries f n es) e.1 e.2) =
        fs.all fun e => findsEqual es e.1 e.2 := by
  induction fs with
  | nil => intro m _; rfl
  | cons e fs ihfs =>
    intro m h
    rw [entryRefs_cons e fs, separates_append_right, separates_append_right] at h
    rw [relocateEntries, List.all_cons, List.all_cons, findsEqual_relocate ih h.1 h.2.1,
      ihfs h.2.2]

theorem length_relocateEntries {f : ObjId → ObjId} {es : List (Object × Object)} :
    ∀ {n : ObjId}, (relocateEntries f n es).length = es.length := by
  induction es with
  | nil => intro n; rfl
  | cons e es ih => intro n; rw [relocateEntries, List.length_cons, ih, List.length_cons]

/-- **Copies are equal exactly if the originals are**, if `f` tells apart what they refer to. -/
theorem equalAs_relocate {f : ObjId → ObjId} (x : Object) : Comparable f x := by
  induction x using Object.induct with
  | ref i =>
    intro forward n m y h
    cases y with
    | ref j =>
      have hij : f i = f j ↔ i = j :=
        ⟨h i (List.mem_singleton_self i) j (List.mem_singleton_self j), congrArg f⟩
      simp only [relocate, equalAs, beq_eq_decide, hij]
    | _ => rfl
  | list i t xs ih =>
    intro forward n m y h
    cases y with
    | list j u ys =>
      rw [refs_list, refs_list] at h
      rw [relocate, relocate, equalAs, equalAs, equalLists_relocate ih h]
    | _ => rfl
  | map i t es ih =>
    intro forward n m y h
    cases y with
    | map j u fs =>
      rw [refs_map, refs_map] at h
      rw [relocate, relocate, equalAs, equalAs, allFound_relocate ih h, all_findsEqual_relocate ih h,
        length_relocateEntries, length_relocateEntries]
    | _ => rfl
  | classInstance i d xs ih =>
    intro forward n m y h
    cases y with
    | classInstance j c ys =>
      rw [refs_classInstance, refs_classInstance] at h
      rw [relocate, relocate, equalAs, equalAs, equalLists_relocate ih h]
    | _ => rfl
  | _ =>
    intro forward n m y h
    cases y <;> rfl

end Object

end Hessian2
