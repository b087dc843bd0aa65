import Hessian2.Double

/-!
# Objects

The object model of `object.hpp`.  A container carries the address it lives at, since a
`RefObject` is nothing but the address of its target; two containers with equal contents at
different addresses are different objects.

* `RawDefinition` : a class name with its field names.
* `Object` : the object graphs.  `typeName` is `none` in an `UntypedListObject` or
  `UntypedMapObject` and the name in a `TypedListObject` or `TypedMapObject`.  The entries of a
  map stand in the order in which the hash map iterates over them.
* `Object.equal` : `Object::equal`, virtual call by virtual call.
* `Object.walk`, `Object.nodes` : an object and everything it owns, in the order in which it is
  encoded, and how many objects these are.
* `Object.relocate` : the copy of an object at fresh addresses.
-/

namespace Hessian2

/-- A string of bytes. -/
abbrev Bytes := List UInt8

/-- An address. -/
abbrev ObjId := ℕ

/-- `Object::RawDefinition`: a class and its fields. -/
structure RawDefinition where
  /-- The name of the class. -/
  type : Bytes
  /-- The names of its fields. -/
  fieldNames : List Bytes
deriving DecidableEq

/-- `Object` and its subclasses. -/
inductive Object where
  | null
  | boolean (data : Bool)
  | integer (data : Int32)
  | long (data : Int64)
  /-- A double, as its 64 bits. -/
  | double (data : UInt64)
  /-- A date, in milliseconds. -/
  | date (data : Int64)
  | string (data : Bytes)
  | binary (data : Bytes)
  | ref (target : ObjId)
  | list (self : ObjId) (typeName : Option Bytes) (values : List Object)
  | map (self : ObjId) (typeName : Option Bytes) (entries : List (Object × Object))
  | classInstance (self : ObjId) (definition : RawDefinition) (data : List Object)

namespace Object

/-- `TypedListObject`. -/
@[match_pattern] abbrev typedList (self : ObjId) (typeName : Bytes) (values : List Object) :
    Object := .list self (some typeName) values

/-- `UntypedListObject`. -/
@[match_pattern] abbrev untypedList (self : ObjId) (values : List Object) : Object :=
  .list self none values

/-- `TypedMapObject`. -/
@[match_pattern] abbrev typedMap (self : ObjId) (typeName : Bytes)
    (entries : List (Object × Object)) : Object := .map self (some typeName) entries

/-- `UntypedMapObject`. -/
@[match_pattern] abbrev untypedMap (self : ObjId) (entries : List (Object × Object)) : Object :=
  .map self none entries

/-- Induction over an object and what it owns. -/
theorem induct {P : Object → Prop} (null : P .null) (boolean : ∀ b, P (.boolean b))
    (integer : ∀ i, P (.integer i)) (long : ∀ i, P (.long i)) (double : ∀ d, P (.double d))
    (date : ∀ t, P (.date t)) (string : ∀ s, P (.string s)) (binary : ∀ b, P (.binary b))
    (ref : ∀ i, P (.ref i)) (list : ∀ i t vs, (∀ v ∈ vs, P v) → P (.list i t vs))
    (map : ∀ i t es, (∀ e ∈ es, P e.1 ∧ P e.2) → P (.map i t es))
    (classInstance : ∀ i d vs, (∀ v ∈ vs, P v) → P (.classInstance i d vs)) (o : Object) :
    P o := by
  refine Object.rec (motive_1 := P) (motive_2 := fun vs => ∀ v ∈ vs, P v)
    (motive_3 := fun es => ∀ e ∈ es, P e.1 ∧ P e.2) (motive_4 := fun e => P e.1 ∧ P e.2)
    null boolean integer long double date string binary ref list map classInstance
    ?_ ?_ ?_ ?_ ?_ o
  · simp
  · intro v vs hv hvs; simpa using ⟨hv, hvs⟩
  · simp
  · intro e es he hes; simpa using ⟨he, fun a b h => hes (a, b) h⟩
  · intro k v hk hv; exact ⟨hk, hv⟩

/-! ### Equality -/

mutual

/-- `a.equal(b)` if `forward`, else `b.equal(a)`.  Typed lists, typed maps and class instances
are compared by `==` on their data with the sides exchanged, untyped lists as they stand; a typed
map looks the entries of its argument up in itself and, comparing a size with itself, never
checks the number of entries. -/
def equalAs : Bool → Object → Object → Bool
  | _, .null, .null => true
  | _, .boolean a, .boolean b => a == b
  | _, .integer a, .integer b => a == b
  | _, .long a, .long b => a == b
  | _, .double a, .double b => Double.eq a b
  | _, .date a, .date b => a == b
  | _, .string a, .string b => a == b
  | _, .binary a, .binary b => a == b
  | _, .ref a, .ref b => a == b
  | forward, .list _ t xs, .list _ u ys => t == u && equalLists (forward != t.isSome) xs ys
  | forward, .map _ t es, .map _ u fs =>
    t == u && (t.isSome || es.length == fs.length) &&
      if forward != t.isSome then allFound es fs else fs.all fun f => findsEqual es f.1 f.2
  | forward, .classInstance _ c xs, .classInstance _ d ys => c == d && equalLists (!forward) xs ys
  | _, _, _ => false
termination_by structural _ a => a

/-- The elements are pairwise equal. -/
def equalLists : Bool → List Object → List Object → Bool
  | _, [], [] => true
  | forward, x :: xs, y :: ys => equalAs forward x y && equalLists forward xs ys
  | _, _, _ => false
termination_by structural _ xs => xs

/-- Every entry of `es` is found in `fs` with an equal value. -/
def allFound : List (Object × Object) → List (Object × Object) → Bool
  | [], _ => true
  | (k, v) :: es, fs =>
    (match fs.find? fun f => equalAs false k f.1 with
      | some f => equalAs false v f.2
      | none => false) && allFound es fs
termination_by structural es => es

/-- The entry of `es` that is found for the key `k` has a value equal to `v`. -/
def findsEqual : List (Object × Object) → Object → Object → Bool
  | [], _, _ => false
  | (k', v') :: es, k, v => if equalAs true k' k then equalAs true v' v else findsEqual es k v
termination_by structural es => es

end

/-- `a.equal(b)`. -/
def equal (a b : Object) : Bool := equalAs true a b

/-- No two keys of a map are equal. -/
def KeysApart : Object → Prop
  | .map _ _ es => es.Pairwise fun e e' => e.1.equal e'.1 = false
  | _ => True

/-! ### What an object owns -/

mutual

/-- The object and everything it owns, in the order in which it is encoded. -/
def walk : Object → List Object
  | .list i t vs => .list i t vs :: walkValues vs
  | .map i t es => .map i t es :: walkEntries es
  | .classInstance i d vs => .classInstance i d vs :: walkValues vs
  | o => [o]

/-- `walk` over the elements of a list. -/
def walkValues : List Object → List Object
  | [] => []
  | v :: vs => walk v ++ walkValues vs

/-- `walk` over the keys and values of a map. -/
def walkEntries : List (Object × Object) → List Object
  | [] => []
  | (k, v) :: es => walk k ++ walk v ++ walkEntries es

end

/-- The address of a container. -/
def self? : Object → Option ObjId
  | .list i _ _ | .map i _ _ | .classInstance i _ _ => some i
  | _ => none

/-- The address a `RefObject` points to. -/
def target? : Object → Option ObjId
  | .ref i => some i
  | _ => none

/-- The addresses of the containers an object owns, itself included. -/
def containers (o : Object) : List ObjId := o.walk.filterMap self?

/-- The targets of the references in an object. -/
def refs (o : Object) : List ObjId := o.walk.filterMap target?

@[simp] theorem walkValues_eq : ∀ vs, walkValues vs = vs.flatMap walk
  | [] => rfl
  | v :: vs => by rw [walkValues, walkValues_eq vs, List.flatMap_cons]

@[simp] theorem walkEntries_eq :
    ∀ es, walkEntries es = es.flatMap fun e => walk e.1 ++ walk e.2
  | [] => rfl
  | (k, v) :: es => by rw [walkEntries, walkEntries_eq es, List.flatMap_cons]

theorem mem_walk_self (o : Object) : o ∈ o.walk := by cases o <;> simp [walk]

theorem walk_ne_nil (o : Object) : o.walk ≠ [] := List.ne_nil_of_mem o.mem_walk_self

theorem walk_list (i : ObjId) (t : Option Bytes) (vs : List Object) :
    (list i t vs).walk = list i t vs :: vs.flatMap walk := by rw [walk, walkValues_eq]

theorem walk_map (i : ObjId) (t : Option Bytes) (es : List (Object × Object)) :
    (map i t es).walk = map i t es :: es.flatMap fun e => e.1.walk ++ e.2.walk := by
  rw [walk, walkEntries_eq]

theorem walk_classInstance (i : ObjId) (d : RawDefinition) (vs : List Object) :
    (classInstance i d vs).walk = classInstance i d vs :: vs.flatMap walk := by
  rw [walk, walkValues_eq]

/-- What an object owns is owned by whatever owns the object. -/
theorem walk_subset (o : Object) : ∀ x ∈ o.walk, ∀ y ∈ x.walk, y ∈ o.walk := by
  have hleaf {z : Object} (hz : z.walk = [z]) : ∀ x ∈ z.walk, ∀ y ∈ x.walk, y ∈ z.walk := by
    intro x hx y hy
    rw [hz, List.mem_singleton] at hx
    rwa [hx] at hy
  have hvalues {z : Object} {vs : List Object} (hz : z.walk = z :: vs.flatMap walk)
      (ih : ∀ v ∈ vs, ∀ x ∈ v.walk, ∀ y ∈ x.walk, y ∈ v.walk) :
      ∀ x ∈ z.walk, ∀ y ∈ x.walk, y ∈ z.walk := by
    intro x hx y hy
    rw [hz, List.mem_cons, List.mem_flatMap] at hx
    obtain rfl | ⟨v, hv, hx⟩ := hx
    · exact hy
    · rw [hz, List.mem_cons, List.mem_flatMap]
      exact .inr ⟨v, hv, ih v hv x hx y hy⟩
  induction o using Object.induct with
  | list i t vs ih => exact hvalues (walk_list i t vs) ih
  | classInstance i d vs ih => exact hvalues (walk_classInstance i d vs) ih
  | map i t es ih =>
    intro x hx y hy
    rw [walk_map, List.mem_cons, List.mem_flatMap] at hx
    obtain rfl | ⟨e, he, hx⟩ := hx
    · exact hy
    · rw [walk_map, List.mem_cons, List.mem_flatMap]
      refine .inr ⟨e, he, ?_⟩
      rw [List.mem_append] at hx ⊢
      exact hx.imp (fun hx => (ih e he).1 x hx y hy) fun hx => (ih e he).2 x hx y hy
  | _ => exact hleaf rfl

/-- The number of objects an object consists of. -/
def nodes (o : Object) : ℕ := o.walk.length

theorem nodes_pos (o : Object) : 1 ≤ o.nodes := List.length_pos_iff.2 o.walk_ne_nil

theorem nodes_list (i : ObjId) (t : Option Bytes) (vs : List Object) :
    (list i t vs).nodes = 1 + (vs.map nodes).sum := by
  rw [nodes, walk_list, List.length_cons, List.length_flatMap, Nat.add_comm]
  rfl

theorem nodes_map (i : ObjId) (t : Option Bytes) (es : List (Object × Object)) :
    (map i t es).nodes = 1 + (es.map fun e => e.1.nodes + e.2.nodes).sum := by
  rw [nodes, walk_map, List.length_cons, List.length_flatMap, Nat.add_comm]
  simp only [List.length_append]
  rfl

theorem nodes_classInstance (i : ObjId) (d : RawDefinition) (vs : List Object) :
    (classInstance i d vs).nodes = 1 + (vs.map nodes).sum := by
  rw [nodes, walk_classInstance, List.length_cons, List.length_flatMap, Nat.add_comm]
  rfl

theorem filterMap_flatMap_walk {α : Type} (g : Object → Option α) (vs : List Object) :
    (vs.flatMap walk).filterMap g = vs.flatMap fun v => v.walk.filterMap g :=
  List.filterMap_flatMap

theorem containers_list (i : ObjId) (t : Option Bytes) (vs : List Object) :
    (list i t vs).containers = i :: vs.flatMap containers := by
  rw [containers, walk_list, List.filterMap_cons_some (f := self?) (b := i) rfl,
    filterMap_flatMap_walk]
  rfl

theorem containers_map (i : ObjId) (t : Option Bytes) (es : List (Object × Object)) :
    (map i t es).containers = i :: es.flatMap fun e => e.1.containers ++ e.2.containers := by
  rw [containers, walk_map, List.filterMap_cons_some (f := self?) (b := i) rfl,
    List.filterMap_flatMap]
  simp only [List.filterMap_append, containers]

theorem containers_classInstance (i : ObjId) (d : RawDefinition) (vs : List Object) :
    (classInstance i d vs).containers = i :: vs.flatMap containers := by
  rw [containers, walk_classInstance, List.filterMap_cons_some (f := self?) (b := i) rfl,
    filterMap_flatMap_walk]
  rfl

theorem refs_list (i : ObjId) (t : Option Bytes) (vs : List Object) :
    (list i t vs).refs = vs.flatMap refs := by
  rw [refs, walk_list, List.filterMap_cons_none (f := target?) rfl, filterMap_flatMap_walk]
  rfl

theorem refs_map (i : ObjId) (t : Option Bytes) (es : List (Object × Object)) :
    (map i t es).refs = es.flatMap fun e => e.1.refs ++ e.2.refs := by
  rw [refs, walk_map, List.filterMap_cons_none (f := target?) rfl, List.filterMap_flatMap]
  simp only [List.filterMap_append, refs]

theorem refs_classInstance (i : ObjId) (d : RawDefinition) (vs : List Object) :
    (classInstance i d vs).refs = vs.flatMap refs := by
  rw [refs, walk_classInstance, List.filterMap_cons_none (f := target?) rfl,
    filterMap_flatMap_walk]
  rfl

/-! ### Copies -/

mutual

/-- The copy of an object whose containers live at the addresses from `n` on, in the order of
`walk`, and whose references point where `f` says. -/
def relocate (f : ObjId → ObjId) : ObjId → Object → Object
  | n, .list _ t vs => .list n t (relocateValues f (n + 1) vs)
  | n, .map _ t es => .map n t (relocateEntries f (n + 1) es)
  | n, .classInstance _ d vs => .classInstance n d (relocateValues f (n + 1) vs)
  | _, .ref i => .ref (f i)
  | _, o => o
termination_by structural _ o => o

/-- `relocate` over the elements of a list. -/
def relocateValues (f : ObjId → ObjId) : ObjId → List Object → List Object
  | _, [] => []
  | n, v :: vs => relocate f n v :: relocateValues f (n + v.containers.length) vs
termination_by structural _ vs => vs

/-- `relocate` over the entries of a map. -/
def relocateEntries (f : ObjId → ObjId) :
    ObjId → List (Object × Object) → List (Object × Object)
  | _, [] => []
  | n, (k, v) :: es =>
    (relocate f n k, relocate f (n + k.containers.length) v) ::
      relocateEntries f (n + k.containers.length + v.containers.length) es
termination_by structural _ es => es

end

end Object

end Hessian2
