import Hessian2.Object

/-!
# Hashing

`Object::hash` over the memory in which references are followed.

* `Platform` : the build switches and the hash functions of the standard library and abseil,
  which the code leaves open.
* `Cell`, `Heap` : the containers a decoder has created, by address.
* `Object.hash` : `Object::hash`; undefined where it follows a reference to an instance whose
  definition has not been set or to an object that no longer exists.
* `Slot`, `findsKey` : the table of an `absl::node_hash_map` under construction.
-/

namespace Hessian2

/-- What the build and the libraries decide. -/
structure Platform where
  /-- `COMPATIBLE_WITH_JAVA_HESSIAN_LITE` is defined. -/
  javaHessianLite : Bool
  /-- `NDEBUG` is defined: `ABSL_ASSERT` does nothing. -/
  ndebug : Bool
  /-- `std::hash<std::string>`. -/
  stringHash : Bytes → UInt64
  /-- `absl::Hash<absl::string_view>`. -/
  stringViewHash : Bytes → UInt64
  /-- `std::hash<bool>`. -/
  boolHash : Bool → UInt64
  /-- `std::hash<int32_t>`. -/
  int32Hash : Int32 → UInt64
  /-- `std::hash<int64_t>`. -/
  int64Hash : Int64 → UInt64
  /-- `std::hash<double>`. -/
  doubleHash : UInt64 → UInt64
  /-- `std::hash<size_t>`. -/
  sizeHash : UInt64 → UInt64
  /-- `std::hash<uint8_t>`. -/
  byteHash : UInt8 → UInt64

/-- A debug build to evaluate the model in.  Integers hash to themselves, and strings to their
length. -/
def Platform.simple : Platform where
  javaHessianLite := false
  ndebug := false
  stringHash s := .ofNat s.length
  stringViewHash s := .ofNat s.length
  boolHash b := b.toUInt64
  int32Hash i := i.toInt64.toUInt64
  int64Hash i := i.toUInt64
  doubleHash d := d
  sizeHash n := n
  byteHash b := b.toUInt64

/-- The same without `COMPATIBLE_WITH_JAVA_HESSIAN_LITE`. -/
def Platform.plain (P : Platform) : Platform := { P with javaHessianLite := false }

@[simp] theorem Platform.plain_javaHessianLite (P : Platform) : P.plain.javaHessianLite = false :=
  rfl

/-- `Utils::hashCombine`, given the hash of the value. -/
def hashCombine (seed v : UInt64) : UInt64 :=
  seed ^^^ (v + 0x9e3779b9 + seed <<< (6 : UInt64) + seed >>> (2 : UInt64))

/-- `"null"`. -/
def nullMagicString : Bytes := [0x6e, 0x75, 0x6c, 0x6c]

/-- `"untypedlist"`. -/
def untypedListMagicString : Bytes :=
  [0x75, 0x6e, 0x74, 0x79, 0x70, 0x65, 0x64, 0x6c, 0x69, 0x73, 0x74]

/-- `"untypedmap"`. -/
def untypedMapMagicString : Bytes := [0x75, 0x6e, 0x74, 0x79, 0x70, 0x65, 0x64, 0x6d, 0x61, 0x70]

/-- The kinds of containers, each with whether it is typed. -/
inductive ContainerKind where
  | list (typed : Bool)
  | map (typed : Bool)
  | classInstance

/-- What lives at the address of a container. -/
inductive Cell where
  /-- A container as its default constructor leaves it, until its contents are set. -/
  | started (kind : ContainerKind)
  /-- A container with its contents. -/
  | finished (contents : Object)
  /-- A container that has been destroyed. -/
  | destroyed

/-- The containers a decoder has created, the `i`-th at address `i`. -/
abbrev Heap := List Cell

section Hash

variable (P : Platform)

/-- The hash of a list with the given type name and length. -/
def listHash (typeName : Option Bytes) (length : ℕ) : UInt64 :=
  hashCombine (P.stringHash (typeName.getD untypedListMagicString)) (P.sizeHash (.ofNat length))

/-- The hash of a map with the given type name and number of entries. -/
def mapHash (typeName : Option Bytes) (size : ℕ) : UInt64 :=
  hashCombine (P.stringHash (typeName.getD untypedMapMagicString)) (P.sizeHash (.ofNat size))

/-- `RawDefinition::hash`. -/
def RawDefinition.hash (d : RawDefinition) : UInt64 :=
  hashCombine (P.stringHash d.type) (P.sizeHash (.ofNat d.fieldNames.length))

/-- `ClassInstance::hash` of an instance that has its definition. -/
def classInstanceHash (d : RawDefinition) (length : ℕ) : UInt64 :=
  hashCombine (d.hash P) (P.sizeHash (.ofNat length))

/-- The hash of the container in a cell.  Only containers have addresses, and the hash of a
container looks at nothing but its name and its size. -/
def Cell.hash : Cell → Option UInt64
  | .started (.list typed) => some (listHash P (if typed then some [] else none) 0)
  | .started (.map typed) => some (mapHash P (if typed then some [] else none) 0)
  | .started .classInstance => none
  | .finished (.list _ t vs) => some (listHash P t vs.length)
  | .finished (.map _ t es) => some (mapHash P t es.length)
  | .finished (.classInstance _ d vs) => some (classInstanceHash P d vs.length)
  | .finished _ => none
  | .destroyed => none

/-- The container in a finished cell has a hash. -/
theorem Cell.hash_finished {o : Object} {r : ObjId} (ho : o.self? = some r) :
    (Cell.finished o).hash P ≠ none := by
  cases o with
  | list i u vs => exact Option.some_ne_none _
  | map i u es => exact Option.some_ne_none _
  | classInstance i d vs => exact Option.some_ne_none _
  | _ => cases ho

/-- The hash that `BinaryObject::hash` computes when it has none yet. -/
def binaryHash (data : Bytes) : UInt64 :=
  data.foldl (fun seed b => hashCombine seed (P.byteHash b)) (.ofNat data.length)

/-- `Object::hash`, with the new value of the static variable in `BinaryObject::hash`. -/
def Object.hash (heap : Heap) (static : UInt64) : Object → Option (UInt64 × UInt64)
  | .null => some (P.stringHash nullMagicString, static)
  | .boolean b => some (P.boolHash b, static)
  | .integer i => some (P.int32Hash i, static)
  | .long i => some (P.int64Hash i, static)
  | .double d => some (P.doubleHash d, static)
  | .date t => some (P.sizeHash t.toUInt64, static)
  | .string s => some (P.stringViewHash s, static)
  | .binary b =>
    if static ≠ 0 then some (static, static) else some (binaryHash P b, binaryHash P b)
  | .ref i => (heap[i]?.bind (Cell.hash P)).map fun h => (h, static)
  | .list _ t vs => some (listHash P t vs.length, static)
  | .map _ t es => some (mapHash P t es.length, static)
  | .classInstance _ d vs => some (classInstanceHash P d vs.length, static)

end Hash

/-! ### Hash maps -/

/-- An entry of a hash map under construction, with the hash its key had on insertion. -/
structure Slot where
  hash : UInt64
  key : Object
  value : Object

/-- `node_hash_map::find` finds an entry for the key: one inserted under the same hash whose key
equals it. -/
def findsKey (slots : List Slot) (hash : UInt64) (key : Object) : Bool :=
  slots.any fun s => s.hash == hash && s.key.equal key

end Hessian2
