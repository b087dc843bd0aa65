import Hessian2.Reader
import Hessian2.Parsing.Tame

/-!
# The decoder

The state of a `Decoder` besides its reader.

* `Tables` : the tables `types_ref_`, `def_ref_` and `values_ref_`, the error fields, and the
  memory of the containers the decoder creates.  `events` records the map insertions and the
  references for the statements about them; nothing reads it.
* `Dec` : the decoding functions.
* `Dec.allocate`, `Dec.finish`, `Dec.owning`, `Dec.container` : the life of a container that is
  being decoded.
* `Dec.lookup` : an access to a table.
* `Dec.record` : a note in `events`.
* `Dec.emplace` : an insertion into a hash map.
-/

namespace Hessian2

open Parsing Parsing.Parser

/-- `Decoder::ErrorCode`. -/
inductive ErrorCode where
  | noDecodeError
  | notEnoughBuffer
  | unexpectedType
deriving DecidableEq

/-- One call of `node_hash_map::emplace`. -/
structure Insertion where
  /-- The map that is being decoded. -/
  map : ObjId
  key : Object
  value : Object
  /-- The containers at the time of the call. -/
  heap : Heap
  /-- The static variable of `BinaryObject::hash` at the time of the call. -/
  binaryHash : UInt64
  /-- The pair was stored. -/
  stored : Bool

/-- What a decoder does to the objects it has created. -/
inductive Event where
  /-- A pair was given to a hash map. -/
  | insertion (call : Insertion)
  /-- A `RefObject` was created. -/
  | reference (target : ObjId)

/-- The state of a `Decoder` besides its reader. -/
structure Tables where
  /-- `types_ref_`. -/
  typesRef : List Bytes
  /-- `def_ref_`. -/
  defRef : List RawDefinition
  /-- `values_ref_`. -/
  valuesRef : List ObjId
  /-- `error_code_`. -/
  errorCode : ErrorCode
  /-- `error_pos_`. -/
  errorPos : Int32
  /-- The containers created so far. -/
  heap : Heap
  /-- The static variable of `BinaryObject::hash`. -/
  binaryHash : UInt64
  /-- The insertions and references so far. -/
  events : List Event

/-- The state of a new `Decoder` in a new process. -/
def Tables.empty : Tables := ⟨[], [], [], .noDecodeError, 0, [], 0, []⟩

/-- `errorCodeToString`. -/
def ErrorCode.toText : ErrorCode → String
  | .noDecodeError => ""
  | .notEnoughBuffer => "There is not enough buffer"
  | .unexpectedType => "Unexpected type"

/-- `getErrorMessage`.  The position is part of the message where it is zero. -/
def Tables.getErrorMessage (t : Tables) : String :=
  if t.errorPos = 0 then "pos: " ++ toString t.errorPos.toInt ++ ", " ++ t.errorCode.toText
  else t.errorCode.toText

/-- The functions of a `Decoder`; `nullptr` is `Parser.fail`. -/
abbrev Dec (α : Type) := Parser UInt8 Tables Fault α

namespace Tables

/-- Destroy the containers at the given addresses. -/
def destroy (t : Tables) (ids : List ObjId) : Tables :=
  { t with heap := t.heap.mapIdx fun i cell => if i ∈ ids then .destroyed else cell }

/-- The tables behind the entry of a container. -/
def started (t : Tables) (kind : ContainerKind) : Tables :=
  { t with heap := t.heap ++ [.started kind], valuesRef := t.valuesRef ++ [t.heap.length] }

/-- Destroy the containers created since there were `n` of them. -/
def destroyFrom (t : Tables) (n : ℕ) : Tables :=
  { t with heap := t.heap.take n ++ List.replicate (t.heap.length - n) .destroyed }

end Tables

namespace Dec

variable {α : Type} (P : Platform)

/-- `ABSL_ASSERT`. -/
def abslAssert (condition : Bool) : Dec Unit :=
  if condition || P.ndebug then pure () else fault .assertFailed

/-- The entry of a table that a number stands for, if there is one. -/
def lookup (f : Tables → Option α) : Dec α := do
  let t ← aux
  match f t with
  | some a => pure a
  | none => fail

/-- `std::make_unique` of a container and `values_ref_.push_back`. -/
def allocate (kind : ContainerKind) : Dec ObjId := do
  let t ← aux
  modifyAux fun t =>
    { t with heap := t.heap ++ [.started kind], valuesRef := t.valuesRef ++ [t.heap.length] }
  pure t.heap.length

/-- Set the contents of a container. -/
def finish (self : ObjId) (contents : Object) : Dec Object := do
  modifyAux fun t => { t with heap := t.heap.set self (.finished contents) }
  pure contents

/-- A function that owns what it creates: when it returns `nullptr`, all of that is destroyed. -/
def owning (m : Dec α) : Dec α := onFail (fun t s => s.aux.destroyFrom t.heap.length) m

/-- The common frame of the functions that decode a container: it is created and registered, `body`
reads its contents, and then they are set. -/
def container (kind : ContainerKind) (body : ObjId → Dec Object) : Dec Object := owning do
  let result ← allocate kind
  let contents ← body result
  finish result contents

/-- Note an event. -/
def record (event : Event) : Dec Unit :=
  modifyAux fun t => { t with events := t.events ++ [event] }

/-- `emplace` of a key and a value into the hash map that is becoming the map `self`.  A pair that
is not stored is destroyed. -/
def emplace (self : ObjId) (slots : List Slot) (key value : Object) : Dec (List Slot) := do
  let t ← aux
  match key.hash P t.heap t.binaryHash with
  | none =>
    record (.insertion ⟨self, key, value, t.heap, t.binaryHash, false⟩)
    fault .undefinedHash
  | some (h, static) =>
    let stored := !findsKey slots h key
    record (.insertion ⟨self, key, value, t.heap, t.binaryHash, stored⟩)
    modifyAux fun t => { t with binaryHash := static }
    if stored then pure (slots ++ [⟨h, key, value⟩])
    else
      modifyAux fun t => t.destroy (key.containers ++ value.containers)
      pure slots

/-! ### Leaves -/

/-- A function that reads a value without other containers in it: it does not stop, and it reads at
least one byte. -/
def Leaf (m : Dec α) : Prop := ∀ E T N, Tame E T N m m fun _ => 1

/-- A lead byte, then a form that the lead byte announces. -/
theorem Leaf.of_next {m : Dec α} {form : UInt8 → Dec α} (h : m = next >>= form)
    (hf : ∀ code E T N, Tame E T N (form code) (form code) fun _ => 0) : Leaf m := by
  intro E T N
  rw [h]
  exact Tame.next.bind (fun code => hf code E T _) fun _ _ => Nat.le_refl _

/-- Any number of bytes, then a value. -/
theorem tame_take {E : Fault → Prop} {T : Prop} {N : ℕ} (n : ℕ) (f : Bytes → α) :
    Tame E T N (take n >>= fun bs => pure (f bs) : Dec α) (take n >>= fun bs => pure (f bs))
      fun _ => 0 := (Tame.take n).map f fun _ => Nat.zero_le _

theorem lookup_tame (E : Fault → Prop) (T : Prop) (N : ℕ) (f : Tables → Option α) :
    Tame E T N (lookup f) (lookup f) fun _ => 0 := by
  refine Tame.aux.seq fun t => ?_
  cases f t with
  | some a => exact .pure a
  | none => exact .failure _

theorem record_tame (E : Fault → Prop) (T : Prop) (N : ℕ) (event : Event) :
    Tame E T N (record event) (record event) fun _ => 0 := Tame.modifyAux _

theorem lookup_reads {f : Tables → Option α} {t : Tables} {a : α} (h : f t = some a) :
    Reads (lookup f) t [] a t := by
  refine (reads_aux t).bind ?_
  rw [h]
  exact reads_pure a t

end Dec

end Hessian2
