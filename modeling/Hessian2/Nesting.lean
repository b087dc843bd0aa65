import Hessian2.Relaying
import Hessian2.Streaming

/-!
# Containers in containers, one call after the other

A program that writes containers in containers with the functions of `codec.cc`, instead of objects.

* `Nested` : what such a program writes, with its calls and the object it stands for.
* `Nested.Matched` : the functions can express the part.
* `nested_written` : **the calls write what `encode<Object>` writes for the objects.**
-/

namespace Hessian2

open Parsing Enc Simulation

variable {P : Platform} {α β : Type}

/-! ### Nested containers -/

/-- A value that is written in one call, or a container whose contents are written one after the other
between two calls. -/
inductive Nested where
  | object (value : Object)
  | primitive (value : Primitive)
  | fixedList (type : Bytes) (parts : List Nested)
  | map (type : Bytes) (entries : List (Nested × Nested))
  | classInstance (definition : RawDefinition) (parts : List Nested)

/-- The object that a primitive value is written as. -/
def Primitive.object : Primitive → Object
  | bool value => .boolean value
  | int8 value => .integer value.toInt32
  | int16 value => .integer value.toInt32
  | int32 value => .integer value
  | int64 value => .long value
  | uint8 value => .integer (.ofNat value.toNat)
  | uint16 value => .integer (.ofNat value.toNat)
  | uint32 value => .long (.ofNat value.toNat)
  | double value => .double value
  | string value => .string value
  | binary value => .binary value
  | duration unit value => .date (.ofInt (unit.inMilliseconds value.toInt))

namespace Nested

/-- Induction over a part and its parts. -/
theorem induct {Q : Nested → Prop} (object : ∀ o, Q (.object o)) (primitive : ∀ p, Q (.primitive p))
    (fixedList : ∀ t ps, (∀ p ∈ ps, Q p) → Q (.fixedList t ps))
    (map : ∀ t es, (∀ e ∈ es, Q e.1 ∧ Q e.2) → Q (.map t es))
    (classInstance : ∀ d ps, (∀ p ∈ ps, Q p) → Q (.classInstance d ps)) (p : Nested) : Q p := by
  refine Nested.rec (motive_1 := Q) (motive_2 := fun ps => ∀ p ∈ ps, Q p)
    (motive_3 := fun es => ∀ e ∈ es, Q e.1 ∧ Q e.2) (motive_4 := fun e => Q e.1 ∧ Q e.2)
    object primitive fixedList map classInstance ?_ ?_ ?_ ?_ ?_ p
  · simp
  · intro p ps hp hps; simpa using ⟨hp, hps⟩
  · simp
  · intro e es he hes; simpa using ⟨he, fun a b h => hes (a, b) h⟩
  · intro k v hk hv; exact ⟨hk, hv⟩

mutual

/-- The calls for a part. -/
def encode (P : Platform) : Nested → Enc Unit
  | .object value => encodeObject P value >>= fun _ => pure ()
  | .primitive value => value.encode P >>= fun _ => pure ()
  | .fixedList type parts => do
    encodeFixedListBegin P type (.ofNat parts.length)
    encodeAll P parts
    encodeFixedListEnd
  | .map type entries => do
    encodeMapBegin P type
    encodePairs P entries
    encodeMapEnd
  | .classInstance definition parts => do
    encodeClassInstanceBegin P definition
    encodeAll P parts
    encodeClassInstanceEnd
termination_by structural p => p

/-- The calls for one part after the other. -/
def encodeAll (P : Platform) : List Nested → Enc Unit
  | [] => pure ()
  | p :: ps => do
    encode P p
    encodeAll P ps
termination_by structural ps => ps

/-- The calls for the entries of a map. -/
def encodePairs (P : Platform) : List (Nested × Nested) → Enc Unit
  | [] => pure ()
  | (k, v) :: es => do
    encode P k
    encode P v
    encodePairs P es
termination_by structural es => es

end

mutual

/-- The object that a part stands for, with its containers at some address. -/
def toObject : Nested → Object
  | .object value => value
  | .primitive value => value.object
  | .fixedList type parts => .list 0 (Stream.typeName? type) (toObjects parts)
  | .map type entries => .map 0 (Stream.typeName? type) (toEntries entries)
  | .classInstance definition parts => .classInstance 0 definition (toObjects parts)
termination_by structural p => p

/-- The objects that parts stand for. -/
def toObjects : List Nested → List Object
  | [] => []
  | p :: ps => toObject p :: toObjects ps
termination_by structural ps => ps

/-- The entries that pairs of parts stand for. -/
def toEntries : List (Nested × Nested) → List (Object × Object)
  | [] => []
  | (k, v) :: es => (toObject k, toObject v) :: toEntries es
termination_by structural es => es

end

theorem length_toObjects : ∀ ps, (toObjects ps).length = ps.length
  | [] => rfl
  | p :: ps => by simp [toObjects, length_toObjects ps]

mutual

/-- The functions can express the part: an object has no references, a duration is a number of
milliseconds, and a list has a type and a length of 32 bits. -/
def Matched : Nested → Prop
  | .object value => value.refs = []
  | .primitive (.duration unit value) => IntegralType.int64.Holds (unit.inMilliseconds value.toInt)
  | .primitive _ => True
  | .fixedList type parts => type ≠ [] ∧ parts.length < 2 ^ 32 ∧ AllMatched parts
  | .map _ entries => PairsMatched entries
  | .classInstance _ parts => AllMatched parts
termination_by structural p => p

/-- `Matched`, for parts. -/
def AllMatched : List Nested → Prop
  | [] => True
  | p :: ps => Matched p ∧ AllMatched ps
termination_by structural ps => ps

/-- `Matched`, for the entries of a map. -/
def PairsMatched : List (Nested × Nested) → Prop
  | [] => True
  | (k, v) :: es => Matched k ∧ Matched v ∧ PairsMatched es
termination_by structural es => es

end

end Nested

/-! ### Encoders that know the same names -/

/-- The encoders have written the same and know the same names. -/
structure Encoder.SameNames (e e' : Encoder) : Prop where
  output : e'.output = e.output
  typesRef : e'.typesRef = e.typesRef
  defRef : e'.defRef = e.defRef

theorem Encoder.sameNames_abreast : Abreast Encoder.SameNames where
  typesRef h := h.typesRef
  defRef h := h.defRef
  extend bs _ h := { h with output := congrArg (· ++ bs) h.output }
  enterType value h := { h with typesRef := congrArg (fun n : KeyTable Bytes => n.enter value) h.typesRef }
  enterDef value h := { h with defRef := congrArg (· ++ [value]) h.defRef }

/-- A container is numbered on one side only. -/
theorem enterValue_skipped {m : Enc α} {m' : Enc α} (i : ObjId) (h : Simulates Encoder.SameNames m m') :
    Simulates Encoder.SameNames m (enterValue i >>= fun _ => m') :=
  skip_right (fun _ _ hs => { hs with }) h

namespace Primitive

/-- A primitive value is written as its object is. -/
theorem encode_object (p : Primitive) (h : (Nested.primitive p).Matched) :
    p.encode P = encodeObject P p.object := by
  cases p with
  | duration unit value =>
    funext e
    rw [Nested.Matched] at h
    have hms := IntegralType.holds_int64.1 h
    have hcount : DurationType.milliseconds.inMilliseconds
        (Int64.ofInt (unit.inMilliseconds value.toInt)).toInt = unit.inMilliseconds value.toInt := by
      rw [Int64.toInt_ofInt_of_le hms.1 hms.2]
      exact Int.mul_one _
    have hdate := encodeDuration_writes .milliseconds (hcount ▸ h) e
    rw [hcount] at hdate
    exact (encodeDuration_writes unit h e).trans hdate.symm
  | _ => rfl

end Primitive

namespace Nested

theorem encodeAll_simulates {ps : List Nested} (h : AllMatched ps)
    (ih : ∀ p ∈ ps, p.Matched → Simulates Encoder.SameNames (p.encode P)
      (encodeObject P p.toObject >>= fun _ => pure ())) :
    Simulates Encoder.SameNames (encodeAll P ps) (encodeValues P (toObjects ps)) := by
  induction ps with
  | nil => exact .pure ()
  | cons p ps ihps =>
    rw [List.forall_mem_cons] at ih
    have hp := (ih.1 h.1).bind fun _ => ihps h.2 ih.2
    simpa [encodeAll, toObjects, encodeValues] using hp

theorem encodePairs_simulates {es : List (Nested × Nested)} (h : PairsMatched es)
    (ih : ∀ e ∈ es, (e.1.Matched → Simulates Encoder.SameNames (e.1.encode P)
        (encodeObject P e.1.toObject >>= fun _ => pure ())) ∧
      (e.2.Matched → Simulates Encoder.SameNames (e.2.encode P)
        (encodeObject P e.2.toObject >>= fun _ => pure ()))) :
    Simulates Encoder.SameNames (encodePairs P es) (encodeEntries P (toEntries es)) := by
  induction es with
  | nil => exact .pure ()
  | cons e es ihes =>
    rw [List.forall_mem_cons] at ih
    have he := (ih.1.1 h.1).bind fun _ => (ih.1.2 h.2.1).bind fun _ => ihes h.2.2 ih.2
    simpa [encodePairs, toEntries, encodeEntries] using he

/-- **The calls for a part write what `encode<Object>` writes for its object.** -/
theorem encode_simulates (p : Nested) (h : p.Matched) :
    Simulates Encoder.SameNames (p.encode P) (encodeObject P p.toObject >>= fun _ => pure ()) := by
  have hR := Encoder.sameNames_abreast
  -- nothing is numbered on the side of the calls
  have hvalue (i : ObjId) {m m' : Enc Unit} (h : Simulates Encoder.SameNames m m') :
      Simulates Encoder.SameNames m (enterValue i >>= fun _ => m') := enterValue_skipped i h
  induction p using Nested.induct with
  | object o =>
    have hsame : Simulates Encoder.SameNames (encodeObject P o) (encodeObject P (o.rename id)) :=
      encodeObject_simulates hR o (fun i _ => .modify fun _ _ hs => { hs with })
        fun i hi => absurd (h ▸ hi) List.not_mem_nil
    rw [Object.rename_id] at hsame
    exact hsame.bind fun _ => .pure ()
  | primitive p =>
    have hprimitive := hR.primitive (P := P) p
    rw [encode, toObject, ← p.encode_object h]
    exact hprimitive.bind fun _ => .pure ()
  | fixedList t ps ih =>
    obtain ⟨htype, hlen, hps⟩ := h
    have hcount : (UInt32.ofNat ps.length).toNat = ps.length := UInt32.toNat_ofNat_of_lt hlen
    have hall := encodeAll_simulates hps ih
    rw [encode, toObject, Stream.typeName?, if_neg htype]
    simp only [encodeFixedListBegin, encodeFixedListEnd, encodeNonEmptyType, if_neg htype, encodeObject,
      encodeTypedList, hcount, length_toObjects, bind_assoc, pure_bind]
    refine hvalue 0 ((hR.rawWrite _).bind fun _ => (hR.typeRef t).bind fun _ => (hR.length _).bind fun _ => ?_)
    exact hall.bind fun _ => .pure ()
  | map t es ih =>
    have hes := encodePairs_simulates h ih
    by_cases htype : t = []
    · rw [encode, toObject, Stream.typeName?, if_pos htype]
      simp only [encodeMapBegin, encodeMapEnd, if_pos htype, encodeObject, encodeUntypedMap, bind_assoc,
        pure_bind]
      exact hvalue 0 ((hR.rawWrite _).bind fun _ => hes.bind fun _ => hR.rawWrite _)
    · rw [encode, toObject, Stream.typeName?, if_neg htype]
      simp only [encodeMapBegin, encodeMapEnd, if_neg htype, encodeObject, encodeTypedMap, bind_assoc,
        pure_bind]
      exact hvalue 0 ((hR.rawWrite _).bind fun _ => (hR.typeRef t).bind fun _ => hes.bind fun _ =>
        hR.rawWrite _)
  | classInstance d ps ih =>
    have hps := encodeAll_simulates h ih
    rw [encode, toObject]
    simp only [encodeClassInstanceBegin, encodeClassInstanceEnd, encodeObject, encodeClassInstance,
      bind_assoc, pure_bind]
    exact hvalue 0 ((hR.rawDefinition d).bind fun _ => hps.bind fun _ => .pure ())

/-- What the calls write, and the names that the encoder knows behind them. -/
def outcome (r : Except Stop (Unit × Encoder)) : Except Stop (Bytes × List Bytes × List RawDefinition) :=
  r.map fun r => (r.2.output, r.2.typesRef.keys, r.2.defRef)

/-- **The functions of `codec.cc` are another way to write objects.**  For every program of them that
writes lists with types, maps, and instances in each other, to any depth, with any values without
references in them, from every state of the encoder, its calls write the bytes that `encode<Object>`
writes for the objects, enter the same names, and stop where it stops. -/
theorem nested_written (P : Platform) (ps : List Nested) (h : AllMatched ps) (e : Encoder) :
    outcome (encodeAll P ps e) = outcome (encodeValues P (toObjects ps) e) := by
  refine SameResult.map_eq (encodeAll_simulates h (fun p _ => encode_simulates p) ⟨rfl, rfl, rfl⟩) ?_
  intro _ s s' hs
  rw [hs.output, hs.typesRef, hs.defRef]

/-- A list of maps from integers to instances that hold an hour. -/
theorem nested_written_list :
    outcome (encodeAll .simple [.fixedList [0x61] [.map [] [(.primitive (.int8 (-1)),
      .classInstance ⟨[0x41], [[0x61]]⟩ [.primitive (.duration .hours 1)])]]] .empty) =
    outcome (encodeValues .simple (toObjects [.fixedList [0x61] [.map [] [(.primitive (.int8 (-1)),
      .classInstance ⟨[0x41], [[0x61]]⟩ [.primitive (.duration .hours 1)])]]]) .empty) := by
  refine nested_written .simple _ ?_ .empty
  have hhour : IntegralType.int64.Holds (DurationType.hours.inMilliseconds (1 : Int64).toInt) :=
    IntegralType.holds_int64.2 (by decide)
  simpa [AllMatched, Matched, PairsMatched] using hhour

end Nested

end Hessian2
