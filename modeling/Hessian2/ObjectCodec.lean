import Hessian2.Reference

/-!
# Objects on the wire

`object_codec.cc`, `list_codec.cc`, `map_codec.cc`, `class_instance_codec.cc` and
`ref_object_codec.cc`.

* `leadOf` : the `switch` of `decode<Object>` over the lead byte.
* `decodeTypedList`, `decodeUntypedList`, `decodeTypedMap`, `decodeUntypedMap`,
  `decodeClassInstance`, `decodeRef` : the containers and references, given the reader of the
  objects in them.
* `decodeObject` : `decode<Object>`.
* `encodeObject` : `encode<Object>`.  The hash map of a map is visited in the order of its entries.
-/

namespace Hessian2

open Parsing Parsing.Parser Reader Enc

variable (P : Platform)

/-! ### Reading -/

/-- What a lead byte announces. -/
inductive Lead where
  | null
  | bool
  | date
  | double
  | typedList
  | untypedList
  | typedMap
  | untypedMap
  | definition
  | classInstance
  | ref
  | string
  | binary
  | long
  | int
  | unknown
deriving DecidableEq

/-- The `switch` of `decode<Object>`, and the comparisons behind it. -/
def leadOf (code : UInt8) : Lead :=
  if code = 0x4e then .null
  else if code = 0x46 ∨ code = 0x54 then .bool
  else if code = 0x4a ∨ code = 0x4b then .date
  else if (0x5b ≤ code ∧ code ≤ 0x5f) ∨ code = 0x44 then .double
  else if code = 0x56 ∨ code = 0x55 ∨ (0x70 ≤ code ∧ code ≤ 0x77) then .typedList
  else if code = 0x57 ∨ code = 0x58 ∨ (0x78 ≤ code ∧ code ≤ 0x7f) then .untypedList
  else if code = 0x4d then .typedMap
  else if code = 0x48 then .untypedMap
  else if code = 0x43 then .definition
  else if code = 0x4f ∨ (0x60 ≤ code ∧ code ≤ 0x6f) then .classInstance
  else if code = 0x51 then .ref
  else if code ≤ 0x1f ∨ (0x30 ≤ code ∧ code ≤ 0x33) ∨ code = 0x52 ∨ code = 0x53 then .string
  else if (0x20 ≤ code ∧ code ≤ 0x2f) ∨ (0x34 ≤ code ∧ code ≤ 0x37) ∨ code = 0x41 ∨ code = 0x42 then
    .binary
  else if (0x38 ≤ code ∧ code ≤ 0x3f) ∨ (0xd8 ≤ code ∧ code ≤ 0xef) ∨ 0xf0 ≤ code ∨ code = 0x59 ∨
      code = 0x4c then .long
  else if code = 0x49 ∨ (0x80 ≤ code ∧ code ≤ 0xbf) ∨ (0xc0 ≤ code ∧ code ≤ 0xcf) ∨
      (0xd0 ≤ code ∧ code ≤ 0xd7) then .int
  else .unknown

section Decode

variable (self : Dec Object)

/-- `ReadNumsObject`. -/
def readNumsObject (nums : ℤ) : Dec (List Object) := times self nums.toNat

/-- One turn of the loop in `ReadObjectUntilEnd`. -/
def readObjectUntilEndStep (values : List Object) : Dec (List Object ⊕ List Object) := do
  let ret ← peekByte P 0
  if ret.1 then
    if ret.2 = 0x5a then do
      let _ ← readByte P
      pure (.inr values)
    else do
      let o ← self
      pure (.inl (values ++ [o]))
  else fail

/-- `ReadObjectUntilEnd`. -/
def readObjectUntilEnd : Dec (List Object) := iter (readObjectUntilEndStep P self) []

/-- The `switch` of `decode<TypedListObject>`. -/
def typedListValues (code : UInt8) : Dec (List Object) :=
  if code = 0x55 then readObjectUntilEnd P self
  -- the declared length may be negative, and then nothing is read
  else if code = 0x56 then do
    let ret ← decodeInt32 P
    readNumsObject self ret.toInt
  else if 0x70 ≤ code ∧ code ≤ 0x77 then readNumsObject self (code.toNat - 0x70)
  else fail

/-- `decode<TypedListObject>`. -/
def decodeTypedList : Dec Object := Dec.container (.list true) fun result => do
  let ret ← readByte P
  if ret.1 then do
    let typeStr ← decodeTypeRef P
    let values ← typedListValues P self ret.2
    pure (.typedList result typeStr values)
  else fail

/-- The `switch` of `decode<UntypedListObject>`, which has no default. -/
def untypedListValues (code : UInt8) : Dec (List Object) :=
  if code = 0x57 then readObjectUntilEnd P self
  else if code = 0x58 then do
    let ret ← decodeInt32 P
    readNumsObject self ret.toInt
  else if 0x78 ≤ code ∧ code ≤ 0x7f then readNumsObject self (code.toNat - 0x78)
  -- behind any other byte the list that has been created is returned
  else pure []

/-- `decode<UntypedListObject>`. -/
def decodeUntypedList : Dec Object := Dec.container (.list false) fun result => do
  let ret ← readByte P
  if ret.1 then do
    let values ← untypedListValues P self ret.2
    pure (.untypedList result values)
  else fail

/-- One turn of the loop over the entries of a map. -/
def readEntriesStep (result : ObjId) (objMap : List Slot) : Dec (List Slot ⊕ List Slot) := do
  let ret ← peekByte P 0
  if ret.1 then
    if ret.2 = 0x5a then do
      let _ ← readByte P
      pure (.inr objMap)
    else do
      let key ← self
      let value ← self
      let objMap ← Dec.emplace P result objMap key value
      pure (.inl objMap)
  else fail

/-- The loop over the entries of a map. -/
def readEntries (result : ObjId) : Dec (List (Object × Object)) := do
  let objMap ← iter (readEntriesStep P self result) []
  pure (objMap.map fun s => (s.key, s.value))

/-- `decode<TypedMapObject>`. -/
def decodeTypedMap : Dec Object := Dec.container (.map true) fun result => do
  let ret ← readByte P
  -- in a build without assertions any byte will do
  Dec.abslAssert P ret.1
  Dec.abslAssert P (ret.2 == 0x4d)
  let typeStr ← decodeTypeRef P
  let entries ← readEntries P self result
  pure (.typedMap result typeStr entries)

/-- `decode<UntypedMapObject>`. -/
def decodeUntypedMap : Dec Object := Dec.container (.map false) fun result => do
  let ret ← readByte P
  Dec.abslAssert P ret.1
  Dec.abslAssert P (ret.2 == 0x48)
  let entries ← readEntries P self result
  pure (.untypedMap result entries)

/-- Read the actual definition, if an instance starts with it. -/
def readActualDefinition (code : UInt8) : Dec Unit :=
  if code = 0x43 then decodeDefinition P >>= fun _ => pure () else pure ()

/-- `decode<ClassInstanceObject>`. -/
def decodeClassInstance : Dec Object := Dec.container .classInstance fun result => do
  let ret ← peekByte P 0
  if ret.1 then do
    -- the definition that is entered here need not be the one that is looked up below
    let _ ← readActualDefinition P ret.2
    let definition ← decodeDefinition P
    let data ← times self definition.fieldNames.length
    pure (.classInstance result definition data)
  else fail

/-- `decode<RefObject>`. -/
def decodeRef : Dec Object := do
  let ret ← readByte P
  Dec.abslAssert P ret.1
  Dec.abslAssert P (ret.2 == 0x51)
  let ref ← decodeInt32 P
  let target ← Dec.lookup fun t => t.valuesRef[ref.toUInt32.toNat]?
  Dec.record (.reference target)
  pure (.ref target)

/-- `decode<Object>` behind the look at its lead byte. -/
def decodeObjectBy (code : UInt8) : Dec Object :=
  match leadOf code with
  | .null => decodeNull P >>= fun _ => pure .null
  | .bool => decodeBool P >>= fun b => pure (.boolean b)
  | .date => readDate P .milliseconds >>= fun d => pure (.date d)
  | .double => decodeDouble P >>= fun d => pure (.double d)
  | .typedList => decodeTypedList P self
  | .untypedList => decodeUntypedList P self
  | .typedMap => decodeTypedMap P self
  | .untypedMap => decodeUntypedMap P self
  -- a definition only enters itself, and the object comes behind it
  | .definition => decodeDefinition P >>= fun _ => self
  | .classInstance => decodeClassInstance P self
  | .ref => decodeRef P
  | .string => decodeString P >>= fun s => pure (.string s)
  | .binary => decodeBytes P >>= fun b => pure (.binary b)
  | .long => decodeInt64 P >>= fun i => pure (.long i)
  | .int => decodeInt32 P >>= fun i => pure (.integer i)
  | .unknown => fail

/-- The body of `decode<Object>`. -/
def decodeObjectBody : Dec Object := do
  let ret ← peekByte P 0
  if ret.1 then decodeObjectBy P self ret.2 else fail

end Decode

/-- `decode<Object>`. -/
def decodeObject : Dec Object := fix (fun self _ => decodeObjectBody P (self ())) ()

/-! ### Writing -/

/-- A container gets its number before its contents are written. -/
def enterValue (value : ObjId) : Enc Unit := modify fun e => e.enterValue value

/-- The length of a list that is too long for its lead byte. -/
def encodeLength (len : ℕ) : Enc Unit :=
  if 7 < len then encodeInt32 (.ofNat len) >>= fun _ => pure () else pure ()

/-- `encode<TypedListObject>`, given what encodes its elements. -/
def encodeTypedList (value : ObjId) (typeName : Bytes) (len : ℕ) (encodeValues : Enc Unit) :
    Enc Bool := do
  enterValue value
  writeByte (if len ≤ 7 then 0x70 + len else 0x56)
  let _ ← encodeTypeRef P typeName
  encodeLength len
  encodeValues
  pure true

/-- `encode<UntypedListObject>`, given what encodes its elements. -/
def encodeUntypedList (value : ObjId) (len : ℕ) (encodeValues : Enc Unit) : Enc Bool := do
  enterValue value
  writeByte (if len ≤ 7 then 0x78 + len else 0x58)
  encodeLength len
  encodeValues
  pure true

/-- `encode<TypedMapObject>`, given what encodes its entries. -/
def encodeTypedMap (value : ObjId) (typeName : Bytes) (encodeEntries : Enc Unit) : Enc Bool := do
  enterValue value
  writeByte 0x4d
  let _ ← encodeTypeRef P typeName
  encodeEntries
  writeByte 0x5a
  pure true

/-- `encode<UntypedMapObject>`, given what encodes its entries. -/
def encodeUntypedMap (value : ObjId) (encodeEntries : Enc Unit) : Enc Bool := do
  enterValue value
  writeByte 0x48
  encodeEntries
  writeByte 0x5a
  pure true

/-- `encode<ClassInstanceObject>`, given what encodes its fields. -/
def encodeClassInstance (value : ObjId) (definition : RawDefinition) (encodeValues : Enc Unit) :
    Enc Bool := do
  enterValue value
  let _ ← encodeRawDefinition P definition
  encodeValues
  pure true

/-- `encode<RefObject>`. -/
def encodeRef (target : ObjId) : Enc Bool := do
  let e ← get
  let ref := e.getValueRef target
  abslAssert P (ref != -1)
  modify fun e => if ref = -1 then e.missNumber target else e
  writeByte 0x51
  let _ ← encodeInt32 ref.toInt32
  pure true

mutual

/-- `encode<Object>`. -/
def encodeObject : Object → Enc Bool
  | .null => encodeNull
  | .boolean data => encodeBool data
  | .integer data => encodeInt32 data
  | .long data => encodeInt64 data
  | .double data => encodeDouble data
  | .date data => encodeMilliseconds data
  | .string data => encodeString P data
  | .binary data => encodeBytes data
  | .ref target => encodeRef P target
  | .list self (some typeName) values =>
    encodeTypedList P self typeName values.length (encodeValues values)
  | .list self none values => encodeUntypedList self values.length (encodeValues values)
  | .map self (some typeName) entries =>
    encodeTypedMap P self typeName (encodeEntries entries)
  | .map self none entries => encodeUntypedMap self (encodeEntries entries)
  | .classInstance self definition data =>
    encodeClassInstance P self definition (encodeValues data)
termination_by structural o => o

/-- The loop over the elements of a list or the fields of an instance. -/
def encodeValues : List Object → Enc Unit
  | [] => pure ()
  | value :: values => do
    let _ ← encodeObject value
    encodeValues values
termination_by structural values => values

/-- The loop over the entries of a map. -/
def encodeEntries : List (Object × Object) → Enc Unit
  | [] => pure ()
  | (key, value) :: entries => do
    let _ ← encodeObject key
    let _ ← encodeObject value
    encodeEntries entries
termination_by structural entries => entries

end

end Hessian2
