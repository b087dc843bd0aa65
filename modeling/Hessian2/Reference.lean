import Hessian2.Scalar
import Hessian2.Text

/-!
# Types and definitions

`type_ref_codec.cc` and `def_ref_codec.cc`: the name of a type and the definition of a class are
sent in full once and by their number from then on.

* `decodeTypeRef`, `encodeTypeRef` : the codec of `TypeRef`.
* `decodeDefinition`, `encodeRawDefinition` : the codec of `Definition` and `RawDefinition`.
* `decodeDefinitionWith` : the same with an allocator whose memory may run out.
-/

namespace Hessian2

open Parsing Parsing.Parser Reader Enc

variable (P : Platform)

/-! ### Types -/

/-- `decode<TypeRef>` behind the look at its lead byte. -/
def decodeTypeRefBy (code : UInt8) : Dec Bytes :=
  if code ≤ 31 ∨ (48 ≤ code ∧ code ≤ 51) ∨ code = 82 ∨ code = 83 then do
    let typeStr ← decodeString P
    modifyAux fun t => { t with typesRef := t.typesRef ++ [typeStr] }
    pure typeStr
  else do
    let ref ← decodeInt32 P
    Dec.lookup fun t => t.typesRef[ref.toUInt32.toNat]?

/-- `decode<TypeRef>`. -/
def decodeTypeRef : Dec Bytes := do
  let ret ← peekByte P 0
  if ret.1 then decodeTypeRefBy P ret.2 else fail

/-- `encode<TypeRef>`. -/
def encodeTypeRef (value : Bytes) : Enc Bool := do
  let e ← get
  if e.getTypeRef value = -1 then
    modify fun e => e.enterType value
    let _ ← encodeString P value
    pure true
  else
    let _ ← encodeInt32 (e.getTypeRef value).toInt32
    pure true

/-! ### Definitions -/

/-- For how many strings the allocator has memory. -/
abbrev Allocator := ℕ → Bool

/-- There is memory for as many strings as are asked for. -/
def ample : Allocator := fun _ => true

/-- `reserve` of an empty `std::vector<std::string>`, which throws when asked for more than `max_size()`
and where there is no memory.  A negative `int32_t` becomes a `size_t` beyond `max_size()`, and for no
strings nothing is allocated. -/
def reserve (allocates : Allocator) (n : Int32) : Dec Unit :=
  if n.toInt < 0 then fault .lengthError
  else if n.toInt = 0 ∨ allocates n.toInt.toNat then pure ()
  else fault .badAlloc

/-- `decode<Definition>` behind its lead byte. -/
def decodeDefinitionByWith (allocates : Allocator) (code : UInt8) : Dec RawDefinition :=
  if code = 0x43 then do
    let typeName ← decodeString P
    let fieldLen ← decodeInt32 P
    reserve allocates fieldLen
    let fieldNames ← times (decodeString P) fieldLen.toInt.toNat
    modifyAux fun t => { t with defRef := t.defRef ++ [⟨typeName, fieldNames⟩] }
    pure ⟨typeName, fieldNames⟩
  else if code = 0x4f then do
    let refNumber ← decodeInt32 P
    Dec.lookup fun t => t.defRef[refNumber.toUInt32.toNat]?
  else if 0x60 ≤ code ∧ code ≤ 0x6f then Dec.lookup fun t => t.defRef[code.toNat - 0x60]?
  else fail

/-- `decode<Definition>`. -/
def decodeDefinitionWith (allocates : Allocator) : Dec RawDefinition := do
  let ret ← readByte P
  if ret.1 then decodeDefinitionByWith P allocates ret.2 else fail

/-- `decode<Definition>` behind its lead byte, where memory does not run out. -/
def decodeDefinitionBy (code : UInt8) : Dec RawDefinition := decodeDefinitionByWith P ample code

/-- `decode<Definition>`, where memory does not run out. -/
def decodeDefinition : Dec RawDefinition := decodeDefinitionWith P ample

/-- The loop over the field names in `encode<RawDefinition>`. -/
def encodeFieldNames : List Bytes → Enc Unit
  | [] => pure ()
  | fieldName :: fieldNames => do
    let _ ← encodeString P fieldName
    encodeFieldNames fieldNames

/-- The number of a definition, at the end of `encode<RawDefinition>`. -/
def encodeDefRef (r : Int16) : Enc Bool := do
  if r ≤ 15 then
    writeByte (0x60 + r.toInt)
    pure true
  else
    writeByte 0x4f
    let _ ← encodeInt32 r.toInt32
    pure true

/-- `encode<RawDefinition>` with at most `depth` calls of itself. -/
def encodeRawDefinitionIn : ℕ → RawDefinition → Enc Bool
  | 0, _ => throw .diverges
  | depth + 1, value => do
    let e ← get
    let r ← e.getDefRef value
    if r = -1 then
      writeByte 0x43
      modify fun e => e.enterDef value
      let _ ← encodeString P value.type
      let _ ← encodeInt32 (.ofNat value.fieldNames.length)
      encodeFieldNames P value.fieldNames
      -- this call finds the definition in the table and sends its number
      let _ ← encodeRawDefinitionIn depth value
      pure true
    else encodeDefRef r

/-- `encode<RawDefinition>`.  Two calls are enough: the second finds what the first has entered. -/
def encodeRawDefinition (value : RawDefinition) : Enc Bool := encodeRawDefinitionIn P 2 value

/-! ### The readers -/

variable {P}

theorem decodeTypeRef_eq : decodeTypeRef P = ahead (decodeTypeRefBy P) :=
  peekByte_checked P (decodeTypeRefBy P)

theorem decodeDefinitionWith_eq (allocates : Allocator) :
    decodeDefinitionWith P allocates = next >>= decodeDefinitionByWith P allocates :=
  readByte_checked P (decodeDefinitionByWith P allocates)

theorem decodeDefinition_eq : decodeDefinition P = next >>= decodeDefinitionBy P :=
  decodeDefinitionWith_eq ample

theorem reserve_ample (n : Int32) :
    reserve ample n = if n.toInt < 0 then fault .lengthError else pure () := by
  simp [reserve, ample]

theorem decodeTypeRef_leaf : Dec.Leaf (decodeTypeRef P) := by
  intro E T N
  rw [decodeTypeRef_eq]
  refine .ahead (fun _ => Nat.le_refl 1) fun code => .ite (fun _ => ?_) fun _ => ?_
  · refine (decodeString_leaf E T N).prepaid (fun type => ?_) fun _ _ => Nat.le_refl 1
    exact (Tame.modifyAux _).seq fun _ => .pure type
  · refine (decodeInt32_leaf E T N).prepaid (fun ref => ?_) fun _ _ => Nat.le_refl 1
    exact Dec.lookup_tame E T _ _

theorem decodeDefinition_tame {E : Fault → Prop} (hE : E .lengthError) (T : Prop) (N : ℕ) :
    Tame E T N (decodeDefinition P) (decodeDefinition P) fun _ => 1 := by
  rw [decodeDefinition_eq]
  refine Tame.next.prepaid (fun code => ?_) fun _ _ => Nat.le_refl 1
  unfold decodeDefinitionBy decodeDefinitionByWith
  simp only [reserve_ample]
  split_ifs
  · refine (decodeString_leaf E T _).seq fun type => (decodeInt32_leaf E T _).seq fun fieldLen => ?_
    refine Tame.seq (w := fun _ => 0) (.ite (fun _ => .stop hE _) fun _ => .pure ()) fun _ => ?_
    refine ((decodeString_leaf E T _).times _).seq fun names => ?_
    exact (Tame.modifyAux _).seq fun _ => .pure _
  · exact (decodeInt32_leaf E T _).seq fun ref => Dec.lookup_tame E T _ _
  · exact Dec.lookup_tame E T _ _
  · exact .failure _

end Hessian2
