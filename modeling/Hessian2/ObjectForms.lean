import Hessian2.ObjectCodec

/-!
# The readers of objects as general parsers

Each reader of `ObjectCodec` as a lead byte with what it announces.  Behind the look of
`decode<Object>` at the lead byte none of the assertions can fail.

* `decodeObjectForm` : what a lead byte announces, without the assertions.
* `decodeObjectBody_eq` : `decode<Object>` is a look at the lead byte and this form.
-/

namespace Hessian2

open Parsing Parsing.Parser Reader

section Forms

variable (P : Platform) (self : Dec Object)

/-- A typed list, given the address of its object. -/
def typedListForm (result : ObjId) : Dec Object :=
  next >>= fun code => decodeTypeRef P >>= fun typeStr =>
    typedListValues P self code >>= fun values => pure (.typedList result typeStr values)

/-- An untyped list, given the address of its object. -/
def untypedListForm (result : ObjId) : Dec Object :=
  next >>= fun code => untypedListValues P self code >>= fun values =>
    pure (.untypedList result values)

/-- A typed map, given the address of its object. -/
def typedMapForm (result : ObjId) : Dec Object :=
  next >>= fun _ => decodeTypeRef P >>= fun typeStr =>
    readEntries P self result >>= fun entries => pure (.typedMap result typeStr entries)

/-- An untyped map, given the address of its object. -/
def untypedMapForm (result : ObjId) : Dec Object :=
  next >>= fun _ => readEntries P self result >>= fun entries => pure (.untypedMap result entries)

/-- An instance, given the address of its object. -/
def classInstanceForm (result : ObjId) : Dec Object :=
  ahead fun code => readActualDefinition P code >>= fun _ => decodeDefinition P >>= fun definition =>
    times self definition.fieldNames.length >>= fun data =>
      pure (.classInstance result definition data)

/-- A reference. -/
def refForm : Dec Object :=
  next >>= fun _ => decodeInt32 P >>= fun ref =>
    Dec.lookup (fun t => t.valuesRef[ref.toUInt32.toNat]?) >>= fun target =>
      Dec.record (.reference target) >>= fun _ => pure (.ref target)

/-- What a lead byte announces. -/
def decodeObjectForm (code : UInt8) : Dec Object :=
  match leadOf code with
  | .null => next >>= fun _ => pure .null
  | .bool => decodeBool P >>= fun b => pure (.boolean b)
  | .date => readDate P .milliseconds >>= fun d => pure (.date d)
  | .double => decodeDouble P >>= fun d => pure (.double d)
  | .typedList => Dec.container (.list true) (typedListForm P self)
  | .untypedList => Dec.container (.list false) (untypedListForm P self)
  | .typedMap => Dec.container (.map true) (typedMapForm P self)
  | .untypedMap => Dec.container (.map false) (untypedMapForm P self)
  | .definition => decodeDefinition P >>= fun _ => self
  | .classInstance => Dec.container .classInstance (classInstanceForm P self)
  | .ref => refForm P
  | .string => decodeString P >>= fun s => pure (.string s)
  | .binary => decodeBytes P >>= fun b => pure (.binary b)
  | .long => decodeInt64 P >>= fun i => pure (.long i)
  | .int => decodeInt32 P >>= fun i => pure (.integer i)
  | .unknown => fail

end Forms

variable {P : Platform} {self : Dec Object}

/-! ### Loops up to a terminator -/

/-- A loop up to the terminator `Z`. -/
theorem untilEnd_eq {α β : Type} (a : α) (m : Dec (β ⊕ α)) :
    (do let ret ← peekByte P 0
        if ret.1 then
          if ret.2 = 0x5a then readByte P >>= fun _ => pure (.inr a) else m
        else fail) =
      ahead fun code => if code = 0x5a then next >>= fun _ => pure (.inr a) else m := by
  rw [peekByte_checked P fun code => if code = 0x5a then readByte P >>= fun _ => pure (.inr a) else m]
  refine ahead_congr fun b bs s hs => ?_
  split
  · rw [bind_apply, bind_apply, readByte_of_cons P hs, next_of_cons hs]
    rfl
  · rfl

theorem readObjectUntilEndStep_eq (values : List Object) : readObjectUntilEndStep P self values =
    ahead fun code => if code = 0x5a then next >>= fun _ => pure (.inr values)
      else self >>= fun o => pure (.inl (values ++ [o])) :=
  untilEnd_eq values (self >>= fun o => pure (.inl (values ++ [o])))

theorem readEntriesStep_eq (result : ObjId) (objMap : List Slot) :
    readEntriesStep P self result objMap =
      ahead fun code => if code = 0x5a then next >>= fun _ => pure (.inr objMap)
        else self >>= fun key => self >>= fun value =>
          Dec.emplace P result objMap key value >>= fun objMap => pure (.inl objMap) :=
  untilEnd_eq objMap (self >>= fun key => self >>= fun value =>
    Dec.emplace P result objMap key value >>= fun objMap => pure (.inl objMap))

/-! ### Containers -/

theorem decodeTypedList_eq :
    decodeTypedList P self = Dec.container (.list true) (typedListForm P self) := by
  refine congrArg (Dec.container (.list true)) (funext fun result => ?_)
  exact readByte_checked P fun code => decodeTypeRef P >>= fun typeStr =>
    typedListValues P self code >>= fun values => pure (Object.typedList result typeStr values)

theorem decodeUntypedList_eq :
    decodeUntypedList P self = Dec.container (.list false) (untypedListForm P self) := by
  refine congrArg (Dec.container (.list false)) (funext fun result => ?_)
  exact readByte_checked P fun code => untypedListValues P self code >>= fun values =>
    pure (Object.untypedList result values)

theorem decodeClassInstance_eq :
    decodeClassInstance P self = Dec.container .classInstance (classInstanceForm P self) := by
  refine congrArg (Dec.container .classInstance) (funext fun result => ?_)
  exact peekByte_checked P fun code => readActualDefinition P code >>= fun _ =>
    decodeDefinition P >>= fun definition =>
      times self definition.fieldNames.length >>= fun data =>
        pure (Object.classInstance result definition data)

/-- Behind a look at the lead byte, the assertions about it hold. -/
theorem asserted_of_cons {α : Type} {m : Dec α} {code : UInt8} {bs : Bytes} {s : State UInt8 Tables}
    (h : s.cursor.unread = code :: bs) :
    (do let ret ← readByte P
        Dec.abslAssert P ret.1
        Dec.abslAssert P (ret.2 == code)
        m) s = (next >>= fun _ => m) s := by
  rw [bind_apply, bind_apply, readByte_of_cons P h, next_of_cons h]
  simp [Dec.abslAssert]

/-- A container of which only the tables change before its contents are read. -/
theorem container_congr {kind : ContainerKind} {body body' : ObjId → Dec Object}
    {s : State UInt8 Tables} (h : ∀ result t, body result ⟨s.cursor, t⟩ = body' result ⟨s.cursor, t⟩) :
    Dec.container kind body s = Dec.container kind body' s := by
  unfold Dec.container Dec.owning onFail
  simp only [Dec.allocate, bind_apply, aux_apply, Outcome.ok_andThen, modifyAux_apply, pure_apply, h]

theorem decodeTypedMap_of_cons {bs : Bytes} {s : State UInt8 Tables}
    (h : s.cursor.unread = 0x4d :: bs) :
    decodeTypedMap P self s = Dec.container (.map true) (typedMapForm P self) s :=
  container_congr fun _ _ => asserted_of_cons h

theorem decodeUntypedMap_of_cons {bs : Bytes} {s : State UInt8 Tables}
    (h : s.cursor.unread = 0x48 :: bs) :
    decodeUntypedMap P self s = Dec.container (.map false) (untypedMapForm P self) s :=
  container_congr fun _ _ => asserted_of_cons h

/-- The lead bytes that an assertion looks at. -/
theorem leadOf_asserted : ∀ code : UInt8, (leadOf code = .null → code = 0x4e) ∧
    (leadOf code = .typedMap → code = 0x4d) ∧ (leadOf code = .untypedMap → code = 0x48) ∧
    (leadOf code = .ref → code = 0x51) := forall_byte (by decide +kernel)

theorem leadOf_definition : ∀ code : UInt8, leadOf code = .definition → code = 0x43 :=
  forall_byte (by decide +kernel)

/-- `decode<Object>` looks at the lead byte and goes on with the form it announces. -/
theorem decodeObjectBody_eq : decodeObjectBody P self = ahead (decodeObjectForm P self) := by
  rw [decodeObjectBody, peekByte_checked P (decodeObjectBy P self)]
  refine ahead_congr fun code bs s hs => ?_
  unfold decodeObjectBy decodeObjectForm
  cases hl : leadOf code with
  | null =>
    obtain rfl := (leadOf_asserted code).1 hl
    simp only [decodeNull_eq, bind_apply, next_of_cons hs]
    rfl
  | typedList => rw [decodeTypedList_eq]
  | untypedList => rw [decodeUntypedList_eq]
  | typedMap =>
    obtain rfl := (leadOf_asserted code).2.1 hl
    exact decodeTypedMap_of_cons hs
  | untypedMap =>
    obtain rfl := (leadOf_asserted code).2.2.1 hl
    exact decodeUntypedMap_of_cons hs
  | classInstance => rw [decodeClassInstance_eq]
  | ref =>
    obtain rfl := (leadOf_asserted code).2.2.2 hl
    exact asserted_of_cons hs
  | _ => rfl

end Hessian2
