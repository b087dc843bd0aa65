import Hessian2.Session
import Hessian2.Simulation

/-!
# Addresses do not matter

An encoder knows the containers it has written by their addresses.

* `Abreast` : a relation between encoders that have written the same and know the same names.
* `encodeObject_simulates` : **two encoders stay abreast if they do for its containers and references.**
* `Encoder.Renamed` : an encoder for the same containers at other addresses.
* `encodeItems_rename` : **what is written does not depend on the addresses.**
-/

namespace Hessian2

open Parsing Parsing.Parser Enc Simulation

variable {α β : Type} {P : Platform} {R : Encoder → Encoder → Prop}

/-- A duration is written as the same bytes in every state. -/
theorem encodeDuration_same (unit : DurationType) (value : Int64) :
    Writes (encodeDuration unit value) := by
  have hdate : Writes (writeDate unit value >>= fun _ => pure true) := by
    unfold writeDate
    dsimp only
    split
    · exact ⟨_, writeTagged_returning 0x4b .int32 _⟩
    · exact ⟨_, writeTagged_returning 0x4a .int64 _⟩
  have hminutes (m : Int64) : Writes (encodeMinutes m) := ⟨_, writeTagged_returning 0x4b .int32 _⟩
  cases unit with
  | milliseconds =>
    simp only [encodeDuration, encodeMilliseconds]
    split
    · exact hminutes _
    · exact ⟨_, writeTagged_returning 0x4a .int64 _⟩
  | seconds => exact hdate
  | minutes => exact hminutes value
  | hours => exact hdate

/-! ### Encoders abreast -/

/-- What two encoders write and name alike keeps the relation, which holds between encoders that know
the same names. -/
structure Abreast (R : Encoder → Encoder → Prop) : Prop where
  typesRef : ∀ {e e'}, R e e' → e'.typesRef = e.typesRef
  defRef : ∀ {e e'}, R e e' → e'.defRef = e.defRef
  extend : ∀ {e e'} bs ss, R e e' → R (e.extend bs ss) (e'.extend bs ss)
  enterType : ∀ {e e'} value, R e e' → R (e.enterType value) (e'.enterType value)
  enterDef : ∀ {e e'} value, R e e' → R (e.enterDef value) (e'.enterDef value)

namespace Abreast

variable (h : Abreast R)
include h

theorem write {e e' : Encoder} (bs : Bytes) (hR : R e e') : R (e.write bs) (e'.write bs) := by
  simpa [Encoder.write_eq_extend] using h.extend bs [] hR

theorem rawWrite (bs : Bytes) : Simulates R (rawWrite bs) (rawWrite bs) :=
  .modify fun _ _ => h.write bs

theorem writes {m : Enc Bool} (hm : Writes m) : Simulates R m m := by
  obtain ⟨bs, hbs⟩ := hm
  intro e e' hR
  rw [hbs, hbs]
  exact .ok true (h.write bs hR)

theorem int32 (z : Int32) : Simulates R (encodeInt32 z) (encodeInt32 z) :=
  h.writes (encodeInt32_writes z)

theorem string (s : Bytes) : Simulates R (encodeString P s) (encodeString P s) := by
  obtain ⟨bs, hbs⟩ := encodeString_extends P s
  intro e e' hR
  rw [hbs, hbs]
  exact .ok _ (h.extend bs _ hR)

theorem typeRef (value : Bytes) : Simulates R (encodeTypeRef P value) (encodeTypeRef P value) := by
  refine .get_bind fun e e' hR => ?_
  have hnumber : e'.getTypeRef value = e.getTypeRef value := by
    simp only [Encoder.getTypeRef, h.typesRef hR]
  rw [hnumber]
  split
  · exact Simulates.bind (.modify fun _ _ => h.enterType value) fun _ =>
      (h.string value).bind fun _ => .pure true
  · exact (h.int32 _).bind fun _ => .pure true

theorem fieldNames : ∀ names : List Bytes,
    Simulates R (encodeFieldNames P names) (encodeFieldNames P names)
  | [] => .pure ()
  | name :: names => (h.string name).bind fun _ => fieldNames names

theorem rawDefinitionIn (value : RawDefinition) : ∀ depth : ℕ,
    Simulates R (encodeRawDefinitionIn P depth value) (encodeRawDefinitionIn P depth value)
  | 0 => .throw Stop.diverges
  | depth + 1 => by
    refine .get_bind fun e e' hR => ?_
    have hnumber : e'.getDefRef value = e.getDefRef value := by
      simp only [Encoder.getDefRef, h.defRef hR]
    rw [hnumber]
    refine .lift_bind _ fun r => ?_
    split
    · refine (h.rawWrite _).bind fun _ => Simulates.bind (.modify fun _ _ => h.enterDef value) fun _ => ?_
      exact (h.string _).bind fun _ => (h.int32 _).bind fun _ => (h.fieldNames _).bind fun _ =>
        (rawDefinitionIn value depth).bind fun _ => .pure true
    · exact h.writes (encodeDefRef_writes r)

theorem rawDefinition (value : RawDefinition) :
    Simulates R (encodeRawDefinition P value) (encodeRawDefinition P value) := h.rawDefinitionIn value 2

theorem length (len : ℕ) : Simulates R (encodeLength len) (encodeLength len) := by
  unfold encodeLength
  split
  · exact (h.int32 _).bind fun _ => .pure ()
  · exact .pure ()

theorem primitive (p : Primitive) : Simulates R (p.encode P) (p.encode P) := by
  cases p with
  | bool v => exact h.writes (bool_carries (P := P) v).writes
  | int8 v => exact h.int32 _
  | int16 v => exact h.int32 _
  | int32 v => exact h.int32 v
  | int64 v => exact h.writes (int64_carries (P := P) v).writes
  | uint8 v => exact h.int32 _
  | uint16 v => exact h.int32 _
  | uint32 v => exact h.writes (int64_carries (P := P) _).writes
  | double v => exact h.writes (double_carries (P := P) v).writes
  | string v => exact h.string v
  | binary v => exact h.writes (encodeBytes_writes v)
  | duration unit v => exact h.writes (encodeDuration_same unit v)

end Abreast

variable {f : ObjId → ObjId}

theorem encodeValues_simulates {vs : List Object}
    (hvs : ∀ v ∈ vs, Simulates R (encodeObject P v) (encodeObject P (v.rename f))) :
    Simulates R (encodeValues P vs) (encodeValues P (Object.renameValues f vs)) := by
  induction vs with
  | nil => exact .pure ()
  | cons v vs ih =>
    rw [List.forall_mem_cons] at hvs
    exact hvs.1.bind fun _ => ih hvs.2

theorem encodeEntries_simulates {es : List (Object × Object)}
    (hes : ∀ e ∈ es, Simulates R (encodeObject P e.1) (encodeObject P (e.1.rename f)) ∧
      Simulates R (encodeObject P e.2) (encodeObject P (e.2.rename f))) :
    Simulates R (encodeEntries P es) (encodeEntries P (Object.renameEntries f es)) := by
  induction es with
  | nil => exact .pure ()
  | cons e es ih =>
    rw [List.forall_mem_cons] at hes
    exact hes.1.1.bind fun _ => hes.1.2.bind fun _ => ih hes.2

/-- **Two encoders that are given the same object at different addresses stay abreast** if they do when
they number its containers and when they write its references. -/
theorem encodeObject_simulates (h : Abreast R) (o : Object)
    (hvalue : ∀ i ∈ o.containers, Simulates R (enterValue i) (enterValue (f i)))
    (href : ∀ i ∈ o.refs, Simulates R (encodeRef P i) (encodeRef P (f i))) :
    Simulates R (encodeObject P o) (encodeObject P (o.rename f)) := by
  induction o using Object.induct with
  | null => exact h.writes (null_carries (P := P)).writes
  | boolean b => exact h.primitive (P := P) (.bool b)
  | integer i => exact h.int32 i
  | long i => exact h.primitive (P := P) (.int64 i)
  | double d => exact h.primitive (P := P) (.double d)
  | date t => exact h.primitive (P := P) (.duration .milliseconds t)
  | string s => exact h.string s
  | binary b => exact h.primitive (P := P) (.binary b)
  | ref i => exact href i (by simp [Object.refs, Object.walk, Object.target?])
  | list i t vs ih =>
    rw [Object.containers_list, List.forall_mem_cons, List.forall_mem_flatMap] at hvalue
    rw [Object.refs_list, List.forall_mem_flatMap] at href
    have hvs := encodeValues_simulates fun v hv => ih v hv (hvalue.2 v hv) (href v hv)
    have hlen : (Object.renameValues f vs).length = vs.length := by simp [Object.renameValues_eq]
    cases t with
    | none =>
      simp only [Object.rename, encodeObject, encodeUntypedList, hlen]
      exact hvalue.1.bind fun _ => (h.rawWrite _).bind fun _ => (h.length _).bind fun _ =>
        hvs.bind fun _ => .pure true
    | some t =>
      simp only [Object.rename, encodeObject, encodeTypedList, hlen]
      exact hvalue.1.bind fun _ => (h.rawWrite _).bind fun _ => (h.typeRef t).bind fun _ =>
        (h.length _).bind fun _ => hvs.bind fun _ => .pure true
  | map i t es ih =>
    rw [Object.containers_map, List.forall_mem_cons, List.forall_mem_flatMap] at hvalue
    rw [Object.refs_map, List.forall_mem_flatMap] at href
    simp only [List.forall_mem_append] at hvalue href
    have hes := encodeEntries_simulates fun e he =>
      ⟨(ih e he).1 (hvalue.2 e he).1 (href e he).1, (ih e he).2 (hvalue.2 e he).2 (href e he).2⟩
    cases t with
    | none =>
      exact hvalue.1.bind fun _ => (h.rawWrite _).bind fun _ => hes.bind fun _ =>
        (h.rawWrite _).bind fun _ => .pure true
    | some t =>
      exact hvalue.1.bind fun _ => (h.rawWrite _).bind fun _ => (h.typeRef t).bind fun _ =>
        hes.bind fun _ => (h.rawWrite _).bind fun _ => .pure true
  | classInstance i d vs ih =>
    rw [Object.containers_classInstance, List.forall_mem_cons, List.forall_mem_flatMap] at hvalue
    rw [Object.refs_classInstance, List.forall_mem_flatMap] at href
    have hvs := encodeValues_simulates fun v hv => ih v hv (hvalue.2 v hv) (href v hv)
    exact hvalue.1.bind fun _ => (h.rawDefinition d).bind fun _ => hvs.bind fun _ => .pure true

/-! ### The same containers at other addresses -/

/-- The second encoder has written and named what the first one has, and knows its containers at the
addresses that `f` gives to them, which are different for the addresses in `S`. -/
structure Encoder.Renamed (f : ObjId → ObjId) (S : Set ObjId) (e e' : Encoder) : Prop where
  output : e'.output = e.output
  typesRef : e'.typesRef = e.typesRef
  defRef : e'.defRef = e.defRef
  values : e'.valuesRef.keys = e.valuesRef.keys.map f
  inside : ∀ i ∈ e.valuesRef.keys, i ∈ S

section Renamed

variable {S : Set ObjId}

theorem Encoder.renamed_abreast : Abreast (Encoder.Renamed f S) where
  typesRef h := h.typesRef
  defRef h := h.defRef
  extend bs _ h := { h with output := congrArg (· ++ bs) h.output }
  enterType value h := { h with typesRef := congrArg (fun n : KeyTable Bytes => n.enter value) h.typesRef }
  enterDef value h := { h with defRef := congrArg (· ++ [value]) h.defRef }

variable (hf : Set.InjOn f S)
include hf

theorem enterValue_simulates {i : ObjId} (hi : i ∈ S) :
    Simulates (Encoder.Renamed f S) (enterValue i) (enterValue (f i)) := by
  refine .modify fun e e' h => { h with
    values := KeyTable.keys_enter_map h.values fun j hj hij => hf (h.inside j hj) hi hij
    inside := fun j hj => ?_ }
  obtain hj | rfl := KeyTable.mem_keys_enter.1 hj
  · exact h.inside j hj
  · exact hi

theorem encodeRef_simulates {i : ObjId} (hi : i ∈ S) :
    Simulates (Encoder.Renamed f S) (encodeRef P i) (encodeRef P (f i)) := by
  have h := Encoder.renamed_abreast (f := f) (S := S)
  refine .get_bind fun e e' he => ?_
  have hnumber : e'.getValueRef (f i) = e.getValueRef i := by
    simp only [Encoder.getValueRef]
    rw [KeyTable.number?_map he.values fun j hj hij => hf (he.inside j hj) hi hij]
  rw [hnumber]
  have hassert : Simulates (Encoder.Renamed f S) (abslAssert P (e.getValueRef i != -1))
      (abslAssert P (e.getValueRef i != -1)) := by
    unfold abslAssert
    split
    · exact .pure ()
    · exact .throw Stop.assertFailed
  refine hassert.bind fun _ => Simulates.bind (.modify fun e e' he => ?_) fun _ =>
    (h.rawWrite _).bind fun _ => (h.int32 _).bind fun _ => .pure true
  split
  · exact { he with }
  · exact he

end Renamed

namespace Item

/-- The same item at other addresses. -/
def rename (f : ObjId → ObjId) : Item → Item
  | message (.object value) => message (.object (value.rename f))
  | i => i

/-- The addresses in an item: its containers, and the targets of its references. -/
def addresses : Item → List ObjId
  | message (.object value) => value.containers ++ value.refs
  | _ => []

end Item

theorem encodeItem_simulates {S : Set ObjId} (hf : Set.InjOn f S) {i : Item}
    (hi : ∀ a ∈ i.addresses, a ∈ S) :
    Simulates (Encoder.Renamed f S) (encodeItem P i) (encodeItem P (i.rename f)) := by
  have h := Encoder.renamed_abreast (f := f) (S := S)
  cases i with
  | primitive p => exact h.primitive p
  | message m =>
    cases m with
    | object o =>
      rw [Item.addresses, List.forall_mem_append] at hi
      exact encodeObject_simulates h o (fun a ha => enterValue_simulates hf (hi.1 a ha))
        fun a ha => encodeRef_simulates hf (hi.2 a ha)
    | typeRef v => exact h.typeRef v
    | definition d => exact h.rawDefinition d

theorem encodeItems_simulates {S : Set ObjId} (hf : Set.InjOn f S) {items : List Item}
    (hitems : ∀ a ∈ items.flatMap Item.addresses, a ∈ S) :
    Simulates (Encoder.Renamed f S) (encodeItems P items) (encodeItems P (items.map (Item.rename f))) := by
  induction items with
  | nil => exact .pure []
  | cons i items ih =>
    rw [List.flatMap_cons, List.forall_mem_append] at hitems
    exact (encodeItem_simulates hf hitems.1).bind fun b => (ih hitems.2).bind fun bs => .pure (b :: bs)

/-- What the calls of a new encoder return, and what they write. -/
def written (P : Platform) (items : List Item) : Except Stop (List Bool × Bytes) :=
  (encodeItems P items .empty).map fun r => (r.1, r.2.output)

/-- Different addresses are as good as others. -/
theorem written_rename {items : List Item} (hf : Set.InjOn f {a | a ∈ items.flatMap Item.addresses}) :
    written P (items.map (Item.rename f)) = written P items := by
  have hnew : Encoder.Renamed f {a | a ∈ items.flatMap Item.addresses} .empty .empty :=
    ⟨rfl, rfl, rfl, rfl, fun i hi => absurd hi List.not_mem_nil⟩
  refine (SameResult.map_eq (encodeItems_simulates hf (fun a ha => ha) hnew) ?_).symm
  intro bs e e' h
  exact congrArg (Prod.mk bs) h.output.symm

/-- **What is written does not depend on where the objects live.**  For every sequence of calls of one
encoder, with whatever they are given, the same calls for the same objects at other addresses return the
same and write the same, and stop where they stop. -/
theorem encodeItems_rename (P : Platform) (items : List Item) (f : ObjId → ObjId)
    (hf : ∀ i ∈ items.flatMap Item.addresses, ∀ j ∈ items.flatMap Item.addresses, f i = f j → i = j) :
    written P (items.map (Item.rename f)) = written P items :=
  written_rename fun i hi j hj hij => hf i hi j hj hij

/-- A list with a reference to itself, and one with a reference to nowhere. -/
theorem encodeItems_rename_shifted :
    written .simple ([.message (.object (.untypedList 1 [.ref 1])),
      .message (.object (.untypedList 2 [.ref 3]))].map (Item.rename (· + 1))) =
    written .simple [.message (.object (.untypedList 1 [.ref 1])),
      .message (.object (.untypedList 2 [.ref 3]))] :=
  encodeItems_rename .simple _ (· + 1) fun _ _ _ _ => Nat.succ.inj

end Hessian2
