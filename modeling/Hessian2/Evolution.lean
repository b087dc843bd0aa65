import Hessian2.Silent

/-!
# How the decoders of objects change the tables

What holds between the tables before and after a call of `decode<Object>`, however the call ends,
follows from the few ways in which the decoders change them.

* `Tables.Admits` : a relation between tables that holds across each of these changes.
* `decodeObject_evolves` : **it holds across a call of `decode<Object>`.**  The state of errors is not
  among what changes: `decode<bool>` is called only where it does not fail.
-/

namespace Hessian2

open Parsing Parsing.Parser Reader

variable {P : Platform} {R : Tables → Tables → Prop} {s : State UInt8 Tables}

/-- What the decoders of objects do to the tables moves them along `R`. -/
structure Tables.Admits (R : Tables → Tables → Prop) : Prop where
  types : ∀ t types, R t { t with typesRef := types }
  defs : ∀ t defs, R t { t with defRef := defs }
  started : ∀ t kind, R t (t.started kind)
  heap : ∀ t heap, R t { t with heap := heap }
  binaryHash : ∀ t hash, R t { t with binaryHash := hash }
  events : ∀ t events, R t { t with events := events }

/-! ### `decode<bool>` behind its lead byte -/

theorem leadOf_bool : ∀ code : UInt8, leadOf code = .bool → code.toNat = 0x46 ∨ code.toNat = 0x54 :=
  forall_byte (by decide +kernel)

/-- In `decode<Object>`, `decode<bool>` does not fail. -/
theorem decodeBool_of_lead {code : UInt8} {bs : Bytes} (hl : leadOf code = .bool)
    (hu : s.cursor.unread = code :: bs) :
    decodeBool P s = (next >>= fun code => pure (code.toNat == 0x54) : Dec Bool) s := by
  rw [decodeBool_eq, onFail, bind_apply, bind_apply, next_of_cons hu]
  obtain hc | hc := leadOf_bool code hl <;>
    · simp only [Outcome.ok_andThen, boolForm, hc]
      rfl

/-! ### Steps -/

section Steps

variable [IsPreorder Tables R]

theorem readByte_evolves : Evolves R (readByte P : Dec (Bool × UInt8)) := by
  refine .same fun s s' h => ?_
  rcases hu : s.cursor.unread with _ | ⟨b, bs⟩
  · rw [readByte_of_nil P hu] at h
    cases h
    rfl
  · rw [readByte_of_cons P hu] at h
    cases h
    rfl

/-- The assertions about the lead byte of a map. -/
theorem asserted_evolves {α : Type} {m : Dec α} (code : UInt8) (hm : Evolves R m) :
    Evolves R (do let ret ← readByte P
                  Dec.abslAssert P ret.1
                  Dec.abslAssert P (ret.2 == code)
                  m) := by
  have hassert (condition : Bool) : Evolves R (Dec.abslAssert P condition) :=
    .ite (fun _ => .pure _) fun _ => .stop _
  exact readByte_evolves.bind fun _ => (hassert _).bind fun _ => (hassert _).bind fun _ => hm

variable (hR : Tables.Admits R)

include hR

omit [IsPreorder Tables R] in
theorem record_evolves (event : Event) : Evolves R (Dec.record event) :=
  .modifyAux fun t => hR.events t _

theorem emplace_evolves (self : ObjId) (slots : List Slot) (key value : Object) :
    Evolves R (Dec.emplace P self slots key value) := by
  refine Evolves.aux.bind fun t => ?_
  cases key.hash P t.heap t.binaryHash with
  | none => exact (record_evolves hR _).bind fun _ => .stop _
  | some h =>
    refine (record_evolves hR _).bind fun _ => ?_
    refine Evolves.bind (.modifyAux fun t => hR.binaryHash t _) fun _ => ?_
    exact .ite (fun _ => .pure _) fun _ => Evolves.bind (.modifyAux fun t => hR.heap t _) fun _ => .pure _

/-- A container: its entry, its body, and then its contents or its destruction. -/
theorem container_evolves {kind : ContainerKind} {body : ObjId → Dec Object}
    (h : ∀ result, Evolves R (body result)) : Evolves R (Dec.container kind body) := by
  have hdestroy {t : Tables} {s : State UInt8 Tables} (h : R t s.aux) :
      R t (s.aux.destroyFrom t.heap.length) := IsTrans.trans _ _ _ h (hR.heap _ _)
  refine Evolves.onFail ?_ hdestroy
  refine Evolves.bind (Evolves.aux.bind fun t => ?_) fun result => (h result).bind fun contents => ?_
  · exact Evolves.bind (.modifyAux fun t => hR.started t _) fun _ => .pure _
  · exact Evolves.bind (.modifyAux fun t => hR.heap t _) fun _ => .pure _

end Steps

/-! ### Forms -/

section Forms

variable [IsPreorder Tables R] {self : Dec Object} (hself : Evolves R self)

include hself

theorem readObjectUntilEnd_evolves : Evolves R (readObjectUntilEnd P self) := by
  refine .iter (fun values => ?_) _
  rw [readObjectUntilEndStep_eq]
  exact .ahead fun code => .ite (fun _ => Evolves.next.bind fun _ => .pure _) fun _ =>
    hself.bind fun _ => .pure _

theorem typedListValues_evolves (code : UInt8) : Evolves R (typedListValues P self code) := by
  refine .ite (fun _ => readObjectUntilEnd_evolves hself) fun _ => .ite (fun _ => ?_) fun _ =>
    .ite (fun _ => hself.times _) fun _ => .failure
  exact decodeInt32_evolves.bind fun _ => hself.times _

theorem untypedListValues_evolves (code : UInt8) : Evolves R (untypedListValues P self code) := by
  refine .ite (fun _ => readObjectUntilEnd_evolves hself) fun _ => .ite (fun _ => ?_) fun _ =>
    .ite (fun _ => hself.times _) fun _ => .pure _
  exact decodeInt32_evolves.bind fun _ => hself.times _

theorem untypedListForm_evolves (result : ObjId) : Evolves R (untypedListForm P self result) :=
  Evolves.next.bind fun code => (untypedListValues_evolves hself code).bind fun _ => .pure _

variable (hR : Tables.Admits R)

include hR

theorem typedListForm_evolves (result : ObjId) : Evolves R (typedListForm P self result) :=
  Evolves.next.bind fun code => (decodeTypeRef_evolves hR.types).bind fun _ =>
    (typedListValues_evolves hself code).bind fun _ => .pure _

theorem readEntries_evolves (result : ObjId) : Evolves R (readEntries P self result) := by
  refine Evolves.bind (.iter (fun objMap => ?_) _) fun _ => .pure _
  rw [readEntriesStep_eq]
  exact .ahead fun code => .ite (fun _ => Evolves.next.bind fun _ => .pure _) fun _ =>
    hself.bind fun key => hself.bind fun value =>
      (emplace_evolves hR _ _ _ _).bind fun _ => .pure _

theorem typedMapForm_evolves (result : ObjId) : Evolves R (typedMapForm P self result) :=
  Evolves.next.bind fun _ => (decodeTypeRef_evolves hR.types).bind fun _ =>
    (readEntries_evolves hself hR _).bind fun _ => .pure _

theorem untypedMapForm_evolves (result : ObjId) : Evolves R (untypedMapForm P self result) :=
  Evolves.next.bind fun _ => (readEntries_evolves hself hR _).bind fun _ => .pure _

theorem classInstanceForm_evolves (result : ObjId) : Evolves R (classInstanceForm P self result) := by
  have hdefinition := decodeDefinition_evolves (P := P) hR.defs
  refine .ahead fun code => Evolves.bind ?_ fun _ =>
    hdefinition.bind fun _ => (hself.times _).bind fun _ => .pure _
  exact .ite (fun _ => hdefinition.bind fun _ => .pure _) fun _ => .pure _

/-- What a lead byte announces, without `decode<bool>`. -/
theorem decodeObjectForm_evolves {code : UInt8} (hc : leadOf code ≠ .bool) :
    Evolves R (decodeObjectForm P self code) := by
  unfold decodeObjectForm
  split
  · exact Evolves.next.bind fun _ => .pure _
  · exact absurd ‹_› hc
  · exact (readDate_evolves _).bind fun _ => .pure _
  · exact decodeDouble_evolves.bind fun _ => .pure _
  · exact container_evolves hR (typedListForm_evolves hself hR)
  · exact container_evolves hR (untypedListForm_evolves hself)
  · exact container_evolves hR (typedMapForm_evolves hself hR)
  · exact container_evolves hR (untypedMapForm_evolves hself hR)
  · exact (decodeDefinition_evolves hR.defs).bind fun _ => hself
  · exact container_evolves hR (classInstanceForm_evolves hself hR)
  · exact Evolves.next.bind fun _ => decodeInt32_evolves.bind fun _ =>
      (lookup_evolves _).bind fun _ => (record_evolves hR _).bind fun _ => .pure _
  · exact decodeString_evolves.bind fun _ => .pure _
  · exact decodeBytes_evolves.bind fun _ => .pure _
  · exact decodeInt64_evolves.bind fun _ => .pure _
  · exact decodeInt32_evolves.bind fun _ => .pure _
  · exact .failure

end Forms

/-- **What holds across each change of the tables holds across a call of `decode<Object>`.** -/
theorem decodeObject_evolves [IsPreorder Tables R] (hR : Tables.Admits R) :
    Evolves R (decodeObject P) := by
  refine Evolves.fix (fun self hself _ => ?_) ()
  rw [decodeObjectBody_eq]
  intro s s' h
  rcases hu : s.cursor.unread with _ | ⟨code, bs⟩
  · rw [ahead_of_nil hu] at h
    cases h
    exact Std.Refl.refl _
  rw [ahead_of_cons hu] at h
  -- `decode<bool>` would set the error, but only on other lead bytes
  by_cases hl : leadOf code = .bool
  · rw [decodeObjectForm, hl] at h
    dsimp only at h
    rw [bind_apply, decodeBool_of_lead hl hu, ← bind_apply] at h
    have hbool : Evolves R (next >>= fun code => pure (code.toNat == 0x54) : Dec Bool) :=
      Evolves.next.bind fun _ => .pure _
    exact (hbool.bind fun _ => .pure _) h
  · exact decodeObjectForm_evolves (hself ()) hR hl h

end Hessian2
