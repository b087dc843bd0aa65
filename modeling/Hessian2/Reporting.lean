import Hessian2.Evolution
import Hessian2.Stopping

/-!
# How failures are reported

The state of errors is set in one place, in `decode<bool>`.

* `DecodedType`, `decode` : the types that `decode` is called with.
* `Reports` : after a failed call `errorCode` says why, and after any other it says nothing.
* `DecodedType.Sentence`, `DecodedType.Halts` : the inputs for which a call returns a value, and those
  on which it stops the program.
* `reports_iff` : **a new decoder reports what becomes of a call exactly if the call is `decode<bool>`
  or does not fail.**
-/

namespace Hessian2

open Parsing Parsing.Parser

variable {α : Type} {P : Platform} {T : DecodedType} {s : State UInt8 Tables}

/-- The types that `decode` is called with. -/
inductive DecodedType where
  | object
  | bool
  | int32
  | int64
  | double
  | string
  | bytes
  | milliseconds
  | container (kind : ContainerKind)
  | definition

/-- What `decode` of the type returns. -/
def DecodedType.Value : DecodedType → Type
  | .object | .container _ => Object
  | .bool => Bool
  | .int32 => Int32
  | .int64 | .milliseconds => Int64
  | .double => UInt64
  | .string | .bytes => Bytes
  | .definition => RawDefinition

/-- `decode`. -/
def decode (P : Platform) : (T : DecodedType) → Dec T.Value
  | .object => decodeObject P
  | .bool => decodeBool P
  | .int32 => decodeInt32 P
  | .int64 => decodeInt64 P
  | .double => decodeDouble P
  | .string => decodeString P
  | .bytes => decodeBytes P
  | .milliseconds => readDate P .milliseconds
  | .container kind => decodeContainer P kind
  | .definition => decodeDefinition P

/-- A new decoder over the input, in a process that may have hashed binary data. -/
def fresh (hash : UInt64) (input : Bytes) : State UInt8 Tables :=
  ⟨.ofList input, { Tables.empty with binaryHash := hash }⟩

/-- After a failed call `errorCode` says why, and after a call that returns a value it says nothing. -/
structure Reports (P : Platform) (T : DecodedType) (s : State UInt8 Tables) : Prop where
  failed : ∀ s', decode P T s = .fail s' →
    s'.aux.errorCode = .notEnoughBuffer ∨ s'.aux.errorCode = .unexpectedType
  returned : ∀ a s', decode P T s = .ok a s' → s'.aux.errorCode = .noDecodeError

/-! ### The inputs -/

/-- The bytes of a value of the type. -/
def DecodedType.Sentence (P : Platform) : DecodedType → Tables → Bytes → Prop
  | .object, t, bs => ∃ o t', ObjectSentence P t bs o t'
  | .bool, _, bs => ∃ v, BoolSentence bs v
  | .int32, _, bs => ∃ v, IntSentence bs v
  | .int64, _, bs => ∃ v, LongSentence bs v
  | .double, _, bs => ∃ v, DoubleSentence bs v
  | .string, _, bs => ∃ v, StringReading P bs v
  | .bytes, _, bs => ∃ v, BinaryReading bs v
  | .milliseconds, _, bs => ∃ v, DateSentence bs v
  | .container kind, t, bs => ∃ o t', ContainerReading P (ObjectSentence P) kind t bs o t'
  | .definition, t, bs => ∃ d table, DefinitionSentence P t.defRef bs d table

/-- The input begins with the bytes of a value of the type. -/
def DecodedType.Begins (P : Platform) (T : DecodedType) (t : Tables) (input : Bytes) : Prop :=
  ∃ sentence rest, input = sentence ++ rest ∧ T.Sentence P t sentence

/-- The input stops the program in the call. -/
def DecodedType.Halts (P : Platform) : DecodedType → Tables → Bytes → Prop
  | .object, t, input => ObjectStops P t input
  | .container kind, t, input => ContainerStop P (ObjectSentence P) t kind input ∨
    ∃ front rest t₁, input = front ++ rest ∧ ContainerCall P (ObjectSentence P) t kind front t₁ ∧
      ObjectStops P t₁ rest
  | .definition, _, input => StartsNegative P input
  | _, _, _ => False

/-! ### The state of errors -/

/-- The code of the error is the same. -/
def Tables.SameError (t t' : Tables) : Prop := t'.errorCode = t.errorCode

instance : IsPreorder Tables Tables.SameError where
  refl _ := rfl
  trans _ _ _ h h' := h'.trans h

theorem Tables.SameError.admits : Tables.Admits Tables.SameError where
  types _ _ := rfl
  defs _ _ := rfl
  started _ _ := rfl
  heap _ _ := rfl
  binaryHash _ _ := rfl
  events _ _ := rfl

section Evolves

variable {R : Tables → Tables → Prop} [IsPreorder Tables R] (hR : Tables.Admits R)

include hR

theorem decodeMap_evolves (typed : Bool) : Evolves R (decodeMap P typed) := by
  have hself := decodeObject_evolves (P := P) hR
  rw [decodeMap_eq]
  refine container_evolves hR fun result => asserted_evolves _ ?_
  refine Evolves.bind (.ite (fun _ => ?_) fun _ => .pure _) fun _ =>
    (readEntries_evolves hself hR result).bind fun _ => .pure _
  exact (decodeTypeRef_evolves hR.types).bind fun _ => .pure _

theorem decodeContainer_evolves (kind : ContainerKind) : Evolves R (decodeContainer P kind) := by
  have hself := decodeObject_evolves (P := P) hR
  cases kind with
  | list typed =>
    rw [decodeContainer]
    cases typed with
    | false =>
      rw [decodeList, if_neg Bool.false_ne_true, decodeUntypedList_eq]
      exact container_evolves hR (untypedListForm_evolves hself)
    | true =>
      rw [decodeList, if_pos rfl, decodeTypedList_eq]
      exact container_evolves hR (typedListForm_evolves hself hR)
  | map typed => exact decodeMap_evolves hR typed
  | classInstance =>
    rw [decodeContainer, decodeClassInstance_eq]
    exact container_evolves hR (classInstanceForm_evolves hself hR)

/-- What holds across each change of the tables holds across a call, except of `decode<bool>`. -/
theorem decode_evolves (hT : T ≠ .bool) : Evolves R (decode P T) := by
  cases T with
  | object => exact decodeObject_evolves hR
  | bool => exact absurd rfl hT
  | int32 => exact decodeInt32_evolves
  | int64 => exact decodeInt64_evolves
  | double => exact decodeDouble_evolves
  | string => exact decodeString_evolves
  | bytes => exact decodeBytes_evolves
  | milliseconds => exact readDate_evolves _
  | container kind => exact decodeContainer_evolves hR kind
  | definition => exact decodeDefinition_evolves hR.defs

end Evolves

/-- `decode<bool>` sets it whenever it fails. -/
theorem decodeBool_failed {s' : State UInt8 Tables} (h : decodeBool P s = .fail s') :
    s'.aux.errorCode = .unexpectedType := by
  rw [decodeBool_eq, onFail] at h
  split at h
  · cases h
    rfl
  · next hno => exact absurd h (hno s')

theorem decodeBool_returned {s' : State UInt8 Tables} {b : Bool} (h : decodeBool P s = .ok b s') :
    s'.aux.errorCode = s.aux.errorCode := by
  rw [decodeBool_silent.ok h]

/-! ### What becomes of a call -/

section Leaves

variable {m : Dec α} (hm : Dec.Leaf m)

include hm

theorem Dec.Leaf.not_exhausted : m s ≠ .exhausted :=
  ((hm (fun _ => False) True (s.cursor.unread.length + 1)).agree s (Nat.lt_succ_self _)).2 trivial

/-- A leaf returns a value if the input begins with one. -/
theorem Dec.Leaf.returns_iff {S : Bytes → α → Prop}
    (hr : ∀ {t t' bs v}, Reads m t bs v t' ↔ t' = t ∧ S bs v) : (∃ v s', m s = .ok v s') ↔
      ∃ sentence rest, s.cursor.unread = sentence ++ rest ∧ ∃ v, S sentence v := by
  rw [(hm (fun _ => False) False 0).delimited.returns_iff]
  refine exists_congr fun sentence => exists_congr fun rest => ?_
  constructor
  · rintro ⟨v, t', hu, h⟩
    exact ⟨hu, v, (hr.1 h).2⟩
  · rintro ⟨hu, v, h⟩
    exact ⟨v, _, hu, hr.2 ⟨rfl, h⟩⟩

end Leaves

/-- **The inputs for which a call returns a value.** -/
theorem decode_returns_iff : (∃ v s', decode P T s = .ok v s') ↔
    T.Begins P s.aux s.cursor.unread := by
  cases T with
  | object =>
    refine decodeObject_delimited_hostile.returns_iff.trans ?_
    simp only [reads_object_eq, exists_and_left]
    rfl
  | bool => exact decodeBool_leaf.returns_iff reads_bool_iff
  | int32 => exact decodeInt32_leaf.returns_iff reads_int32_iff
  | int64 => exact decodeInt64_leaf.returns_iff reads_int64_iff
  | double => exact decodeDouble_leaf.returns_iff reads_double_iff
  | string => exact decodeString_leaf.returns_iff reads_string_iff
  | bytes => exact decodeBytes_leaf.returns_iff reads_bytes_iff
  | milliseconds => exact (readDate_leaf _).returns_iff reads_date_iff
  | container kind =>
    refine decodeContainer_ok_iff.trans ?_
    simp only [reads_object_eq, exists_and_left]
    rfl
  | definition =>
    refine decodeDefinition_delimited.returns_iff.trans ?_
    simp only [reads_definition_iff]
    refine exists_congr fun sentence => exists_congr fun rest => ?_
    constructor
    · rintro ⟨d, -, hu, table, hd, rfl⟩
      exact ⟨hu, d, table, hd⟩
    · rintro ⟨hu, d, table, hd⟩
      exact ⟨d, _, hu, table, hd, rfl⟩

/-- **The inputs that stop the program in a call.** -/
theorem decode_faults_iff : (∃ e s', decode P T s = .fault e s') ↔
    T.Halts P s.aux s.cursor.unread := by
  have leaf {α : Type} {m : Dec α} (hm : Dec.Leaf m) : (∃ e s', m s = .fault e s') ↔ False := by
    refine iff_false_intro ?_
    rintro ⟨e, s', h⟩
    exact hm.not_fault h
  cases T with
  | object => exact decodeObject_delimited_hostile.stops_iff.trans stops_object_iff
  | bool => exact leaf decodeBool_leaf
  | int32 => exact leaf decodeInt32_leaf
  | int64 => exact leaf decodeInt64_leaf
  | double => exact leaf decodeDouble_leaf
  | string => exact leaf decodeString_leaf
  | bytes => exact leaf decodeBytes_leaf
  | milliseconds => exact leaf (readDate_leaf _)
  | container kind =>
    refine decodeContainer_fault_iff.trans ?_
    simp only [ContainerStops, stops_object_iff, reads_object_eq]
    rfl
  | definition => exact decodeDefinition_delimited.stops_iff.trans stops_definition_iff

theorem decode_not_exhausted : decode P T s ≠ .exhausted := by
  cases T with
  | object => exact (decodeObject_tame.agree s (Nat.lt_succ_self _)).2 trivial
  | bool => exact decodeBool_leaf.not_exhausted
  | int32 => exact decodeInt32_leaf.not_exhausted
  | int64 => exact decodeInt64_leaf.not_exhausted
  | double => exact decodeDouble_leaf.not_exhausted
  | string => exact decodeString_leaf.not_exhausted
  | bytes => exact decodeBytes_leaf.not_exhausted
  | milliseconds => exact (readDate_leaf _).not_exhausted
  | container kind => exact decodeContainer_not_exhausted
  | definition =>
    have htame := decodeDefinition_tame (P := P) (E := IsLengthError) rfl True
      (s.cursor.unread.length + 1)
    exact (htame.agree s (Nat.lt_succ_self _)).2 trivial

/-- Every other call fails. -/
theorem decode_fails_iff : (∃ s', decode P T s = .fail s') ↔
    ¬ (T.Begins P s.aux s.cursor.unread ∨ T.Halts P s.aux s.cursor.unread) := by
  rw [← decode_returns_iff, ← decode_faults_iff]
  cases h : decode P T s with
  | exhausted => exact absurd h decode_not_exhausted
  | _ => simp

/-! ### Reports -/

/-- A call that returns a value leaves the code of the error. -/
theorem decode_returned {v : T.Value} {s' : State UInt8 Tables} (h : decode P T s = .ok v s') :
    s'.aux.errorCode = s.aux.errorCode := by
  cases T with
  | bool => exact decodeBool_returned h
  | _ => exact (decode_evolves Tables.SameError.admits (by simp)).ok h

/-- **A failed call is reported exactly if it is a call of `decode<bool>`.** -/
theorem decode_failed_iff {s' : State UInt8 Tables} (h : decode P T s = .fail s')
    (hs : s.aux.errorCode = .noDecodeError) : T = .bool ↔
      s'.aux.errorCode = .notEnoughBuffer ∨ s'.aux.errorCode = .unexpectedType := by
  constructor
  · rintro rfl
    exact .inr (decodeBool_failed h)
  · intro hreport
    by_contra hT
    have herror : s'.aux.errorCode = s.aux.errorCode :=
      (decode_evolves Tables.SameError.admits hT).fail h
    rw [herror, hs] at hreport
    simp at hreport

/-- **A new decoder reports what becomes of a call exactly if the call is `decode<bool>`, or the input
begins with a value of the type, or it stops the program.** -/
theorem reports_iff (P : Platform) (T : DecodedType) (hash : UInt64) (input : Bytes) :
    Reports P T (fresh hash input) ↔ T = .bool ∨
      T.Begins P { Tables.empty with binaryHash := hash } input ∨
      T.Halts P { Tables.empty with binaryHash := hash } input := by
  have hfails := decode_fails_iff (P := P) (T := T) (s := fresh hash input)
  rw [fresh, Cursor.unread_ofList] at hfails
  constructor
  · intro h
    -- a call that neither returns nor stops fails, and then only `decode<bool>` reports it
    by_contra hno
    rw [not_or] at hno
    obtain ⟨s', hf⟩ := hfails.2 hno.2
    exact hno.1 ((decode_failed_iff hf rfl).2 (h.failed s' hf))
  · intro h
    refine ⟨fun s' hf => (decode_failed_iff hf rfl).1 (h.resolve_right ?_), fun v s' hok => ?_⟩
    · exact hfails.1 ⟨s', hf⟩
    · exact decode_returned hok

/-- `decode<int32_t>` fails on an empty input and `decode<Object>` on a byte that announces nothing, and
no error is set. -/
theorem failures_not_reported :
    ¬ Reports .simple .int32 (fresh 0 []) ∧ ¬ Reports .simple .object (fresh 0 [0x40]) := by
  have hrun : (decodeInt32 .simple (fresh 0 [])).refused
      (fun s => s.aux.errorCode == .noDecodeError) = true ∧
      (decodeObject .simple (fresh 0 [0x40])).refused
        (fun s => s.aux.errorCode == .noDecodeError) = true := by decide +kernel
  have unreported {T : DecodedType} {s : State UInt8 Tables}
      (hrun : (decode .simple T s).refused (fun s => s.aux.errorCode == .noDecodeError) = true) :
      ¬ Reports .simple T s := by
    intro h
    obtain ⟨s', hf, herror⟩ := Outcome.exists_of_refused hrun
    obtain hcode | hcode := h.failed s' hf <;>
      · rw [hcode] at herror
        cases herror
  exact ⟨unreported hrun.1, unreported hrun.2⟩

end Hessian2
