import Hessian2.Reporting
import Hessian2.Parsing.Recognizes

/-!
# What becomes of a program of calls

A decoder is called for values of different types, one after the other, until a call fails.

* `DecodedType.Reading` : the bytes of a value of a type, the value, and the tables behind it.
* `decode_recognizes` : **a call returns a value exactly if the input begins with one of its type.**
* `decodeCalls` : the program.
* `Readings` : the bytes of values, one after the other.
* `decodeCalls_outcome` : **the program returns the values in the input, or stops, or fails, at the first
  call for which there is none.**
-/

namespace Hessian2

open Parsing Parsing.Parser

variable {P : Platform} {T : DecodedType} {s s' : State UInt8 Tables} {t t' : Tables} {bs : Bytes}

/-! ### One call -/

/-- The bytes of a value of the type, the value, and the tables behind it. -/
def DecodedType.Reading (P : Platform) : (T : DecodedType) → Parsing.Reading UInt8 Tables T.Value
  | .object => ObjectSentence P
  | .bool => fun t bs v t' => t' = t ∧ BoolSentence bs v
  | .int32 => fun t bs v t' => t' = t ∧ IntSentence bs v
  | .int64 => fun t bs v t' => t' = t ∧ LongSentence bs v
  | .double => fun t bs v t' => t' = t ∧ DoubleSentence bs v
  | .string => fun t bs v t' => t' = t ∧ StringReading P bs v
  | .bytes => fun t bs v t' => t' = t ∧ BinaryReading bs v
  | .milliseconds => fun t bs v t' => t' = t ∧ DateSentence bs v
  | .container kind => ContainerReading P (ObjectSentence P) kind
  | .definition => fun t bs d t' =>
    ∃ table, DefinitionSentence P t.defRef bs d table ∧ t' = { t with defRef := table }

/-- A call for a map returns one exactly if the input begins with one. -/
theorem decodeMap_recognizes (typed : Bool) :
    Recognizes (decodeMap P typed) (MapReading P (Reads (decodeObject P)) typed) := by
  intro s o s'
  have header {bs rest : Bytes} {t' : Tables} (hu : s.cursor.unread = bs ++ rest)
      (hm : MapReading P (Reads (decodeObject P)) typed s.aux bs o t') :
      ∃ code type, s.cursor.unread = code :: type ∧ (P.ndebug = true ∨ code = mapLead typed) := by
    cases hm with
    | intro hh =>
      obtain ⟨code, type, rfl, hc⟩ := hh.lead
      exact ⟨code, _, hu, hc⟩
  -- an assertion fails, the input is empty, or the map is read
  obtain ⟨hd, hno, e, s₁, h⟩ | ⟨hempty, hd, s₁, h⟩ | ⟨code, rest, hfirst, hc, h⟩ := decodeMap_cases P typed s
  · refine iff_of_false (by simp [h]) ?_
    rintro ⟨bs, rest, hu, hm, -⟩
    obtain ⟨code, type, hcode, hd' | rfl⟩ := header hu hm
    · rw [hd] at hd'
      cases hd'
    · exact hno _ hcode
  · refine iff_of_false (by simp [h]) ?_
    rintro ⟨bs, rest, hu, hm, -⟩
    obtain ⟨code, type, hcode, -⟩ := header hu hm
    rw [hempty] at hcode
    cases hcode
  · have hcontainer := (mapContainer_delimited (P := P) typed).recognizes Iff.rfl
    rw [h, @hcontainer s o s']
    refine exists_congr fun bs => exists_congr fun rest' => exists_congr fun hu => ?_
    rw [reads_mapContainer_iff]
    intro code' hcode'
    obtain ⟨type, rfl⟩ := List.head?_eq_some_iff.1 hcode'
    rw [hfirst] at hu
    exact (List.cons.inj hu).1 ▸ hc

/-- **A call returns a value exactly if the input begins with the bytes of one**, and reads these. -/
theorem decode_recognizes (T : DecodedType) : Recognizes (decode P T) (T.Reading P) := by
  have leaf {α : Type} {m : Dec α} (hm : Dec.Leaf m) {S : Bytes → α → Prop}
      (hr : ∀ {t t' bs v}, Reads m t bs v t' ↔ t' = t ∧ S bs v) :
      Recognizes m fun t bs v t' => t' = t ∧ S bs v :=
    (hm (fun _ => False) False 0).delimited.recognizes hr
  cases T with
  | object => exact decodeObject_delimited_hostile.recognizes (by simp [DecodedType.Reading, reads_object_eq])
  | bool => exact leaf decodeBool_leaf reads_bool_iff
  | int32 => exact leaf decodeInt32_leaf reads_int32_iff
  | int64 => exact leaf decodeInt64_leaf reads_int64_iff
  | double => exact leaf decodeDouble_leaf reads_double_iff
  | string => exact leaf decodeString_leaf reads_string_iff
  | bytes => exact leaf decodeBytes_leaf reads_bytes_iff
  | milliseconds => exact leaf (readDate_leaf _) reads_date_iff
  | container kind =>
    rw [DecodedType.Reading, ← reads_object_eq]
    cases kind with
    | list typed => exact (decodeList_delimited typed).recognizes reads_list_iff
    | map typed => exact decodeMap_recognizes typed
    | classInstance => exact direct_delimited.recognizes reads_instanceReading_iff
  | definition => exact decodeDefinition_delimited.recognizes reads_definition_iff

/-! ### A program of calls -/

/-- A value that `decode` returns, with its type. -/
abbrev Decoded := Σ T : DecodedType, T.Value

/-- One call after the other, until one fails. -/
def decodeCalls (P : Platform) : List DecodedType → Dec (List Decoded)
  | [] => pure []
  | T :: Ts => decode P T >>= fun v => decodeCalls P Ts >>= fun vs => pure (⟨T, v⟩ :: vs)

/-- The bytes of values, one after the other. -/
inductive Readings (P : Platform) : Tables → Bytes → List Decoded → Tables → Prop where
  | nil (t : Tables) : Readings P t [] [] t
  | cons {T : DecodedType} {t t₁ t' : Tables} {bs cs : Bytes} {v : T.Value} {vs : List Decoded}
    (hv : T.Reading P t bs v t₁) (hvs : Readings P t₁ cs vs t') :
    Readings P t (bs ++ cs) (⟨T, v⟩ :: vs) t'

/-- The input begins with values for some of the calls, and the next one meets `Q`. -/
def Breaks (P : Platform) (Q : DecodedType → Tables → Bytes → Prop) (Ts : List DecodedType) (t : Tables)
    (input : Bytes) : Prop :=
  ∃ T after bs rest vs t₁, Ts = vs.map Sigma.fst ++ T :: after ∧ input = bs ++ rest ∧
    Readings P t bs vs t₁ ∧ Q T t₁ rest

theorem decodeCalls_recognizes : ∀ Ts, Recognizes (decodeCalls P Ts) fun t bs vs t' =>
    vs.map Sigma.fst = Ts ∧ Readings P t bs vs t'
  | [] => by
    refine (Recognizes.pure []).congr fun {t bs vs t'} => ?_
    constructor
    · rintro ⟨rfl, rfl, rfl⟩
      exact ⟨rfl, .nil _⟩
    · rintro ⟨hvs, hr⟩
      cases hr with
      | nil => exact ⟨rfl, rfl, rfl⟩
      | cons => cases hvs
  | T :: Ts => by
    refine ((decode_recognizes T).bind fun v => (decodeCalls_recognizes Ts).bind fun vs =>
      Recognizes.pure (⟨T, v⟩ :: vs)).congr fun {t bs vs t'} => ?_
    constructor
    · rintro ⟨bs₁, _, v, t₁, rfl, hv, bs₂, _, vs, t₂, rfl, ⟨rfl, hvs⟩, rfl, rfl, rfl⟩
      rw [List.append_nil]
      exact ⟨rfl, .cons hv hvs⟩
    · rintro ⟨hTs, hr⟩
      cases hr with
      | nil => cases hTs
      | cons hv hvs =>
        obtain ⟨rfl, rfl⟩ := List.cons.inj hTs
        exact ⟨_, _, _, _, rfl, hv, _, [], _, _, (List.append_nil _).symm, ⟨rfl, hvs⟩, rfl, rfl, rfl⟩

/-- A program breaks off at its first call, or behind it. -/
theorem breaks_cons {Q : DecodedType → Tables → Bytes → Prop} {Ts : List DecodedType} {input : Bytes} :
    Breaks P Q (T :: Ts) t input ↔ Q T t input ∨
      ∃ bs rest v t₁, input = bs ++ rest ∧ T.Reading P t bs v t₁ ∧ Breaks P Q Ts t₁ rest := by
  constructor
  · rintro ⟨T', after, bs, rest, vs, t₁, hTs, rfl, hr, hQ⟩
    cases hr with
    | nil =>
      obtain ⟨rfl, rfl⟩ := List.cons.inj hTs
      exact .inl hQ
    | cons hv hvs =>
      obtain ⟨rfl, rfl⟩ := List.cons.inj hTs
      exact .inr ⟨_, _, _, _, List.append_assoc _ _ _, hv, T', after, _, _, _, _, rfl, rfl, hvs, hQ⟩
  · rintro (hQ | ⟨bs, rest, v, t₁, rfl, hv, T', after, bs', rest', vs, t₂, rfl, rfl, hvs, hQ⟩)
    · exact ⟨T, Ts, [], input, [], t, rfl, rfl, .nil t, hQ⟩
    · exact ⟨T', after, bs ++ bs', rest', ⟨T, v⟩ :: vs, t₂, rfl, (List.append_assoc _ _ _).symm,
        .cons hv hvs, hQ⟩

/-- The ends of single calls tell the ends of the program. -/
theorem decodeCalls_breaks_iff {stops : Bool} {Q : DecodedType → Tables → Bytes → Prop}
    (hQ : ∀ T s, (decode P T s).Breaks stops ↔ Q T s.aux s.cursor.unread) : ∀ Ts s,
    (decodeCalls P Ts s).Breaks stops ↔ Breaks P Q Ts s.aux s.cursor.unread
  | [], s => by
    refine iff_of_false id ?_
    rintro ⟨T, after, bs, rest, vs, t₁, hTs, -⟩
    simp at hTs
  | T :: Ts, s => by
    rw [breaks_cons, ← hQ T s]
    refine (decode_recognizes T).breaks_bind_iff fun v s => ?_
    -- what follows the rest of the calls only returns
    rw [← decodeCalls_breaks_iff hQ Ts s, bind_apply]
    cases decodeCalls P Ts s <;> simp [Outcome.andThen, Outcome.Breaks]

theorem decodeCalls_not_exhausted : ∀ Ts s, decodeCalls P Ts s ≠ .exhausted
  | [], s => by simp [decodeCalls]
  | T :: Ts, s => by
    rw [decodeCalls, Ne, bind_eq_exhausted, not_or]
    refine ⟨decode_not_exhausted, ?_⟩
    rintro ⟨v, s', -, h⟩
    obtain h | ⟨vs, s'', -, h⟩ := bind_eq_exhausted.1 h
    · exact decodeCalls_not_exhausted Ts s' h
    · cases h

/-- **What becomes of a program of calls.**  From every state of the decoder, the program returns values
exactly if the unread input begins with one for each call, one after the other, and moves over these.  It
stops, or fails, at the first call for which there is none, if that call stops the program, or fails. -/
theorem decodeCalls_outcome (P : Platform) (Ts : List DecodedType) (s : State UInt8 Tables) :
    (∀ vs s', decodeCalls P Ts s = .ok vs s' ↔
      ∃ (bs rest : Bytes) (h : s.cursor.unread = bs ++ rest),
        (vs.map Sigma.fst = Ts ∧ Readings P s.aux bs vs s'.aux) ∧
          s'.cursor = s.cursor.advance bs.length (Cursor.length_le_unread h)) ∧
    ((∃ e s', decodeCalls P Ts s = .fault e s') ↔ Breaks P (DecodedType.Halts P) Ts s.aux s.cursor.unread) ∧
    ((∃ s', decodeCalls P Ts s = .fail s') ↔
      Breaks P (fun T t input => ¬ (T.Begins P t input ∨ T.Halts P t input)) Ts s.aux s.cursor.unread) ∧
    decodeCalls P Ts s ≠ .exhausted := by
  have hfault {α : Type} (o : Outcome UInt8 Tables Fault α) : o.Breaks true ↔ ∃ e s', o = .fault e s' := by
    cases o <;> simp [Outcome.Breaks]
  have hfail {α : Type} (o : Outcome UInt8 Tables Fault α) : o.Breaks false ↔ ∃ s', o = .fail s' := by
    cases o <;> simp [Outcome.Breaks]
  refine ⟨@decodeCalls_recognizes P Ts s, ?_, ?_, decodeCalls_not_exhausted Ts s⟩
  · rw [← hfault]
    exact decodeCalls_breaks_iff (fun T s => (hfault _).trans decode_faults_iff) Ts s
  · rw [← hfail]
    exact decodeCalls_breaks_iff (fun T s => (hfail _).trans decode_fails_iff) Ts s

/-! ### Messages -/

/-- What the tables say about errors is the same. -/
def Tables.SameReport (t t' : Tables) : Prop := t'.errorCode = t.errorCode ∧ t'.errorPos = t.errorPos

instance : IsPreorder Tables Tables.SameReport where
  refl _ := ⟨rfl, rfl⟩
  trans _ _ _ h h' := ⟨h'.1.trans h.1, h'.2.trans h.2⟩

theorem Tables.SameReport.admits : Tables.Admits Tables.SameReport where
  types _ _ := ⟨rfl, rfl⟩
  defs _ _ := ⟨rfl, rfl⟩
  started _ _ := ⟨rfl, rfl⟩
  heap _ _ := ⟨rfl, rfl⟩
  binaryHash _ _ := ⟨rfl, rfl⟩
  events _ _ := ⟨rfl, rfl⟩

/-- A call that was made: its type, whether it returned a value, and the offset behind it. -/
structure Call where
  type : DecodedType
  returned : Bool
  offset : ℕ

/-- Calls that are made one after the other, also behind calls that fail. -/
inductive Runs (P : Platform) : State UInt8 Tables → List Call → State UInt8 Tables → Prop where
  | nil (s : State UInt8 Tables) : Runs P s [] s
  | returned {T : DecodedType} {s s₁ s' : State UInt8 Tables} {v : T.Value} {calls : List Call}
    (h : decode P T s = .ok v s₁) (tail : Runs P s₁ calls s') :
    Runs P s (⟨T, true, s₁.cursor.offset⟩ :: calls) s'
  | failed {T : DecodedType} {s s₁ s' : State UInt8 Tables} {calls : List Call}
    (h : decode P T s = .fail s₁) (tail : Runs P s₁ calls s') :
    Runs P s (⟨T, false, s₁.cursor.offset⟩ :: calls) s'

/-- The call is one of `decode<bool>` that failed. -/
def Call.failedBool : Call → Bool
  | ⟨.bool, false, _⟩ => true
  | _ => false

/-- The offset behind the last call of `decode<bool>` that failed. -/
def lastFailedBool (calls : List Call) : Option ℕ :=
  ((calls.filter Call.failedBool).getLast?).map Call.offset

theorem lastFailedBool_cons (c : Call) (calls : List Call) : lastFailedBool (c :: calls) =
    (lastFailedBool calls).or (if c.failedBool then some c.offset else none) := by
  cases h : c.failedBool with
  | true =>
    simp only [lastFailedBool, List.filter_cons_of_pos h]
    cases calls.filter Call.failedBool with
    | nil => rfl
    | cons c' cs => simp [List.getLast?_eq_some_getLast]
  | false => simp [lastFailedBool, List.filter_cons_of_neg (by simp [h] : ¬ c.failedBool = true)]

/-- `decode<bool>` that fails notes the offset behind it. -/
theorem decodeBool_position (h : decodeBool P s = .fail s') :
    s'.aux.errorPos = .ofNat s'.cursor.offset := by
  rw [decodeBool_eq, onFail] at h
  split at h
  · cases h
    rfl
  · next hno => exact absurd h (hno s')

/-- **Errors stay.**  Behind any calls the state of errors is that of the last call of `decode<bool>` that
failed: no other call sets it, and none takes it back. -/
theorem Runs.report {calls : List Call} (h : Runs P s calls s') :
    (s'.aux.errorCode, s'.aux.errorPos) = match lastFailedBool calls with
      | none => (s.aux.errorCode, s.aux.errorPos)
      | some pos => (.unexpectedType, .ofNat pos) := by
  induction h with
  | nil s => rfl
  | @returned T s s₁ s' v calls h tail ih =>
    have hsame : Tables.SameReport s.aux s₁.aux := by
      cases T with
      | bool => exact decodeBool_silent.ok h ▸ ⟨rfl, rfl⟩
      | _ => exact (decode_evolves Tables.SameReport.admits (by simp)).ok h
    have hcall : Call.failedBool ⟨T, true, s₁.cursor.offset⟩ = false := by cases T <;> rfl
    rw [ih, lastFailedBool_cons, hcall, hsame.1, hsame.2]
    simp
  | @failed T s s₁ s' calls h tail ih =>
    rw [ih, lastFailedBool_cons]
    by_cases hT : T = .bool
    · subst hT
      rw [decodeBool_failed h, decodeBool_position h]
      cases lastFailedBool calls <;> rfl
    · have hsame := (decode_evolves Tables.SameReport.admits hT).fail h
      have hcall : Call.failedBool ⟨T, false, s₁.cursor.offset⟩ = false := by
        cases T with
        | bool => exact absurd rfl hT
        | _ => rfl
      rw [hcall, hsame.1, hsame.2]
      simp

/-- **What `getErrorMessage` says.**  Behind any calls of a new decoder, failed ones included, the message
is that of the last call of `decode<bool>` that failed, and it is empty but for the position if there was
none.  The position is in the message only where it is zero, which an `int` is at every `2 ^ 32` bytes. -/
theorem runs_message (P : Platform) (hash : UInt64) (input : Bytes) (calls : List Call)
    (s : State UInt8 Tables) (h : Runs P (fresh hash input) calls s) :
    s.aux.getErrorMessage = match lastFailedBool calls with
      | none => "pos: 0, "
      | some pos => if pos % 2 ^ 32 = 0 then "pos: 0, Unexpected type" else "Unexpected type" := by
  have hreport := h.report
  cases hlast : lastFailedBool calls with
  | none =>
    rw [hlast, Prod.mk.injEq] at hreport
    have hnew : (fresh hash input).aux.errorCode = .noDecodeError ∧ (fresh hash input).aux.errorPos = 0 :=
      ⟨rfl, rfl⟩
    rw [Tables.getErrorMessage, hreport.1, hreport.2, hnew.1, hnew.2, if_pos rfl]
    rfl
  | some pos =>
    rw [hlast, Prod.mk.injEq] at hreport
    have hzero : Int32.ofNat pos = 0 ↔ pos % 2 ^ 32 = 0 := by
      have hbits : Int32.ofNat pos = 0 ↔ UInt32.ofNat pos = 0 :=
        ⟨fun h => congrArg Int32.toUInt32 h, fun h => congrArg UInt32.toInt32 h⟩
      rw [hbits, ← UInt32.toNat_inj, UInt32.toNat_ofNat']
      rfl
    rw [Tables.getErrorMessage, hreport.1, hreport.2]
    by_cases hpos : pos % 2 ^ 32 = 0
    · rw [hzero.2 hpos]
      simp only [hpos, if_true]
      rfl
    · rw [if_neg (mt hzero.1 hpos)]
      simp only [hpos, if_false]
      rfl

/-- A `true`, then a byte that is no boolean, and then another `true`. -/
theorem runs_message_sticky : ∃ s : State UInt8 Tables, s.aux.getErrorMessage =
    match lastFailedBool [⟨.bool, true, 1⟩, ⟨.bool, false, 2⟩, ⟨.bool, true, 3⟩] with
      | none => "pos: 0, "
      | some pos => if pos % 2 ^ 32 = 0 then "pos: 0, Unexpected type" else "Unexpected type" := by
  have h₁ : decode .simple .bool (fresh 0 [0x54, 0x4e, 0x54]) =
      .ok true ⟨⟨[0x54, 0x4e, 0x54], 1, by decide⟩, .empty⟩ := rfl
  have h₂ : decode .simple .bool ⟨⟨[0x54, 0x4e, 0x54], 1, by decide⟩, .empty⟩ =
      .fail ⟨⟨[0x54, 0x4e, 0x54], 2, by decide⟩,
        { Tables.empty with errorPos := 2, errorCode := .unexpectedType }⟩ := rfl
  have h₃ : decode .simple .bool ⟨⟨[0x54, 0x4e, 0x54], 2, by decide⟩,
      { Tables.empty with errorPos := 2, errorCode := .unexpectedType }⟩ =
      .ok true ⟨⟨[0x54, 0x4e, 0x54], 3, by decide⟩,
        { Tables.empty with errorPos := 2, errorCode := .unexpectedType }⟩ := rfl
  exact ⟨_, runs_message .simple 0 [0x54, 0x4e, 0x54] _ _
    (.returned h₁ (.failed h₂ (.returned h₃ (.nil _))))⟩

end Hessian2
