import Hessian2.Growth

/-!
# What a refused string does to the result

`encode<absl::string_view>` returns false for a string it refuses.  What becomes of that result is
followed through everything that encodes a string.

* `partNames` : the strings that are sent for one object, without what it owns.
* `Sendable` : none of the strings sent for an object and what it owns is refused.
* `encodeObject_refused_iff` : a string is refused on the way exactly if the object is not sendable.
* `reports_refusal_iff` : the exact condition under which a call reports every refusal.
-/

namespace Hessian2

open Parsing Enc

variable {α β : Type} {P : Platform}

/-! ### Numbers in a growing table -/

namespace Encoder

variable {e e₁ : Encoder}

/-- The definition has a number. -/
def numbersDef (e : Encoder) (d : RawDefinition) : Bool :=
  match e.getDefRef d with
  | .ok r => r != -1
  | .error _ => false

theorem getDefRef_of_prefix (h : e.defRef <+: e₁.defRef) {d : RawDefinition} {i : ℕ}
    (hi : (e.defRef.take (2 ^ 16)).idxOf? d = some i) : e₁.getDefRef d = e.getDefRef d := by
  obtain ⟨r, hr⟩ := h.take (2 ^ 16)
  have hi₁ : (e₁.defRef.take (2 ^ 16)).idxOf? d = some i := by
    rw [← hr, List.idxOf?, List.findIdx?_append, ← List.idxOf?, hi, Option.some_or]
  rw [getDefRef, getDefRef, hi, hi₁]

/-- A definition keeps its number, and one that is in the table never gets one later. -/
theorem numbersDef_of_prefix (h : e.defRef <+: e₁.defRef) (d : RawDefinition) :
    (e.numbersDef d = true → e₁.numbersDef d = true) ∧
      (d ∈ e.defRef → e₁.numbersDef d = true → e.numbersDef d = true) := by
  cases hi : (e.defRef.take (2 ^ 16)).idxOf? d with
  | some i =>
    have heq : e₁.numbersDef d = e.numbersDef d := by
      rw [numbersDef, numbersDef, getDefRef_of_prefix h hi]
    exact ⟨fun hd => heq ▸ hd, fun _ hd => heq ▸ hd⟩
  | none =>
    have hnone : e.numbersDef d = false := by
      rw [numbersDef, getDefRef, hi]
      dsimp only
      split_ifs <;> rfl
    refine ⟨fun hd => absurd hd (by simp [hnone]), fun hmem hd => ?_⟩
    -- the table is so long that the loop never sees what comes behind it
    have hlong : 2 ^ 16 < e.defRef.length := by
      by_contra hle
      rw [List.take_of_length_le (by omega), List.idxOf?_eq_none_iff] at hi
      exact hi hmem
    have htake : e₁.defRef.take (2 ^ 16) = e.defRef.take (2 ^ 16) := by
      obtain ⟨r, hr⟩ := h
      rw [← hr, List.take_append_of_le_length hlong.le]
    rw [numbersDef, getDefRef, htake, hi] at hd
    dsimp only at hd
    split_ifs at hd
    cases hd

/-- A type keeps its number, and one that is in the table never gets one later. -/
theorem getTypeRef_of_prefix (h : e.typesRef.keys <+: e₁.typesRef.keys) {t : Bytes}
    (ht : t ∈ e.typesRef.keys) : e₁.getTypeRef t = e.getTypeRef t := by
  cases hi : e.typesRef.number? t with
  | none => exact absurd ht (KeyTable.number?_eq_none.1 hi)
  | some i => rw [getTypeRef, getTypeRef, hi, KeyTable.number?_of_prefix h hi]

theorem mem_of_numbersDef {d : RawDefinition} (h : e.numbersDef d = true) : d ∈ e.defRef := by
  cases hi : (e.defRef.take (2 ^ 16)).idxOf? d with
  | some i =>
    obtain ⟨hlt, hd, -⟩ := List.findIdx?_eq_some_iff_getElem.1 hi
    rw [List.getElem_take] at hd
    exact eq_of_beq hd ▸ List.getElem_mem _
  | none =>
    rw [numbersDef, getDefRef, hi] at h
    dsimp only at h
    split_ifs at h
    cases h

end Encoder

/-! ### The strings of an object -/

/-- The strings that are sent for an object, without what it owns: the name of a type and the names
of a definition only where they have no number yet. -/
def partNames (e : Encoder) : Object → List Bytes
  | .string s => [s]
  | .list _ (some t) _ | .map _ (some t) _ => if e.getTypeRef t = -1 then [t] else []
  | .classInstance _ d _ => if e.numbersDef d then [] else d.type :: d.fieldNames
  | _ => []

/-- None of the strings of an object is refused. -/
def PartAccepted (P : Platform) (e : Encoder) (x : Object) : Prop :=
  ∀ s ∈ partNames e x, accepts P s = true

/-- None of the strings of an object and of what it owns is refused. -/
def Sendable (P : Platform) (e : Encoder) (o : Object) : Prop := ∀ x ∈ o.walk, PartAccepted P e x

instance (P : Platform) (e : Encoder) (x : Object) : Decidable (PartAccepted P e x) :=
  inferInstanceAs (Decidable (∀ s ∈ partNames e x, accepts P s = true))

instance (P : Platform) (e : Encoder) (o : Object) : Decidable (Sendable P e o) :=
  inferInstanceAs (Decidable (∀ x ∈ o.walk, PartAccepted P e x))

/-- While nothing is refused, what can be sent does not change. -/
theorem Encoder.Grows.partAccepted {e e₁ : Encoder} (h : e.Grows P e₁)
    (hr : e₁.refused = e.refused) (x : Object) : PartAccepted P e₁ x ↔ PartAccepted P e x := by
  -- a name that has been entered since then was accepted when it was sent
  have htype (t : Bytes) : (∀ s ∈ (if e₁.getTypeRef t = -1 then [t] else []), accepts P s = true) ↔
      ∀ s ∈ (if e.getTypeRef t = -1 then [t] else []), accepts P s = true := by
    by_cases ht : t ∈ e.typesRef.keys
    · rw [Encoder.getTypeRef_of_prefix h.typesRef ht]
    · have hnone : e.getTypeRef t = -1 := by
        by_contra hne
        exact ht (Encoder.mem_of_getTypeRef hne)
      by_cases ht₁ : e₁.getTypeRef t = -1
      · rw [if_pos ht₁, if_pos hnone]
      · rw [if_neg ht₁, if_pos hnone]
        simpa using h.newType hr t (Encoder.mem_of_getTypeRef ht₁) ht
  -- and so were the names in a definition
  have hdef (d : RawDefinition) :
      (∀ s ∈ (if e₁.numbersDef d then [] else d.type :: d.fieldNames), accepts P s = true) ↔
        ∀ s ∈ (if e.numbersDef d then [] else d.type :: d.fieldNames), accepts P s = true := by
    obtain ⟨hkeep, hold⟩ := Encoder.numbersDef_of_prefix h.defRef d
    by_cases hd : e.numbersDef d = true
    · rw [if_pos hd, if_pos (hkeep hd)]
    by_cases hd₁ : e₁.numbersDef d = true
    · rw [if_pos hd₁, if_neg hd]
      refine ⟨fun _ => ?_, fun _ s hs => by cases hs⟩
      exact h.newDef hr d (Encoder.mem_of_numbersDef hd₁) fun hmem => hd (hold hmem hd₁)
    · rw [if_neg hd, if_neg hd₁]
  rcases x with _ | b | i | i | d | d | s | b | i | ⟨i, _ | t, vs⟩ | ⟨i, _ | t, es⟩ | ⟨i, d, vs⟩
  case list.some => exact htype t
  case map.some => exact htype t
  case classInstance => exact hdef d
  all_goals exact Iff.rfl

/-! ### Sending -/

namespace Enc

/-- The function lets the encoder grow, and strings are refused unless those of all the given
objects are accepted. -/
structure Sends (P : Platform) (m : Enc α) (xs : List Object) : Prop where
  grows : Keeps (Encoder.Grows P) m
  refused_iff : ∀ ⦃e a e'⦄, m e = .ok (a, e') →
    (e'.refused = e.refused ↔ ∀ x ∈ xs, PartAccepted P e x)

theorem Sends.of_refused {m : Enc α} (hg : Keeps (Encoder.Grows P) m)
    (hr : ∀ ⦃e a e'⦄, m e = .ok (a, e') → e'.refused = e.refused) : Sends P m [] where
  grows := hg
  refused_iff e a e' h := by simp [hr h]

theorem Sends.bind {m : Enc α} {f : α → Enc β} {xs ys : List Object} (hm : Sends P m xs)
    (hf : ∀ a, Sends P (f a) ys) : Sends P (m >>= f) (xs ++ ys) where
  grows := Encoder.grows_closed.bind hm.grows fun a => (hf a).grows
  refused_iff e b e' h := by
    obtain ⟨a, e₁, h₁, h₂⟩ := Enc.bind_eq_ok.1 h
    have hgrows := hm.grows h₁
    rw [hgrows.refused_eq ((hf a).grows h₂), hm.refused_iff h₁, (hf a).refused_iff h₂,
      List.forall_mem_append]
    refine and_congr_right fun hxs => forall₂_congr fun y _ => ?_
    exact hgrows.partAccepted ((hm.refused_iff h₁).2 hxs) y

/-- Objects without strings of their own do not count. -/
theorem Sends.silent {m : Enc α} {x : Object} (h : Sends P m []) (hx : ∀ e, partNames e x = []) :
    Sends P m [x] where
  grows := h.grows
  refused_iff e a e' hm := by simp [h.refused_iff hm, PartAccepted, hx]

theorem Sends.of_eq {m : Enc α} {xs ys : List Object} (h : Sends P m xs) (hx : xs = ys) :
    Sends P m ys := hx ▸ h

theorem Sends.pure (a : α) : Sends P (pure a : Enc α) [] :=
  .of_refused (Encoder.grows_closed.pure a) fun e b e' h => by cases h; rfl

theorem Sends.rawWrite (bs : Bytes) : Sends P (rawWrite bs) [] :=
  .of_refused (Encoder.grows_closed.rawWrite bs) fun e b e' h => by cases h; rfl

theorem Sends.writes {m : Enc Bool} (hm : Writes m) : Sends P m [] := by
  refine .of_refused (Encoder.grows_closed.writes hm) fun e b e' h => ?_
  obtain ⟨bs, hbs⟩ := hm
  rw [hbs] at h
  cases h
  rfl

end Enc

theorem encodeString_sends (data : Bytes) : Sends P (encodeString P data) [.string data] where
  grows := Encoder.grows_closed.string data
  refused_iff e b e' h := by
    obtain ⟨bs, hbs⟩ := encodeString_extends P data
    rw [hbs] at h
    cases h
    simp [PartAccepted, partNames, refusals_eq_nil]

/-- A type is sent as part of the list or map `x` that has it. -/
theorem encodeTypeRef_sends {t : Bytes} {x : Object}
    (hx : ∀ e, partNames e x = if e.getTypeRef t = -1 then [t] else []) :
    Sends P (encodeTypeRef P t) [x] where
  grows := Encoder.grows_closed.typeRef t
  refused_iff e b e' h := by
    simp only [List.forall_mem_singleton, PartAccepted, hx]
    obtain ⟨hr, bs, rfl⟩ | ⟨hr, bs, rfl⟩ := encodeTypeRef_extends h
    · simp [if_neg hr]
    · simp [if_pos hr, refusals_eq_nil]

theorem encodeRawDefinition_sends (i : ObjId) (d : RawDefinition) (vs : List Object) :
    Sends P (encodeRawDefinition P d) [.classInstance i d vs] where
  grows := Encoder.grows_closed.definition d
  refused_iff e b e' h := by
    simp only [List.forall_mem_singleton, PartAccepted, partNames]
    obtain ⟨r, bs, hd, hr, rfl⟩ | ⟨hd, bs, rfl⟩ := encodeRawDefinition_extends h
    · have hnum : e.numbersDef d = true := by simp [Encoder.numbersDef, hd, hr]
      simp [if_pos hnum]
    · have hnum : ¬e.numbersDef d = true := by simp [Encoder.numbersDef, hd]
      rw [if_neg hnum, Encoder.extend_refused, Encoder.enterDef_refused,
        List.append_right_eq_self, refusals_eq_nil]

theorem encodeRef_sends (target : ObjId) : Sends P (encodeRef P target) [] := by
  refine .of_refused (encodeRef_keeps Encoder.grows_closed target) ?_
  have hkeep : Keeps (fun e e' : Encoder => e'.refused = e.refused) (encodeRef P target) := by
    intro e b e' h
    rw [encodeRef, get_bind] at h
    obtain ⟨⟨⟩, e₁, h₁, h⟩ := Enc.bind_eq_ok.1 h
    have h₁ : e₁ = e := by
      unfold Enc.abslAssert at h₁
      split at h₁ <;> cases h₁
      rfl
    obtain ⟨bs, hbs⟩ := encodeInt32_writes (e.getValueRef target).toInt32
    rw [modify_bind, writeByte_bind, Enc.bind_apply_ok (hbs _)] at h
    cases h
    subst h₁
    simp only [Encoder.write_refused]
    split <;> rfl
  exact hkeep

theorem encodeLength_sends (n : ℕ) : Sends P (encodeLength n) [] := by
  unfold encodeLength
  split
  · exact (Sends.writes (encodeInt32_writes _)).bind fun _ => .pure ()
  · exact .pure ()

theorem enterValue_sends (i : ObjId) : Sends P (enterValue i) [] :=
  .of_refused (.modify fun e => Encoder.grows_closed.value e i) fun e b e' h => by cases h; rfl

theorem encodeValues_sends {vs : List Object} (hvs : ∀ v ∈ vs, Sends P (encodeObject P v) v.walk) :
    Sends P (encodeValues P vs) (vs.flatMap Object.walk) := by
  induction vs with
  | nil => exact .pure ()
  | cons v vs ih =>
    rw [List.forall_mem_cons] at hvs
    exact hvs.1.bind fun _ => ih hvs.2

theorem encodeEntries_sends {es : List (Object × Object)}
    (hes : ∀ e ∈ es, Sends P (encodeObject P e.1) e.1.walk ∧ Sends P (encodeObject P e.2) e.2.walk) :
    Sends P (encodeEntries P es) (es.flatMap fun e => e.1.walk ++ e.2.walk) := by
  induction es with
  | nil => exact .pure ()
  | cons e es ih =>
    rw [List.forall_mem_cons] at hes
    rw [List.flatMap_cons, List.append_assoc]
    exact hes.1.1.bind fun _ => hes.1.2.bind fun _ => ih hes.2

theorem encodeObject_sends (o : Object) : Sends P (encodeObject P o) o.walk := by
  induction o using Object.induct with
  | null => exact (Sends.writes (null_carries (P := P)).writes).silent fun _ => rfl
  | boolean b => exact (Sends.writes (bool_carries (P := P) b).writes).silent fun _ => rfl
  | integer i => exact (Sends.writes (encodeInt32_writes i)).silent fun _ => rfl
  | long i => exact (Sends.writes (int64_carries (P := P) i).writes).silent fun _ => rfl
  | double d => exact (Sends.writes (double_carries (P := P) d).writes).silent fun _ => rfl
  | date t => exact (Sends.writes (date_carries (P := P) t).writes).silent fun _ => rfl
  | string s => exact encodeString_sends s
  | binary b => exact (Sends.writes (encodeBytes_writes b)).silent fun _ => rfl
  | ref i => exact (encodeRef_sends i).silent fun _ => rfl
  | list i t vs ih =>
    have hvs := encodeValues_sends ih
    rw [Object.walk_list]
    cases t with
    | none =>
      refine .of_eq (((enterValue_sends i).silent (x := .list i none vs) fun _ => rfl).bind fun _ =>
        (Sends.rawWrite _).bind fun _ => (encodeLength_sends vs.length).bind fun _ =>
          hvs.bind fun _ => .pure true) ?_
      simp
    | some t =>
      refine .of_eq ((enterValue_sends i).bind fun _ => (Sends.rawWrite _).bind fun _ =>
        (encodeTypeRef_sends (t := t) (x := .list i (some t) vs) fun _ => rfl).bind fun _ =>
          (encodeLength_sends vs.length).bind fun _ => hvs.bind fun _ => .pure true) ?_
      simp
  | map i t es ih =>
    have hes := encodeEntries_sends ih
    rw [Object.walk_map]
    cases t with
    | none =>
      refine .of_eq (((enterValue_sends i).silent (x := .map i none es) fun _ => rfl).bind fun _ =>
        (Sends.rawWrite _).bind fun _ => hes.bind fun _ => (Sends.rawWrite _).bind fun _ =>
          .pure true) ?_
      simp
    | some t =>
      refine .of_eq ((enterValue_sends i).bind fun _ => (Sends.rawWrite _).bind fun _ =>
        (encodeTypeRef_sends (t := t) (x := .map i (some t) es) fun _ => rfl).bind fun _ =>
          hes.bind fun _ => (Sends.rawWrite _).bind fun _ => .pure true) ?_
      simp
  | classInstance i d vs ih =>
    have hvs := encodeValues_sends ih
    rw [Object.walk_classInstance]
    refine .of_eq ((enterValue_sends i).bind fun _ => (encodeRawDefinition_sends i d vs).bind
      fun _ => hvs.bind fun _ => .pure true) ?_
    simp

/-- **A string is refused on the way exactly if the object is not sendable.** -/
theorem encodeObject_refused_iff {o : Object} {e e' : Encoder} {b : Bool}
    (h : encodeObject P o e = .ok (b, e')) : e'.refused = e.refused ↔ Sendable P e o :=
  (encodeObject_sends o).refused_iff h

/-! ### What the result says -/

/-- The result of the last call is the result. -/
theorem Enc.bind_returns {m : Enc α} {f : α → Enc Bool}
    (hf : ∀ {a e b e'}, f a e = .ok (b, e') → b = true) {e e' : Encoder} {b : Bool}
    (h : (m >>= f) e = .ok (b, e')) : b = true := by
  obtain ⟨a, e₁, -, h⟩ := Enc.bind_eq_ok.1 h
  exact hf h

/-- The call for a container returns true, whatever its parts return. -/
theorem encodeObject_container {o : Object} (ho : o.self? ≠ none) {e e' : Encoder} {b : Bool}
    (h : encodeObject P o e = .ok (b, e')) : b = true := by
  have last {e e' : Encoder} {b : Bool} (h : (pure true : Enc Bool) e = .ok (b, e')) : b = true := by
    cases h
    rfl
  rcases o with _ | c | i | i | d | d | s | c | i | ⟨i, _ | t, vs⟩ | ⟨i, _ | t, es⟩ | ⟨i, d, vs⟩
  case list.none => exact bind_returns (bind_returns (bind_returns (bind_returns last))) h
  case list.some =>
    exact bind_returns (bind_returns (bind_returns (bind_returns (bind_returns last)))) h
  case map.none => exact bind_returns (bind_returns (bind_returns (bind_returns last))) h
  case map.some =>
    exact bind_returns (bind_returns (bind_returns (bind_returns (bind_returns last)))) h
  case classInstance => exact bind_returns (bind_returns (bind_returns last)) h
  all_goals exact absurd rfl ho

/-- The call for an object that owns nothing reports the refusal of its string. -/
theorem encodeObject_leaf {o : Object} (ho : o.self? = none) {e e' : Encoder} {b : Bool}
    (h : encodeObject P o e = .ok (b, e')) (hr : e'.refused ≠ e.refused) : b = false := by
  have hnot : ¬Sendable P e o := fun hs => hr ((encodeObject_refused_iff h).2 hs)
  cases o with
  | string s =>
    obtain ⟨bs, hbs⟩ := encodeString_extends P s
    rw [encodeObject, hbs] at h
    cases h
    simpa [Sendable, Object.walk, PartAccepted, partNames] using hnot
  | list i t vs => cases ho
  | map i t es => cases ho
  | classInstance i d vs => cases ho
  | _ => exact absurd (by simp [Sendable, Object.walk, PartAccepted, partNames]) hnot

/-- A call that returns true reports the refusals if there are none. -/
theorem reports_iff_of_true {b : Bool} (hb : b = true) {refused ok : Prop} (h : ¬refused ↔ ok) :
    (refused → b = false) ↔ ok := by
  subst hb
  rw [← h]
  exact ⟨fun hf hr => Bool.noConfusion (hf hr), fun hn hr => absurd hr hn⟩

/-- **When a refusal is reported.**  A call whose result is that of `encode<absl::string_view>`
reports it; every other call returns true, so that there must be nothing to report. -/
theorem reports_refusal_iff (P : Platform) :
    (∀ o e b e', encodeObject P o e = .ok (b, e') →
      ((e'.refused ≠ e.refused → b = false) ↔ o.self? = none ∨ Sendable P e o)) ∧
    (∀ t e b e', encodeTypeRef P t e = .ok (b, e') →
      ((e'.refused ≠ e.refused → b = false) ↔ e.getTypeRef t ≠ -1 ∨ accepts P t = true)) ∧
    ∀ d e b e', encodeRawDefinition P d e = .ok (b, e') →
      ((e'.refused ≠ e.refused → b = false) ↔
        e.numbersDef d = true ∨ ∀ s ∈ d.type :: d.fieldNames, accepts P s = true) := by
  refine ⟨fun o e b e' h => ?_, fun t e b e' h => ?_, fun d e b e' h => ?_⟩
  · by_cases ho : o.self? = none
    · exact ⟨fun _ => .inl ho, fun _ hr => encodeObject_leaf ho h hr⟩
    · refine reports_iff_of_true (encodeObject_container ho h) ?_
      rw [not_not, encodeObject_refused_iff h, or_iff_right ho]
  · refine reports_iff_of_true (encodeTypeRef_ok h).1 ?_
    have hsends := (encodeTypeRef_sends (x := .list 0 (some t) []) fun _ => rfl).refused_iff h
    rw [not_not, hsends, List.forall_mem_singleton, PartAccepted, partNames]
    split_ifs with hr
    · simp [hr]
    · simp [hr]
  · refine reports_iff_of_true (encodeRawDefinition_ok h).1 ?_
    rw [not_not, (encodeRawDefinition_sends 0 d []).refused_iff h, List.forall_mem_singleton,
      PartAccepted, partNames]
    split_ifs with hd
    · simp [hd]
    · simp [hd]

/-- A list with a string that is not UTF-8: the string is refused, and the call returns true behind
a list header with nothing after it. -/
theorem refusal_unreported : ∃ e' : Encoder,
    encodeObject .simple (.untypedList 0 [.string [0x80]]) .empty = .ok (true, e') ∧
      e'.refused ≠ Encoder.empty.refused ∧ e'.output = [0x79] :=
  ⟨_, rfl, by decide, rfl⟩

end Hessian2
