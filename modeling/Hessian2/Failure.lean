import Hessian2.Evolution

/-!
# What a failed call leaves in the value table

A container is registered in `values_ref_` before its first byte is read, and nothing takes it out
again.

* `Tables.Extends` : entries are only ever appended to `values_ref_`.
* `decodeAs` : `decode<Object>` and the functions for one kind of container.
* `StartsContainer` : the input begins with a container, behind definitions that are read for it.
* `failed_decode_restores_iff` : **a failed call leaves `values_ref_` as it was exactly if it did
  not start a container.**
-/

namespace Hessian2

open Parsing Parsing.Parser Reader

variable {α : Type} {P : Platform}

/-! ### The table only grows -/

/-- The entries of `values_ref_` stay where they are. -/
def Tables.Extends (t t' : Tables) : Prop := t.valuesRef <+: t'.valuesRef

instance : IsPreorder Tables Tables.Extends where
  refl _ := List.prefix_rfl
  trans _ _ _ := List.IsPrefix.trans

/-- Nothing happens to `values_ref_`. -/
theorem extends_of_eq {t t' : Tables} (h : t'.valuesRef = t.valuesRef) : t.Extends t' := by
  rw [Tables.Extends, h]

theorem Tables.Extends.admits : Tables.Admits Tables.Extends where
  types _ _ := extends_of_eq rfl
  defs _ _ := extends_of_eq rfl
  started _ _ := List.prefix_append _ _
  heap _ _ := extends_of_eq rfl
  binaryHash _ _ := extends_of_eq rfl
  events _ _ := extends_of_eq rfl

theorem decodeObject_extends : Evolves Tables.Extends (decodeObject P) :=
  decodeObject_evolves Tables.Extends.admits

/-! ### Containers stay in it -/

/-- A container that fails has been registered. -/
theorem container_failed {kind : ContainerKind} {body : ObjId → Dec Object}
    (h : ∀ result, Evolves Tables.Extends (body result)) {s s' : State UInt8 Tables}
    (hf : Dec.container kind body s = .fail s') :
    s.aux.valuesRef.length < s'.aux.valuesRef.length := by
  have hbody (result : ObjId) :
      Evolves Tables.Extends (body result >>= fun contents => Dec.finish result contents) :=
    (h result).bind fun contents => Evolves.bind (.modifyAux fun t => extends_of_eq rfl) fun _ => .pure _
  rw [Dec.container, Dec.owning, onFail] at hf
  split at hf
  · next s₁ hs =>
    cases hf
    -- the entry of the container stays, whatever its body does
    have hle := ((hbody s.aux.heap.length).fail hs).length_le
    rw [List.length_append] at hle
    exact hle
  · next hs => exact absurd hf (hs s')

/-- The types that `decode` is called with for objects. -/
inductive ObjectType where
  | object
  | typedList
  | untypedList
  | typedMap
  | untypedMap
  | classInstance

/-- `decode<Object>`, `decode<TypedListObject>` and so on. -/
def decodeAs (P : Platform) : ObjectType → Dec Object
  | .object => decodeObject P
  | .typedList => decodeTypedList P (decodeObject P)
  | .untypedList => decodeUntypedList P (decodeObject P)
  | .typedMap => decodeTypedMap P (decodeObject P)
  | .untypedMap => decodeUntypedMap P (decodeObject P)
  | .classInstance => decodeClassInstance P (decodeObject P)

/-- The lead bytes of containers. -/
def Lead.isContainer : Lead → Bool
  | .typedList | .untypedList | .typedMap | .untypedMap | .classInstance => true
  | _ => false

/-- The input begins with a container, or with definitions that are read and a container behind
them. -/
inductive StartsContainer (P : Platform) : State UInt8 Tables → Prop where
  | container {s : State UInt8 Tables} {code : UInt8} {bs : Bytes}
    (hu : s.cursor.unread = code :: bs) (hc : (leadOf code).isContainer) : StartsContainer P s
  | definition {s s' : State UInt8 Tables} {bs : Bytes} {definition : RawDefinition}
    (hu : s.cursor.unread = 0x43 :: bs) (hd : decodeDefinition P s = .ok definition s')
    (h : StartsContainer P s') : StartsContainer P s

/-- A call starts a container: `decode<Object>` on such an input, the others on any. -/
def Starts (P : Platform) : ObjectType → State UInt8 Tables → Prop
  | .object, s => StartsContainer P s
  | _, _ => True

/-- A container that was started is still registered when the call fails. -/
theorem StartsContainer.registered {s s' : State UInt8 Tables} (h : StartsContainer P s)
    (hf : decodeObject P s = .fail s') : s.aux.valuesRef.length < s'.aux.valuesRef.length := by
  induction h with
  | @container s code bs hu hc =>
    rw [decodeObject_eq, ahead_of_cons hu, decodeObjectForm] at hf
    cases hl : leadOf code with
    | typedList =>
      rw [hl] at hf
      exact container_failed (typedListForm_evolves decodeObject_extends Tables.Extends.admits) hf
    | untypedList =>
      rw [hl] at hf
      exact container_failed (untypedListForm_evolves decodeObject_extends) hf
    | typedMap =>
      rw [hl] at hf
      exact container_failed (typedMapForm_evolves decodeObject_extends Tables.Extends.admits) hf
    | untypedMap =>
      rw [hl] at hf
      exact container_failed (untypedMapForm_evolves decodeObject_extends Tables.Extends.admits) hf
    | classInstance =>
      rw [hl] at hf
      exact container_failed (classInstanceForm_evolves decodeObject_extends Tables.Extends.admits) hf
    | _ =>
      rw [hl] at hc
      cases hc
  | @definition s s₁ bs d hu hd h ih =>
    have hform : decodeObject P s = (decodeDefinition P >>= fun _ => decodeObject P) s := by
      rw [decodeObject_eq, ahead_of_cons hu, ← decodeObject_eq]
      rfl
    rw [hform, bind_apply, hd] at hf
    have hle := ((decodeDefinition_evolves fun _ _ => extends_of_eq rfl).ok hd).length_le
    exact hle.trans_lt (ih hf)

/-- The entries of `values_ref_` are the same. -/
def Tables.SameValues (t t' : Tables) : Prop := t'.valuesRef = t.valuesRef

instance : IsPreorder Tables Tables.SameValues where
  refl _ := rfl
  trans _ _ _ h h' := h'.trans h

/-- Without a container, nothing is registered. -/
theorem values_of_not_starts {n : ℕ} : ∀ {s s' : State UInt8 Tables}, s.cursor.unread.length < n →
    ¬ StartsContainer P s → decodeObject P s = .fail s' → s'.aux.valuesRef = s.aux.valuesRef := by
  induction n with
  | zero => exact fun h => absurd h (Nat.not_lt_zero _)
  | succ n ih =>
    intro s s' hn hs hf
    rcases hu : s.cursor.unread with _ | ⟨code, bs⟩
    · rw [decodeObject_eq, ahead_of_nil hu] at hf
      cases hf
      rfl
    rw [decodeObject_eq, ahead_of_cons hu, decodeObjectForm] at hf
    have leaf {α : Type} {m : Dec α} {f : α → Object} (hm : Evolves Tables.SameValues m)
        (hf : (m >>= fun a => pure (f a)) s = .fail s') : s'.aux.valuesRef = s.aux.valuesRef :=
      (hm.bind fun a => .pure (f a)).fail hf
    have hnot : ¬ (leadOf code).isContainer := fun hc => hs (.container hu hc)
    cases hl : leadOf code <;> rw [hl] at hf hnot
    case null => exact leaf .next hf
    case bool => exact leaf (decodeBool_evolves fun _ _ _ => rfl) hf
    case date => exact leaf (readDate_evolves _) hf
    case double => exact leaf decodeDouble_evolves hf
    case string => exact leaf decodeString_evolves hf
    case binary => exact leaf decodeBytes_evolves hf
    case long => exact leaf decodeInt64_evolves hf
    case int => exact leaf decodeInt32_evolves hf
    case unknown =>
      cases hf
      rfl
    case ref =>
      refine Evolves.fail (R := Tables.SameValues) (m := refForm P) ?_ hf
      exact Evolves.next.bind fun _ => decodeInt32_evolves.bind fun _ =>
        (lookup_evolves _).bind fun _ => Evolves.bind (.modifyAux fun _ => rfl) fun _ => .pure _
    case definition =>
      -- the definition fails, or `decode<Object>` goes on behind it
      have hdefinition := decodeDefinition_evolves (P := P) (R := Tables.SameValues) fun _ _ => rfl
      obtain rfl := leadOf_definition code hl
      dsimp only at hf
      rw [bind_apply] at hf
      cases hd : decodeDefinition P s with
      | ok d s₁ =>
        rw [hd] at hf
        have hlt := (decodeDefinition_tame (E := fun _ => True) trivial False 0).length_lt hd
        have hrest : ¬ StartsContainer P s₁ := fun h => hs (.definition hu hd h)
        exact (ih (by omega) hrest hf).trans (hdefinition.ok hd)
      | fail s₁ =>
        rw [hd] at hf
        cases hf
        exact hdefinition.fail hd
      | fault e s₁ =>
        rw [hd] at hf
        cases hf
      | exhausted =>
        rw [hd] at hf
        cases hf
    all_goals exact absurd rfl hnot

/-- **A failed call leaves `values_ref_` as it was exactly if it did not start a container.** -/
theorem failed_decode_restores_iff (P : Platform) (T : ObjectType) (s s' : State UInt8 Tables)
    (h : decodeAs P T s = .fail s') :
    s'.aux.valuesRef = s.aux.valuesRef ↔ ¬ Starts P T s := by
  have registered (hlt : s.aux.valuesRef.length < s'.aux.valuesRef.length) :
      s'.aux.valuesRef = s.aux.valuesRef ↔ ¬ True := by
    refine ⟨fun heq => ?_, fun hno => absurd trivial hno⟩
    rw [heq] at hlt
    exact absurd hlt (Nat.lt_irrefl _)
  cases T with
  | object =>
    refine ⟨fun heq hs => ?_, fun hs => values_of_not_starts (Nat.lt_succ_self _) hs h⟩
    have hlt := hs.registered h
    rw [heq] at hlt
    exact absurd hlt (Nat.lt_irrefl _)
  | typedList =>
    rw [decodeAs, decodeTypedList_eq] at h
    exact registered (container_failed (typedListForm_evolves decodeObject_extends Tables.Extends.admits) h)
  | untypedList =>
    rw [decodeAs, decodeUntypedList_eq] at h
    exact registered (container_failed (untypedListForm_evolves decodeObject_extends) h)
  | typedMap =>
    refine registered (container_failed (fun result => asserted_evolves 0x4d ?_) h)
    exact (decodeTypeRef_evolves Tables.Extends.admits.types).bind fun _ =>
      (readEntries_evolves decodeObject_extends Tables.Extends.admits _).bind fun _ => .pure _
  | untypedMap =>
    refine registered (container_failed (fun result => asserted_evolves 0x48 ?_) h)
    exact (readEntries_evolves decodeObject_extends Tables.Extends.admits _).bind fun _ => .pure _
  | classInstance =>
    rw [decodeAs, decodeClassInstance_eq] at h
    exact registered (container_failed (classInstanceForm_evolves decodeObject_extends Tables.Extends.admits) h)

/-- A definition that is cut off. -/
theorem failed_decode_restores_definition : ∃ s',
    decodeAs .simple .object ⟨.ofList [0x43, 0x01], .empty⟩ = .fail s' ∧
      (s'.aux.valuesRef = Tables.empty.valuesRef ↔
        ¬ Starts .simple .object ⟨.ofList [0x43, 0x01], .empty⟩) := by
  have hrun : (decodeAs .simple .object ⟨.ofList [0x43, 0x01], .empty⟩).refused (fun _ => true) =
      true := by decide +kernel
  obtain ⟨s', h, -⟩ := Outcome.exists_of_refused hrun
  exact ⟨s', h, failed_decode_restores_iff .simple .object _ s' h⟩

/-- A list that is cut off behind its lead byte. -/
theorem failed_list_registered : ∃ s',
    decodeAs .simple .object ⟨.ofList [0x57], .empty⟩ = .fail s' ∧
      s'.aux.valuesRef ≠ Tables.empty.valuesRef := by
  have hrun : (decodeAs .simple .object ⟨.ofList [0x57], .empty⟩).refused
      (fun s => s.aux.valuesRef != []) = true := by decide +kernel
  obtain ⟨s', h, hvalues⟩ := Outcome.exists_of_refused hrun
  exact ⟨s', h, bne_iff_ne.1 hvalues⟩

end Hessian2
