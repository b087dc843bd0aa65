import Hessian2.Descent
import Hessian2.KeyHash

/-!
# Looking at decoded values

`Object::toDebugString`, which follows references, and `Object::hash`, which follows them once.

* `Formats` : how `absl::StrFormat` writes floating-point numbers and addresses.
* `Object.debugText` : one call of `toDebugString`, given what it returns for the targets of
  references.
* `Object.toDebugString` : `toDebugString` where at most so many references may be followed one
  after the other; it terminates if some number is enough.
* `Refers` : a container has a reference to another one in it.
* `inspectable_iff` : **decoded values can be looked at exactly if no reference leads back to itself
  or to a container that has been destroyed.**
-/

namespace Hessian2

open Relation Parsing

/-- How `absl::StrFormat` writes a `%f` and a `%p`. -/
structure Formats where
  double : UInt64 → Bytes
  pointer : ObjId → Bytes

/-- The bytes of a string literal. -/
def ascii (text : String) : Bytes := text.toList.map fun c => .ofNat c.toNat

/-- `%d`. -/
def decimal (n : ℤ) : Bytes := ascii (toString n)

/-- `RawDefinition::toDebugString`. -/
def RawDefinition.toDebugString (d : RawDefinition) : Bytes :=
  ascii "type: " ++ d.type ++ ascii " , field_list: " ++ d.fieldNames.flatMap (· ++ ascii " ")

namespace Object

mutual

/-- `Object::toDebugString`, given what it returns for the targets of references. -/
def debugText (F : Formats) (deref : ObjId → Option Bytes) : Object → Option Bytes
  | .null => some (ascii "Type: Null")
  | .ref i => (deref i).map fun text =>
      ascii "Type: Ref, target address: " ++ F.pointer i ++ ascii ", value[" ++ text ++ ascii "]"
  | .boolean b => some (ascii "Type: boolean, value[" ++ ascii (if b then "true" else "false") ++
      ascii "]")
  | .integer i => some (ascii "Type: integer, value[" ++ decimal i.toInt ++ ascii "]")
  | .double bits => some (ascii "Type: double, value[" ++ F.double bits ++ ascii "]")
  | .date t => some (ascii "Type: double, value[" ++ decimal t.toInt ++ ascii " ms]")
  | .long i => some (ascii "Type: long, value[" ++ decimal i.toInt ++ ascii "]")
  -- At most 16 bytes are written, each as a character.
  | .binary b => some (ascii "Type: binary, size[" ++ decimal b.length ++ ascii "], value[" ++
      (b.take 16).flatMap (fun byte => byte :: ascii " ") ++ ascii "]")
  | .string s => some (ascii "Type: string, value[" ++ s ++ ascii "]")
  | .list _ t vs => (debugValues F deref (ascii "\n") vs).map fun text =>
      match t with
      | none => ascii "Type: untypedlist, value[" ++ text ++ ascii "]"
      | some t => ascii "Type: typedlist, type[" ++ t ++ ascii "], value[" ++ text ++ ascii "]"
  | .map _ t es => (debugEntries F deref es).map fun text =>
      match t with
      | none => ascii "Type: untypedmap, value[" ++ text ++ ascii "]"
      | some t => ascii "Type: typedmap, type[" ++ t ++ ascii "], value[" ++ text ++ ascii "]"
  | .classInstance _ d vs => (debugValues F deref (ascii " ") vs).map fun text =>
      ascii "Type: classinstance, def[" ++ d.toDebugString ++ ascii "], value[" ++ text ++ ascii "]"
termination_by structural o => o

/-- The texts of the values, each with the separator behind it. -/
def debugValues (F : Formats) (deref : ObjId → Option Bytes) (separator : Bytes) :
    List Object → Option Bytes
  | [] => some []
  | v :: vs => do
    let text ← debugText F deref v
    let texts ← debugValues F deref separator vs
    return text ++ separator ++ texts
termination_by structural vs => vs

/-- The texts of the entries. -/
def debugEntries (F : Formats) (deref : ObjId → Option Bytes) :
    List (Object × Object) → Option Bytes
  | [] => some []
  | (k, v) :: es => do
    let key ← debugText F deref k
    let value ← debugText F deref v
    let texts ← debugEntries F deref es
    return ascii "key: " ++ key ++ ascii " value: " ++ value ++ ascii "\n" ++ texts
termination_by structural es => es

end

/-- `Object::toDebugString` in the given memory, where no more than `depth` references may be
followed one after the other. -/
def toDebugString (F : Formats) (heap : Heap) : ℕ → Object → Option Bytes
  | 0, o => o.debugText F fun _ => none
  | depth + 1, o => o.debugText F fun i =>
    match heap[i]? with
    | some (.finished target) => toDebugString F heap depth target
    | _ => none

variable {F : Formats} {deref : ObjId → Option Bytes}

theorem debugValues_isSome {separator : Bytes} {vs : List Object} :
    (debugValues F deref separator vs).isSome ↔ ∀ v ∈ vs, (v.debugText F deref).isSome := by
  induction vs with
  | nil => exact ⟨fun _ => nofun, fun _ => rfl⟩
  | cons v vs ih =>
    rw [List.forall_mem_cons, ← ih, debugValues]
    cases v.debugText F deref <;> cases debugValues F deref separator vs <;> simp

theorem debugEntries_isSome {es : List (Object × Object)} : (debugEntries F deref es).isSome ↔
    ∀ e ∈ es, (e.1.debugText F deref).isSome ∧ (e.2.debugText F deref).isSome := by
  induction es with
  | nil => exact ⟨fun _ => nofun, fun _ => rfl⟩
  | cons e es ih =>
    rw [List.forall_mem_cons, ← ih, debugEntries]
    cases e.1.debugText F deref <;> cases e.2.debugText F deref <;>
      cases debugEntries F deref es <;> simp

/-- An object has a text if the targets of its references have. -/
theorem debugText_isSome (o : Object) :
    (o.debugText F deref).isSome ↔ ∀ r ∈ o.refs, (deref r).isSome := by
  induction o using Object.induct with
  | list i t vs ih =>
    rw [debugText, Option.isSome_map, debugValues_isSome, refs_list, List.forall_mem_flatMap]
    exact forall₂_congr ih
  | map i t es ih =>
    rw [debugText, Option.isSome_map, debugEntries_isSome, refs_map, List.forall_mem_flatMap]
    refine forall₂_congr fun e he => ?_
    rw [(ih e he).1, (ih e he).2, List.forall_mem_append]
  | classInstance i d vs ih =>
    rw [debugText, Option.isSome_map, debugValues_isSome, refs_classInstance,
      List.forall_mem_flatMap]
    exact forall₂_congr ih
  | ref i => simp [debugText, refs, walk, target?]
  | _ => simp [debugText, refs, walk, target?]

end Object

/-! ### References that lead back -/

/-- The container at the address `i` has a reference to the address `j` in it. -/
def Refers (heap : Heap) (i j : ObjId) : Prop := ∃ o, heap[i]? = some (.finished o) ∧ j ∈ o.refs

/-- There is a container with its contents at the address. -/
def Finished (heap : Heap) (i : ObjId) : Prop := ∃ o, heap[i]? = some (.finished o)

/-- `toDebugString`, `hash` and `equal` of the object return. -/
structure Inspectable (P : Platform) (F : Formats) (heap : Heap) (o : Object) : Prop where
  debugString : ∃ depth, (o.toDebugString F heap depth).isSome
  hash : ∀ static, o.hash P heap static ≠ none
  /-- `Object.equal` compares references by address.  The keys that it looks up are hashed. -/
  keys : ∀ i t es, .map i t es ∈ o.walk → ∀ e ∈ es, ∀ static, e.1.hash P heap static ≠ none

variable {P : Platform} {F : Formats}

/-- `toDebugString` returns if the paths from the references in the object end. -/
theorem Object.toDebugString_isSome {heap : Heap} {depth : ℕ} {o : Object} :
    (o.toDebugString F heap depth).isSome ↔
      ∀ r ∈ o.refs, Descent.Within (Refers heap) (Finished heap) depth r := by
  induction depth generalizing o with
  | zero =>
    rw [toDebugString, debugText_isSome]
    exact forall₂_congr fun r _ => ⟨nofun, False.elim⟩
  | succ depth ih =>
    rw [toDebugString, debugText_isSome]
    refine forall₂_congr fun r _ => ?_
    split
    · next target hcell =>
      rw [ih]
      refine ⟨fun h => ⟨⟨target, hcell⟩, fun j ⟨o, ho, hj⟩ => ?_⟩,
        fun h j hj => h.2 j ⟨target, hcell, hj⟩⟩
      obtain rfl : target = o := by simpa [hcell] using ho
      exact h j hj
    · next hcell => exact ⟨nofun, fun h => absurd h.1.choose_spec (hcell h.1.choose)⟩

/-! ### Decoded values -/

/-- What is in an object of some values is in the values. -/
theorem Object.walk_subset_flatMap {values : List Object} {o : Object}
    (ho : o ∈ values.flatMap Object.walk) : ∀ x ∈ o.walk, x ∈ values.flatMap Object.walk := by
  intro x hx
  obtain ⟨v, hv, ho⟩ := List.mem_flatMap.1 ho
  exact List.mem_flatMap.2 ⟨v, hv, v.walk_subset o ho x hx⟩

theorem Object.mem_refs {o : Object} {r : ObjId} : r ∈ o.refs ↔ .ref r ∈ o.walk := by
  rw [Object.refs, List.mem_filterMap]
  constructor
  · rintro ⟨x, hx, hxr⟩
    cases x with
    | ref i => exact Option.some.inj hxr ▸ hx
    | _ => cases hxr
  · exact fun h => ⟨.ref r, h, rfl⟩

theorem Object.mem_flatMap_refs {values : List Object} {r : ObjId} :
    r ∈ values.flatMap Object.refs ↔ .ref r ∈ values.flatMap Object.walk := by
  simp only [List.mem_flatMap, Object.mem_refs]

section Decoded

variable {s s' : State UInt8 Tables} {values : List Object}

/-- What a referenced container refers to is referred to by the values too. -/
theorem decodes_refers (hs : s.aux.Fresh) (h : Decodes P s values s') :
    ∀ r ∈ values.flatMap Object.refs, ∀ j, Refers s'.aux.heap r j →
      j ∈ values.flatMap Object.refs := by
  rintro r hr j ⟨o, ho, hj⟩
  obtain hlost | ⟨x, hx, -, hcell⟩ := decodes_target hs h r hr
  · simp [hlost] at ho
  · obtain rfl : x = o := by simpa [hcell] using ho
    exact Object.mem_flatMap_refs.2 (Object.walk_subset_flatMap hx _ (Object.mem_refs.1 hj))

theorem decodes_finished_iff (hs : s.aux.Fresh) (h : Decodes P s values s') {r : ObjId}
    (hr : r ∈ values.flatMap Object.refs) :
    Finished s'.aux.heap r ↔ s'.aux.heap[r]? ≠ some .destroyed := by
  obtain hlost | ⟨x, -, -, hcell⟩ := decodes_target hs h r hr
  · exact ⟨fun ⟨o, ho⟩ => by simp [hlost] at ho, fun hn => absurd hlost hn⟩
  · exact ⟨fun _ => by simp [hcell], fun _ => ⟨x, hcell⟩⟩

/-- Where no target has been destroyed, every object has a hash. -/
theorem decodes_hash (hs : s.aux.Fresh) (h : Decodes P s values s')
    (halive : ∀ r ∈ values.flatMap Object.refs, s'.aux.heap[r]? ≠ some .destroyed) :
    ∀ x ∈ values.flatMap Object.walk, ∀ static, x.hash P s'.aux.heap static ≠ none := by
  intro x hx static hnone
  have hsettled : x.Settled s'.aux.heap := by
    cases x with
    | ref r =>
      have hr := Object.mem_flatMap_refs.2 hx
      obtain ⟨y, -, hy, hcell⟩ := (decodes_target hs h r hr).resolve_left (halive r hr)
      exact ⟨y, hcell, hy⟩
    | _ => trivial
  refine hsettled.hash_ne_none (P := P) static ?_
  rw [hnone]
  rfl

open Descent in
/-- **Decoded values can be looked at exactly if no reference leads back to itself**: over any
sequence of successful calls on one decoder, `toDebugString`, `hash` and `equal` return for every
object in the returned values if and only if the targets of the references in them have not been
destroyed and none of them is reached from itself. -/
theorem inspectable_iff (hs : s.aux.Fresh) (h : Decodes P s values s') :
    (∀ o ∈ values.flatMap Object.walk, Inspectable P F s'.aux.heap o) ↔
      ∀ r ∈ values.flatMap Object.refs, s'.aux.heap[r]? ≠ some .destroyed ∧
        ¬ TransGen (Refers s'.aux.heap) r r := by
  have hpaths : (∀ r ∈ values.flatMap Object.refs, s'.aux.heap[r]? ≠ some .destroyed ∧
      ¬ TransGen (Refers s'.aux.heap) r r) ↔ ∀ r ∈ values.flatMap Object.refs,
        ∃ depth, Within (Refers s'.aux.heap) (Finished s'.aux.heap) depth r := by
    rw [exists_within_iff (decodes_refers hs h)]
    exact forall₂_congr fun r hr => and_congr_left' (decodes_finished_iff hs h hr).symm
  constructor
  · intro hinspect
    refine hpaths.2 fun r hr => ?_
    obtain ⟨depth, hdepth⟩ := (hinspect _ (Object.mem_flatMap_refs.1 hr)).debugString
    exact ⟨depth, Object.toDebugString_isSome.1 hdepth r List.mem_cons_self⟩
  · intro hrefs o ho
    have hhash := decodes_hash hs h fun r hr => (hrefs r hr).1
    refine ⟨?_, hhash o ho, fun i t es hmap e he => hhash e.1 ?_⟩
    -- each reference has a depth, and finitely many have a bound
    · have hends : ∀ r ∈ o.refs, ∃ depth,
          Within (Refers s'.aux.heap) (Finished s'.aux.heap) depth r := fun r hr =>
        hpaths.1 hrefs r (Object.mem_flatMap_refs.2
          (Object.walk_subset_flatMap ho _ (Object.mem_refs.1 hr)))
      obtain ⟨depth, hdepth⟩ := Within.exists_bound (p := Within (Refers s'.aux.heap) _)
        Within.mono hends
      exact ⟨depth, Object.toDebugString_isSome.2 hdepth⟩
    · refine Object.walk_subset_flatMap ho _ (o.walk_subset _ hmap e.1 ?_)
      rw [Object.walk_map]
      exact List.mem_cons_of_mem _ (List.mem_flatMap.2
        ⟨e, he, List.mem_append_left _ e.1.mem_walk_self⟩)

end Decoded

/-- A list of a list and a reference to it. -/
theorem inspectable_list : ∃ value s',
    decodeObject .simple ⟨.ofList [0x7a, 0x78, 0x51, 0x91], .empty⟩ = .ok value s' ∧
      value.refs = [1] ∧ ∀ F, ∀ o ∈ [value].flatMap Object.walk, Inspectable .simple F s'.aux.heap o := by
  have hrun : (decodeObject .simple ⟨.ofList [0x7a, 0x78, 0x51, 0x91], .empty⟩).any
    (fun value (s' : State UInt8 Tables) => value.refs == [1] && match s'.aux.heap[1]? with
      | some (Cell.finished target) => target.refs == []
      | _ => false) = true := by decide +kernel
  obtain ⟨value, s', h, hv⟩ := Outcome.exists_of_any hrun
  rw [Bool.and_eq_true, beq_iff_eq] at hv
  obtain ⟨hrefs, hcell⟩ := hv
  refine ⟨value, s', h, hrefs, fun F => (inspectable_iff ⟨rfl, rfl, rfl⟩ (.cons h (.nil s'))).2 ?_⟩
  rw [List.flatMap_singleton, hrefs, List.forall_mem_singleton]
  split at hcell
  · next target htarget =>
    rw [htarget]
    refine ⟨nofun, fun hcycle => ?_⟩
    obtain ⟨j, ⟨o, ho, hj⟩, -⟩ := TransGen.head'_iff.1 hcycle
    obtain rfl : target = o := by simpa [htarget] using ho
    rw [beq_iff_eq.1 hcell] at hj
    cases hj
  · cases hcell

/-- The text of a list that holds a reference to itself has no end. -/
theorem inspectable_self : ∃ value s',
    decodeObject .simple ⟨.ofList [0x79, 0x51, 0x90], .empty⟩ = .ok value s' ∧
      ∀ F depth, value.toDebugString F s'.aux.heap depth = none := by
  have hrun : (decodeObject .simple ⟨.ofList [0x79, 0x51, 0x90], .empty⟩).any
    (fun value (s' : State UInt8 Tables) => value.refs == [0] && match s'.aux.heap[0]? with
      | some (Cell.finished target) => target.refs == [0]
      | _ => false) = true := by decide +kernel
  obtain ⟨value, s', h, hv⟩ := Outcome.exists_of_any hrun
  rw [Bool.and_eq_true, beq_iff_eq] at hv
  obtain ⟨hrefs, hcell⟩ := hv
  have hcycle : TransGen (Refers s'.aux.heap) 0 0 := by
    split at hcell
    · next target htarget => exact .single ⟨target, htarget, by rw [beq_iff_eq.1 hcell]; simp⟩
    · cases hcell
  refine ⟨value, s', h, fun F depth => Option.not_isSome_iff_eq_none.1 fun hsome => ?_⟩
  rw [Object.toDebugString_isSome, hrefs, List.forall_mem_singleton] at hsome
  exact Descent.Within.not_of_cycle hcycle depth hsome

end Hessian2
