import Hessian2.Delivery
import Hessian2.InstanceGrammar

/-!
# The framing of instances

The number of values of an instance is not on the wire: the decoder takes it from the definition,
and the encoder writes what the instance holds.

* `Object.Balanced` : an instance with as many values as its definition has fields.
* `Instances` : instances that can be sent one after the other, whatever number of values they have.
* `KeepsFraming` : every instance is read from its own bytes.
* `framing_iff` : **this is so exactly if all instances, those inside included, are balanced.**
-/

namespace Hessian2

open Parsing Parsing.Parser Enc

namespace Object

/-- An instance has as many values as its definition has fields. -/
def Balanced : Object → Prop
  | .classInstance _ d vs => vs.length = d.fieldNames.length
  | _ => True

instance : DecidablePred Balanced := fun o => by
  cases o <;> unfold Balanced <;> infer_instance

/-- What is sent for the object alone comes back as it was sent, but for the number of values. -/
def Spelled (P : Platform) : Object → Prop
  | .classInstance _ d _ => d.Intact P
  | o => o.Portable P

theorem Spelled.portable {P : Platform} {o : Object} (h : o.Spelled P) (hb : o.Balanced) :
    o.Portable P := by
  cases o with
  | classInstance i d vs => exact ⟨h, hb⟩
  | _ => exact h

end Object

/-- Instances with any values that can be sent one after the other: the strings are sent unaltered,
dates and doubles arrive as they are, no two keys of a map are equal, there are no references, and
the numbers of types and definitions fit. -/
structure Instances (P : Platform) (os : List Object) : Prop where
  instances : ∀ o ∈ os, o.IsInstance
  parts : ∀ x ∈ os.flatMap Object.walk, x.Spelled P ∧ x.Lossless ∧ x.KeysDistinct
  refs : os.flatMap Object.refs = []
  types : (Ledger.empty.notes (os.flatMap Object.walk)).types.size ≤ 2 ^ 15
  defs : (Ledger.empty.notes (os.flatMap Object.walk)).defs.size ≤ 2 ^ 15

/-- Each call of `encode` either returns `false` and leaves the output as it was, or it returns
`true`, and `decode<Object>` reads exactly what it appended, as a copy of the instance. -/
inductive KeepsFraming (P : Platform) : List Object → Encoder → Tables → Prop where
  | nil (e : Encoder) (t : Tables) : KeepsFraming P [] e t
  | refused {o : Object} {os : List Object} {e e' : Encoder} {t : Tables}
    (hencode : encodeObject P o e = .ok (false, e')) (houtput : e'.output = e.output)
    (h : KeepsFraming P os e' t) : KeepsFraming P (o :: os) e t
  | sent {o : Object} {os : List Object} {e e' : Encoder} {t t' : Tables} {bs : Bytes} {value : Object}
    (hencode : encodeObject P o e = .ok (true, e')) (houtput : e'.output = e.output ++ bs)
    (hread : Reads (decodeObject P) t bs value t') (hvalue : value = o.relocate id t.heap.length)
    (h : KeepsFraming P os e' t') : KeepsFraming P (o :: os) e t

variable {P : Platform} {os : List Object} {t : Tables}

/-! ### What a decoder returns -/

/-- The object and everything it owns is balanced. -/
def Whole (o : Object) : Prop := ∀ x ∈ o.walk, x.Balanced

theorem whole_list {i : ObjId} {u : Option Bytes} {vs : List Object} (h : ∀ v ∈ vs, Whole v) :
    Whole (.list i u vs) := by
  intro x hx
  rw [Object.walk_list, List.mem_cons, List.mem_flatMap] at hx
  obtain rfl | ⟨v, hv, hx⟩ := hx
  · trivial
  · exact h v hv x hx

theorem whole_map {i : ObjId} {u : Option Bytes} {es : List (Object × Object)}
    (h : ∀ e ∈ es, Whole e.1 ∧ Whole e.2) : Whole (.map i u es) := by
  intro x hx
  rw [Object.walk_map, List.mem_cons, List.mem_flatMap] at hx
  obtain rfl | ⟨e, he, hx⟩ := hx
  · trivial
  · exact (List.mem_append.1 hx).elim ((h e he).1 x) ((h e he).2 x)

theorem whole_classInstance {i : ObjId} {d : RawDefinition} {vs : List Object}
    (hb : vs.length = d.fieldNames.length) (h : ∀ v ∈ vs, Whole v) :
    Whole (.classInstance i d vs) := by
  intro x hx
  rw [Object.walk_classInstance, List.mem_cons, List.mem_flatMap] at hx
  obtain rfl | ⟨v, hv, hx⟩ := hx
  · exact hb
  · exact h v hv x hx

section Body

variable {self : Dec Object} (h : Returns Whole self)
include h

theorem readObjectUntilEnd_whole :
    Returns (fun values => ∀ v ∈ values, Whole v) (readObjectUntilEnd P self) := by
  refine .iter (I := fun values => ∀ v ∈ values, Whole v) (fun values hvalues => ?_)
    fun v hv => absurd hv List.not_mem_nil
  rw [readObjectUntilEndStep_eq]
  refine .ahead fun code => .ite (fun _ => .after fun _ => .pure hvalues) fun _ =>
    h.bind fun o ho => .pure ?_
  exact List.forall_mem_append.2 ⟨hvalues, List.forall_mem_singleton.2 ho⟩

theorem times_whole (n : ℕ) : Returns (fun values => ∀ v ∈ values, Whole v) (times self n) :=
  (h.times n).mono fun _ hvs => hvs.2

theorem typedListValues_whole (code : UInt8) :
    Returns (fun values => ∀ v ∈ values, Whole v) (typedListValues P self code) :=
  .ite (fun _ => readObjectUntilEnd_whole h) fun _ =>
    .ite (fun _ => .after fun _ => times_whole h _) fun _ => .ite (fun _ => times_whole h _) fun _ => .failure

theorem untypedListValues_whole (code : UInt8) :
    Returns (fun values => ∀ v ∈ values, Whole v) (untypedListValues P self code) :=
  .ite (fun _ => readObjectUntilEnd_whole h) fun _ =>
    .ite (fun _ => .after fun _ => times_whole h _) fun _ =>
      .ite (fun _ => times_whole h _) fun _ => .pure fun _ hv => absurd hv List.not_mem_nil

theorem readEntries_whole (result : ObjId) :
    Returns (fun entries => ∀ e ∈ entries, Whole e.1 ∧ Whole e.2) (readEntries P self result) := by
  refine Returns.bind (Q := fun slots => ∀ s ∈ slots, Whole s.key ∧ Whole s.value)
    (.iter (I := fun slots => ∀ s ∈ slots, Whole s.key ∧ Whole s.value) (fun slots hslots => ?_)
      fun s hs => absurd hs List.not_mem_nil) fun slots hslots => .pure fun e he => ?_
  · rw [readEntriesStep_eq]
    refine .ahead fun code => .ite (fun _ => .after fun _ => .pure hslots) fun _ =>
      h.bind fun key hkey => h.bind fun value hvalue => ?_
    refine Returns.bind (Q := fun slots => ∀ s ∈ slots, Whole s.key ∧ Whole s.value) ?_
      fun slots (hs : ∀ s ∈ slots, Whole s.key ∧ Whole s.value) => Returns.pure (a := Sum.inl slots) hs
    refine (emplace_ends result slots key value).mono (fun {t slots' t'} hs => ?_) fun _ => trivial
    cases hs with
    | stored => exact List.forall_mem_append.2 ⟨hslots, List.forall_mem_singleton.2 ⟨hkey, hvalue⟩⟩
    | dropped => exact hslots
  · obtain ⟨s, hs, rfl⟩ := List.mem_map.1 he
    exact hslots s hs

theorem decodeObjectForm_whole (code : UInt8) : Returns Whole (decodeObjectForm P self code) := by
  have leaf {o : Object} (ho : o.walk = [o]) (hb : o.Balanced) : Whole o := by
    intro x hx
    rw [ho, List.mem_singleton] at hx
    rwa [hx]
  unfold decodeObjectForm
  cases leadOf code with
  | typedList =>
    exact container_returns fun result => .after fun code => .after fun typeStr =>
      (typedListValues_whole h code).bind fun values hvs => .pure (whole_list hvs)
  | untypedList =>
    exact container_returns fun result => .after fun code =>
      (untypedListValues_whole h code).bind fun values hvs => .pure (whole_list hvs)
  | typedMap =>
    exact container_returns fun result => .after fun _ => .after fun typeStr =>
      (readEntries_whole h result).bind fun entries hes => .pure (whole_map hes)
  | untypedMap =>
    exact container_returns fun result => .after fun _ =>
      (readEntries_whole h result).bind fun entries hes => .pure (whole_map hes)
  | definition => exact .after fun _ => h
  | classInstance =>
    exact container_returns fun result => .ahead fun code => .after fun _ => .after fun d =>
      (h.times _).bind fun data hvs => .pure (whole_classInstance hvs.1 hvs.2)
  | ref =>
    exact .after fun _ => .after fun _ => .after fun _ => .after fun _ => .pure (leaf rfl trivial)
  | unknown => exact .failure
  | _ => exact .after fun _ => .pure (leaf rfl trivial)

end Body

/-- **What `decode<Object>` returns is balanced**, with everything in it. -/
theorem decodeObject_whole : Returns Whole (decodeObject P) := by
  refine Returns.fix (Q := fun _ => Whole) (F := fun self _ => decodeObjectBody P (self ()))
    (fun self h _ => ?_) ()
  rw [decodeObjectBody_eq]
  exact .ahead fun code => decodeObjectForm_whole (h ()) code

theorem length_relocateValues (f : ObjId → ObjId) : ∀ (n : ObjId) (vs : List Object),
    (Object.relocateValues f n vs).length = vs.length
  | _, [] => rfl
  | n, v :: vs => by
    rw [Object.relocateValues, List.length_cons, List.length_cons, length_relocateValues f]

/-- A copy has as many values in every instance. -/
theorem Whole.of_relocate {f : ObjId → ObjId} {o : Object} {n : ObjId} (h : Whole (o.relocate f n)) :
    Whole o := by
  have hcopy : ∀ x n, some (Object.relocate f n x).Balanced = some x.Balanced := by
    intro x n
    cases x with
    | classInstance i d vs =>
      rw [Object.relocate, Object.Balanced, Object.Balanced, length_relocateValues]
    | _ => rfl
  have hsame := Object.filterMap_walk_relocate (g := fun x => some x.Balanced) hcopy (o := o) (n := n)
  rw [List.filterMap_eq_map'] at hsame
  intro x hx
  have hmem : x.Balanced ∈ (o.relocate f n).walk.map Object.Balanced := by
    rw [hsame]
    exact List.mem_map_of_mem hx
  obtain ⟨y, hy, hxy⟩ := List.mem_map.1 hmem
  exact hxy ▸ h y hy

/-! ### Instances on the wire -/

/-- `encode` does not return `false` for an instance. -/
theorem encodeClassInstance_true {i : ObjId} {d : RawDefinition} {vs : List Object} {e e' : Encoder}
    {b : Bool} (h : encodeObject P (.classInstance i d vs) e = .ok (b, e')) : b = true := by
  rw [encodeObject, encodeClassInstance] at h
  obtain ⟨_, e₁, -, h⟩ := Enc.bind_eq_ok.1 h
  obtain ⟨_, e₂, -, h⟩ := Enc.bind_eq_ok.1 h
  obtain ⟨_, e₃, -, h⟩ := Enc.bind_eq_ok.1 h
  cases h
  rfl

theorem KeepsFraming.balanced {e : Encoder} (h : KeepsFraming P os e t) (hos : ∀ o ∈ os, o.IsInstance) :
    ∀ x ∈ os.flatMap Object.walk, x.Balanced := by
  induction h with
  | nil => exact fun x hx => absurd hx List.not_mem_nil
  | @refused o os e e' t hencode _ _ ih =>
    have ho := hos o List.mem_cons_self
    cases o with
    | classInstance i d vs => exact absurd (encodeClassInstance_true hencode) Bool.false_ne_true
    | _ => exact ho.elim
  | @sent o os e e' t t' bs value _ _ hread hvalue _ ih =>
    obtain ⟨c, hrun, -⟩ := hread.ofList
    have hwhole : Whole value := decodeObject_whole.ok hrun
    rw [hvalue] at hwhole
    rw [List.flatMap_cons, List.forall_mem_append]
    exact ⟨hwhole.of_relocate, ih fun o ho => hos o (List.mem_cons_of_mem _ ho)⟩

/-- Objects that can be sent one after the other are framed. -/
theorem framing_of_departs {J : Journey} (hdirect : J.direct) {out : Bytes} {refused : List Bytes}
    {unnumbered : List ObjId} : ∀ {os : List Object} {L : Ledger} {t : Tables},
    Departs P J L [] (os.flatMap Object.walk) → Mirrors P J L [] t →
      (∀ x ∈ os.flatMap Object.walk, x.Lossless) → os.flatMap Object.refs = [] →
        KeepsFraming P os (L.encoder out refused unnumbered) t := by
  intro os
  induction os generalizing out with
  | nil => exact fun _ _ _ _ => .nil _ _
  | cons o os ih =>
    intro L t hd hm hl hrefs
    rw [List.flatMap_cons] at hd hl hrefs
    rw [List.forall_mem_append] at hl
    obtain ⟨ho, hos⟩ := List.append_eq_nil_iff.1 hrefs
    obtain ⟨c, cs, value, t', -, hland, hvalue⟩ := encodeObject_travels o hd.append_left hm
    refine .sent (hland.emits out refused unnumbered) rfl
      (hland.reads.reads fun fault hfault => hfault.2 (.inr hdirect)) ?_
      (ih hd.append_right hland.mirrors hl.2 hos)
    rw [hvalue (J.distinct_of_hashed (.inr hdirect)), Object.received_eq_self hl.1]
    refine Object.relocate_congr fun i hi => ?_
    rw [ho] at hi
    exact absurd hi List.not_mem_nil

namespace Instances

/-- The journey of the instances. -/
def journey (h : Instances P os) : Journey where
  final := Ledger.empty.notes (os.flatMap Object.walk)
  distinct := True
  settled := False
  direct := True
  types := h.types
  defs := h.defs
  distinct_of_hashed _ := trivial

theorem departs (h : Instances P os) (hb : ∀ x ∈ os.flatMap Object.walk, x.Balanced) :
    Departs P h.journey .empty [] (os.flatMap Object.walk) := by
  have htarget : ∀ x ∈ os.flatMap Object.walk, x.target? = none := by
    refine List.filterMap_eq_nil_iff.1 ?_
    rw [Object.filterMap_flatMap_walk]
    exact h.refs
  refine .of_target?_eq_none not_false (.refl _) (fun x hx => ?_) htarget fun x hx y hy => ?_
  · exact ⟨(h.parts x hx).1.portable (hb x hx), (h.parts x hx).2.2⟩
  · obtain ⟨o, ho, hx⟩ := List.mem_flatMap.1 hx
    exact List.mem_flatMap.2 ⟨o, ho, o.walk_subset x hx y hy⟩

end Instances

/-- **Instances keep the framing exactly if they are balanced.**  For every sequence of instances that
is sent with one encoder to one decoder, every instance is read from its own bytes exactly if all
instances, also those inside others, have as many values as their definitions have fields. -/
theorem framing_iff (P : Platform) (os : List Object) (h : Instances P os) (t : Tables) (ht : t.New) :
    KeepsFraming P os .empty t ↔ ∀ x ∈ os.flatMap Object.walk, x.Balanced := by
  refine ⟨fun hf => hf.balanced h.instances, fun hb => ?_⟩
  exact framing_of_departs (J := h.journey) trivial (h.departs hb) ht.mirrors (fun x hx => (h.parts x hx).2.1)
    h.refs

/-- Two instances of a class with one field, the first with any `data` up to one null. -/
theorem instances_letters {data : List Object} (h : data = [] ∨ data = [.null]) : Instances .simple
    [.classInstance 0 ⟨[0x41], [[0x61]]⟩ data, .classInstance 1 ⟨[0x41], [[0x61]]⟩ [.null]] := by
  have hdef : RawDefinition.Intact .simple ⟨[0x41], [[0x61]]⟩ :=
    ⟨.letter rfl (by decide), List.forall_mem_singleton.2 (.letter rfl (by decide)),
      by decide⟩
  have hparts : ∀ x ∈ [Object.classInstance 0 ⟨[0x41], [[0x61]]⟩ data, .null,
      .classInstance 1 ⟨[0x41], [[0x61]]⟩ [.null]], x.Spelled .simple ∧ x.Lossless ∧ x.KeysDistinct :=
    List.forall_mem_cons.2 ⟨⟨hdef, trivial, trivial⟩, List.forall_mem_cons.2
      ⟨⟨trivial, trivial, trivial⟩, List.forall_mem_singleton.2 ⟨hdef, trivial, trivial⟩⟩⟩
  obtain rfl | rfl := h
  · refine ⟨by simp [Object.IsInstance], fun x hx => hparts x ?_, rfl, by decide, by decide⟩
    simp [Object.walk] at hx ⊢
    tauto
  · refine ⟨by simp [Object.IsInstance], fun x hx => hparts x ?_, rfl, by decide, by decide⟩
    simp [Object.walk] at hx ⊢
    tauto

/-- Two instances with one value each. -/
theorem framing_two : KeepsFraming .simple [.classInstance 0 ⟨[0x41], [[0x61]]⟩ [.null],
    .classInstance 1 ⟨[0x41], [[0x61]]⟩ [.null]] .empty .empty :=
  (framing_iff .simple _ (instances_letters (.inr rfl)) .empty ⟨0, rfl⟩).2 (by decide)

/-- An instance of the same class without a value, and one with a value: the decoder takes the
second for the value of the first. -/
theorem framing_lost : Instances .simple [.classInstance 0 ⟨[0x41], [[0x61]]⟩ [],
      .classInstance 1 ⟨[0x41], [[0x61]]⟩ [.null]] ∧
    ¬ KeepsFraming .simple [.classInstance 0 ⟨[0x41], [[0x61]]⟩ [],
      .classInstance 1 ⟨[0x41], [[0x61]]⟩ [.null]] .empty .empty := by
  have hinstances := instances_letters (.inl rfl)
  refine ⟨hinstances, fun h => ?_⟩
  exact absurd (h.balanced hinstances.instances) (by decide)

end Hessian2
