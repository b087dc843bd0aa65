import Hessian2.Delivery

/-!
# Containers that are sent more than once

The encoder numbers a container when it is written for the first time, the decoder numbers every
container it reads.

* `Arrived` : a container that was decoded from an encoding of another one.
* `InStep` : the number of every container stands for a counterpart of it.
* `RepeatsLast` : every container is written for the first time before any is repeated.
* `inStep_iff` : **the numbers are in step exactly if repetitions come last.**
-/

namespace Hessian2

open Parsing Parsing.Parser Enc

/-- The container at `a` in what was decoded for the objects comes from an encoding of the container
`i` in one of them. -/
def Arrived (os values : List Object) (i a : ObjId) : Prop :=
  ∃ p ∈ os.zip values, (i, a) ∈ p.1.containers.zip p.2.containers

/-- The number that the encoder has for a container of the objects stands for a counterpart of it in
the table of the decoder, and a reference to the container that is encoded next is decoded as a
reference to this counterpart. -/
def InStep (P : Platform) (os values : List Object) (e : Encoder) (t : Tables) : Prop :=
  ∀ i ∈ os.flatMap Object.containers, ∃ a, t.valuesRef[(e.getValueRef i).toInt.toNat]? = some a ∧
    Arrived os values i a ∧ ∃ bs e' t', encodeObject P (.ref i) e = .ok (true, e') ∧
      e'.output = e.output ++ bs ∧ Reads (decodeObject P) t bs (.ref a) t'

/-- Every container is written for the first time before any is repeated. -/
def RepeatsLast (written : List ObjId) : Prop :=
  ∃ first again, written = first ++ again ∧ first.Nodup ∧ ∀ i ∈ again, i ∈ first

/-- Objects that can be sent one after the other, the same ones any number of times. -/
structure Sharing (P : Platform) (os : List Object) : Prop where
  parts : ∀ x ∈ os.flatMap Object.walk, x.Portable P ∧ x.KeysDistinct
  backward : Ledger.empty.Backward (os.flatMap Object.walk)
  types : (Ledger.empty.notes (os.flatMap Object.walk)).types.size ≤ 2 ^ 15
  defs : (Ledger.empty.notes (os.flatMap Object.walk)).defs.size ≤ 2 ^ 15
  written : (os.flatMap Object.containers).length < 2 ^ 15

variable {P : Platform} {os values : List Object} {e : Encoder} {t : Tables}

/-! ### Numbers -/

/-- The numbers of the keys are the positions at which they stand in the list exactly if
repetitions come last. -/
theorem repeatsLast_iff {written : List ObjId} : RepeatsLast written ↔
    ∀ i ∈ written, ∀ k, (KeyTable.empty.enterAll written).number? i = some k →
      written[k]? = some i := by
  constructor
  · rintro ⟨first, again, rfl, hnodup, hagain⟩ i hi k hk
    have hkeys : (KeyTable.empty.enterAll first).keys = first :=
      KeyTable.keys_enterAll_of_nodup (by simpa using hnodup)
    rw [KeyTable.enterAll_append, KeyTable.enterAll_of_forall_mem (by rwa [hkeys]),
      KeyTable.number?_eq_some, hkeys] at hk
    rw [List.getElem?_append_left (List.getElem?_eq_some_iff.1 hk).1, hk]
  · intro h
    set table := KeyTable.empty.enterAll written with htable
    have hmem : ∀ i ∈ table.keys, i ∈ written := fun i hi =>
      (KeyTable.mem_keys_enterAll.1 hi).resolve_left List.not_mem_nil
    have hgrows : table.keys <+: written := by
      rw [List.prefix_iff_getElem?]
      intro k hk
      have hkey := List.getElem?_eq_getElem hk
      exact h _ (hmem _ (List.getElem_mem hk)) k (KeyTable.number?_eq_some.2 hkey)
    obtain ⟨again, hagain⟩ := hgrows
    refine ⟨table.keys, again, hagain.symm, table.nodup, fun i hi => ?_⟩
    exact KeyTable.mem_keys_enterAll.2 (.inr (hagain ▸ List.mem_append_right _ hi))

theorem mem_zip_range' {α : Type} {as : List α} {x : α} {n a : ℕ} :
    (x, a) ∈ as.zip (List.range' n as.length) ↔ ∃ k, a = n + k ∧ as[k]? = some x := by
  rw [List.mem_iff_getElem?]
  refine exists_congr fun k => ?_
  rw [List.getElem?_zip_eq_some]
  constructor
  · rintro ⟨hx, ha⟩
    have hk := (List.getElem?_eq_some_iff.1 hx).1
    rw [List.getElem?_range' hk, Nat.one_mul] at ha
    exact ⟨(Option.some.inj ha).symm, hx⟩
  · rintro ⟨rfl, hx⟩
    have hk := (List.getElem?_eq_some_iff.1 hx).1
    rw [List.getElem?_range' hk, Nat.one_mul]
    exact ⟨hx, rfl⟩

/-- The counterparts of containers stand where they were written. -/
theorem arrived_iff {f : ObjId → ObjId} {i a : ObjId} {os : List Object} : ∀ {n : ℕ},
    Arrived os (Object.relocateValues f n (os.map Object.received)) i a ↔
      ∃ k, a = n + k ∧ (os.flatMap Object.containers)[k]? = some i := by
  induction os with
  | nil =>
    intro n
    simp [Arrived, Object.relocateValues]
  | cons o os ih =>
    intro n
    have hsplit : Arrived (o :: os) (Object.relocateValues f n ((o :: os).map Object.received)) i a ↔
        (i, a) ∈ o.containers.zip (List.range' n o.containers.length) ∨
          Arrived os (Object.relocateValues f (n + o.containers.length) (os.map Object.received)) i a := by
      rw [List.map_cons, Object.relocateValues, Arrived, List.zip_cons_cons]
      simp only [List.mem_cons, or_and_right, exists_or, exists_eq_left, Object.containers_relocate,
        Object.containers_received, Arrived]
    rw [hsplit, ih, mem_zip_range', List.flatMap_cons]
    constructor
    · rintro (⟨k, rfl, hk⟩ | ⟨k, rfl, hk⟩)
      · exact ⟨k, rfl, (List.getElem?_append_left (List.getElem?_eq_some_iff.1 hk).1).trans hk⟩
      · refine ⟨o.containers.length + k, Nat.add_assoc _ _ _, ?_⟩
        rwa [List.getElem?_append_right (Nat.le_add_right _ _), Nat.add_sub_cancel_left]
    · rintro ⟨k, rfl, hk⟩
      rcases Nat.lt_or_ge k o.containers.length with hlt | hge
      · rw [List.getElem?_append_left hlt] at hk
        exact .inl ⟨k, rfl, hk⟩
      · rw [List.getElem?_append_right hge] at hk
        exact .inr ⟨k - o.containers.length, by rw [Nat.add_assoc, Nat.add_sub_cancel' hge], hk⟩

/-! ### The conversation -/

/-- The journey of the objects. -/
def Sharing.journey (h : Sharing P os) : Journey where
  final := Ledger.empty.notes (os.flatMap Object.walk)
  distinct := True
  settled := False
  direct := False
  types := h.types
  defs := h.defs
  distinct_of_hashed _ := trivial

theorem Sharing.values_eq (h : Sharing P os) :
    h.journey.final.values = KeyTable.empty.enterAll (os.flatMap Object.containers) := by
  have hvalues := congrArg Ledger.values (Ledger.notes_eq .empty (os.flatMap Object.walk))
  exact hvalues.trans (congrArg KeyTable.empty.enterAll (Object.filterMap_flatMap_walk _ os))

theorem Sharing.size_le (h : Sharing P os) : h.journey.final.values.size ≤ 2 ^ 15 := by
  rw [h.values_eq]
  have hle := KeyTable.size_enterAll_le .empty (os.flatMap Object.containers)
  exact hle.trans ((Nat.zero_add _).le.trans h.written.le)

theorem Sharing.departs (h : Sharing P os) :
    Departs P h.journey .empty [] (os.flatMap Object.walk) where
  portable x hx := (h.parts x hx).1
  backward := h.backward
  within := .refl _
  fits _ _ _ := h.size_le
  distinct _ x hx := (h.parts x hx).2
  keys hs := hs.elim
  direct hd := hd.elim
  fresh hs := hs.elim

/-- What the encoder and the decoder have at the end. -/
theorem Sharing.outcome (h : Sharing P os) {results : List Bool}
    (he : encodeMessages P (os.map .object) .empty = .ok (results, e)) (ht : t.New)
    {s : State UInt8 Tables} (hs : Decodes P ⟨.ofList e.output, t⟩ values s)
    (hall : values.length = os.length) :
    h.journey.final.Describes e ∧
      s.aux.valuesRef = List.range (os.flatMap Object.containers).length ∧
      values = Object.relocateValues h.journey.final.number 0 (os.map Object.received) := by
  obtain ⟨bs, rs, t', hland, hdelivered⟩ :=
    messages_travel (departAll_objects h.departs) (ht.mirrors (P := P))
  have hheap : t.heap.length = 0 := by
    obtain ⟨hash, rfl⟩ := ht
    rfl
  -- the encoder writes what the messages are said to travel as
  have hencode := hland.emits [] [] []
  rw [sends_objects] at hencode
  obtain rfl : e = h.journey.final.encoder bs [] [] := by
    have hsame := he.symm.trans hencode
    injection hsame with hsame
    injection hsame with _ hsame
  have hdecode := (decodeMessages_objects hall).2 hs
  -- and the decoder reads it, unless it stops, which it has not
  rcases hland.reads (.ofList bs) [] (List.append_nil _).symm with hok | ⟨fault, s', -, hfault⟩
  · have hsame := hdecode.symm.trans hok
    injection hsame with hvalues hstate
    rw [hdelivered.objects trivial, hheap] at hvalues
    refine ⟨Ledger.describes_encoder _ _ _ _, ?_, ?_⟩
    · rw [hstate]
      exact hland.mirrors.values.trans (by rw [hland.length, hheap, containers_objects, Nat.zero_add])
    · exact List.map_injective_iff.2 (fun v w hvw => by injection hvw with hvw; injection hvw) hvalues
  · exact absurd (hdecode.symm.trans hfault) (by simp)

/-- The encoder returns the number as it is. -/
theorem Sharing.getValueRef_eq (h : Sharing P os) (hdescribes : h.journey.final.Describes e)
    {i : ObjId} {k : ℕ} (hk : h.journey.final.values.number? i = some k) :
    (e.getValueRef i).toInt.toNat = k := by
  have hlt : k < 2 ^ 15 := (KeyTable.number?_lt hk).trans_le h.size_le
  rw [hdescribes.eq_encoder, getValueRef_encoder, hk, toInt_number hlt, Int.toNat_natCast]

/-- The number of a container stands for a counterpart of it exactly if the container stands there
among those that were written. -/
theorem Sharing.position_iff (h : Sharing P os) (hdescribes : h.journey.final.Describes e)
    (htable : t.valuesRef = List.range (os.flatMap Object.containers).length)
    (hvalues : values = Object.relocateValues h.journey.final.number 0 (os.map Object.received))
    {i : ObjId} {k : ℕ} (hk : h.journey.final.values.number? i = some k) :
    (∃ a, t.valuesRef[(e.getValueRef i).toInt.toNat]? = some a ∧ Arrived os values i a) ↔
      (os.flatMap Object.containers)[k]? = some i := by
  rw [h.getValueRef_eq hdescribes hk, htable, hvalues]
  constructor
  · rintro ⟨a, ha, harrived⟩
    rw [List.getElem?_range (by simpa using (List.getElem?_eq_some_iff.1 ha).1)] at ha
    obtain ⟨k', rfl, hwritten⟩ := arrived_iff.1 harrived
    obtain rfl : k = k' := (Option.some.inj ha).trans (Nat.zero_add k')
    exact hwritten
  · intro hwritten
    have hentry := List.getElem?_range (List.getElem?_eq_some_iff.1 hwritten).1
    exact ⟨k, hentry, arrived_iff.2 ⟨k, (Nat.zero_add k).symm, hwritten⟩⟩

/-- A reference to a container is read as a reference to the container that has its number. -/
theorem Sharing.ref_travels (h : Sharing P os) (hdescribes : h.journey.final.Describes e)
    {i a : ObjId} {k : ℕ} (hk : h.journey.final.values.number? i = some k)
    (ha : t.valuesRef[(e.getValueRef i).toInt.toNat]? = some a) :
    ∃ bs e' t', encodeObject P (.ref i) e = .ok (true, e') ∧ e'.output = e.output ++ bs ∧
      Reads (decodeObject P) t bs (.ref a) t' := by
  rw [h.getValueRef_eq hdescribes hk] at ha
  obtain ⟨c, cs, hemits, hreads⟩ :=
    ref_number_travels (P := P) hk ((KeyTable.number?_lt hk).trans_le h.size_le)
  have hform := (hreads t a ha).upTo (E := fun _ => False)
  refine ⟨0x51 :: c :: cs,
    h.journey.final.encoder (e.output ++ 0x51 :: c :: cs) e.refused e.unnumbered, _, ?_, rfl,
    (object_reads hform).reads fun _ hno => hno⟩
  rw [hdescribes.eq_encoder]
  exact hemits _ _ _

/-- **The numbers of containers are in step exactly if repetitions come last**: over every sequence
of calls of one encoder on objects that may be the same ones, and the calls of one decoder that read
what was written, the number of every container stands for a counterpart of it in the table of the
decoder if and only if every container was written for the first time before any was repeated. -/
theorem inStep_iff (P : Platform) (os : List Object) (h : Sharing P os) (e : Encoder)
    (results : List Bool) (he : encodeMessages P (os.map .object) .empty = .ok (results, e))
    (t : Tables) (ht : t.New) (values : List Object) (s : State UInt8 Tables)
    (hs : Decodes P ⟨.ofList e.output, t⟩ values s) (hall : values.length = os.length) :
    InStep P os values e s.aux ↔ RepeatsLast (os.flatMap Object.containers) := by
  obtain ⟨hdescribes, htable, hvalues⟩ := h.outcome he ht hs hall
  rw [repeatsLast_iff, ← h.values_eq]
  refine forall₂_congr fun i hi => ?_
  have hmem : i ∈ h.journey.final.values.keys := by
    rw [h.values_eq]
    exact KeyTable.mem_keys_enterAll.2 (.inr hi)
  obtain ⟨k, hk⟩ := Option.ne_none_iff_exists'.1 fun hn => KeyTable.number?_eq_none.1 hn hmem
  have hposition := h.position_iff hdescribes htable hvalues hk
  constructor
  · rintro ⟨a, ha, harrived, -⟩ k' hk'
    obtain rfl : k = k' := Option.some.inj (hk.symm.trans hk')
    exact hposition.1 ⟨a, ha, harrived⟩
  · intro hstands
    obtain ⟨a, ha, harrived⟩ := hposition.2 (hstands k hk)
    exact ⟨a, ha, harrived, h.ref_travels hdescribes hk ha⟩

/-- Two lists, and then the first one again. -/
theorem inStep_again : ∃ e values s,
    encodeMessages .simple ([.untypedList 1 [], .untypedList 2 [], .untypedList 1 []].map .object)
      .empty = .ok ([true, true, true], e) ∧
    Decodes .simple ⟨.ofList e.output, .empty⟩ values s ∧
    (InStep .simple [.untypedList 1 [], .untypedList 2 [], .untypedList 1 []] values e s.aux ↔
      RepeatsLast [1, 2, 1]) := by
  have hrun : (decodeObject .simple ⟨.ofList [0x78, 0x78, 0x78], .empty⟩).any (fun _ s₁ =>
      (decodeObject .simple s₁).any fun _ s₂ => (decodeObject .simple s₂).any fun _ _ => true) =
        true := by decide +kernel
  obtain ⟨v₁, s₁, h₁, hrun⟩ := Outcome.exists_of_any hrun
  obtain ⟨v₂, s₂, h₂, hrun⟩ := Outcome.exists_of_any hrun
  obtain ⟨v₃, s₃, h₃, -⟩ := Outcome.exists_of_any hrun
  have hcalls := Decodes.cons h₁ (.cons h₂ (.cons h₃ (.nil s₃)))
  have hempty (i : ObjId) : (Object.untypedList i []).Portable .simple ∧
      (Object.untypedList i []).KeysDistinct := ⟨⟨fun s hs => (by cases hs), by decide⟩, trivial⟩
  have hsharing : Sharing .simple [.untypedList 1 [], .untypedList 2 [], .untypedList 1 []] := by
    refine ⟨?_, ⟨?_, ?_, ?_, trivial⟩, by decide, by decide, by decide⟩
    · exact List.forall_mem_cons.2 ⟨hempty 1, List.forall_mem_cons.2 ⟨hempty 2,
        List.forall_mem_singleton.2 (hempty 1)⟩⟩
    all_goals rintro i ⟨⟩
  exact ⟨_, _, s₃, rfl, hcalls, inStep_iff .simple _ hsharing _ _ rfl _ ⟨0, rfl⟩ _ s₃ hcalls rfl⟩

/-- A list twice, and then another one: the number of the other one is 1, and this is where the
decoder has the second copy of the first. -/
theorem inStep_not : ∃ e values s,
    encodeMessages .simple ([.untypedList 1 [], .untypedList 1 [], .untypedList 2 []].map .object)
      .empty = .ok ([true, true, true], e) ∧
    Decodes .simple ⟨.ofList e.output, .empty⟩ values s ∧ values.length = 3 ∧
    ¬ InStep .simple [.untypedList 1 [], .untypedList 1 [], .untypedList 2 []] values e s.aux := by
  -- three empty lists are read, at the addresses 0, 1 and 2
  have hrun : (decodeObject .simple ⟨.ofList [0x78, 0x78, 0x78], .empty⟩).any (fun v₁ s₁ =>
      (decodeObject .simple s₁).any fun v₂ s₂ => (decodeObject .simple s₂).any fun v₃ s₃ =>
        s₃.aux.valuesRef == [0, 1, 2] && [v₁, v₂, v₃].map Object.containers == [[0], [1], [2]]) =
          true := by decide +kernel
  obtain ⟨v₁, s₁, h₁, hrun⟩ := Outcome.exists_of_any hrun
  obtain ⟨v₂, s₂, h₂, hrun⟩ := Outcome.exists_of_any hrun
  obtain ⟨v₃, s₃, h₃, hv⟩ := Outcome.exists_of_any hrun
  rw [Bool.and_eq_true, beq_iff_eq, beq_iff_eq] at hv
  refine ⟨(Ledger.empty.notes [.untypedList 1 [], .untypedList 2 []]).encoder [0x78, 0x78, 0x78]
    [] [], [v₁, v₂, v₃], s₃, rfl, .cons h₁ (.cons h₂ (.cons h₃ (.nil s₃))), rfl, fun h => ?_⟩
  obtain ⟨a, ha, ⟨p, hp, harrived⟩, -⟩ := h 2 (by decide)
  rw [hv.1] at ha
  obtain rfl : 1 = a := Option.some.inj ha
  simp only [List.map_cons, List.map_nil, List.cons.injEq, and_true] at hv
  obtain ⟨-, hv₁, hv₂, hv₃⟩ := hv
  simp only [List.zip_cons_cons, List.zip_nil_left, List.mem_cons, List.not_mem_nil, or_false] at hp
  obtain rfl | rfl | rfl := hp
  · change (2, 1) ∈ [1].zip v₁.containers at harrived
    rw [hv₁] at harrived
    exact absurd harrived (by decide)
  · change (2, 1) ∈ [1].zip v₂.containers at harrived
    rw [hv₂] at harrived
    exact absurd harrived (by decide)
  · change (2, 1) ∈ [2].zip v₃.containers at harrived
    rw [hv₃] at harrived
    exact absurd harrived (by decide)

end Hessian2
