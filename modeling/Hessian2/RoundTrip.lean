import Hessian2.Delivery

/-!
# The round trip of object graphs

Object graphs that are sent one after the other with one encoder and read with one decoder.

* `Graphs` : graphs that a plain build can send.
* `Isomorphic` : the same graphs at other addresses.
* `objects_round_trip` : **what is read is isomorphic to what was sent.**
-/

namespace Hessian2

open Parsing Parsing.Parser Enc

namespace Object

/-- A plain build sends the object, without what it owns, as it is: the strings consist of
characters, all sizes are numbers of the widths on the wire, dates and doubles arrive as they are,
and an instance has as many values as fields. -/
def Plain (P : Platform) (x : Object) : Prop := x.Portable P.plain ∧ x.Lossless ∧ x.KeysApart

/-- The keys of a map arrive as they are. -/
theorem KeysApart.distinct {o : Object} (h : o.KeysApart) (hl : ∀ x ∈ o.walk, x.Lossless) :
    o.KeysDistinct := by
  cases o with
  | map i t es =>
    rw [walk_map, List.forall_mem_cons, List.forall_mem_flatMap] at hl
    have hkey : ∀ e ∈ es, e.1.received = e.1 := fun e he =>
      received_eq_self fun x hx => hl.2 e he x (List.mem_append_left _ hx)
    refine List.Pairwise.imp_of_mem (fun {e e'} he he' h => ?_) h
    rw [hkey e he, hkey e' he', h]
  | _ => trivial

end Object

/-- Graphs that can be sent one after the other: every container has one owner, references point to
containers that are written before them, the number of names and containers fits, and no map in an
instance has a reference to the instance as a key. -/
structure Graphs (P : Platform) (os : List Object) : Prop where
  parts : ∀ x ∈ os.flatMap Object.walk, x.Plain P ∧ x.KeysSettled
  distinct : (os.flatMap Object.containers).Nodup
  backward : Ledger.empty.Backward (os.flatMap Object.walk)
  fits : (Ledger.empty.notes (os.flatMap Object.walk)).Fits

/-- The same graphs, with every container and every reference to it moved to an address of its
own. -/
def Isomorphic (os values : List Object) : Prop :=
  ∃ f : ObjId → ObjId, (∀ i ∈ os.flatMap Object.containers, ∀ j ∈ os.flatMap Object.containers,
    f i = f j → i = j) ∧ values = os.map (Object.rename f)

variable {P : Platform} {os : List Object}

theorem Graphs.lossless (h : Graphs P os) {o : Object} (ho : o ∈ os) : ∀ x ∈ o.walk, x.Lossless :=
  fun x hx => (h.parts x (List.mem_flatMap.2 ⟨o, ho, hx⟩)).1.2.1

/-- The journey of the graphs. -/
def Graphs.journey (h : Graphs P os) : Journey where
  final := Ledger.empty.notes (os.flatMap Object.walk)
  distinct := True
  settled := True
  direct := False
  types := h.fits.types
  defs := h.fits.defs
  distinct_of_hashed _ := trivial

theorem Graphs.departs (h : Graphs P os) :
    Departs P.plain h.journey .empty [] (os.flatMap Object.walk) where
  portable x hx := (h.parts x hx).1.1
  backward := h.backward
  within := .refl _
  fits _ _ _ := h.fits.values
  distinct _ x hx := by
    obtain ⟨o, ho, hx'⟩ := List.mem_flatMap.1 hx
    exact (h.parts x hx).1.2.2.distinct fun y hy =>
      h.lossless ho y (o.walk_subset x hx' y hy)
  keys _ x hx := ⟨(h.parts x hx).2, fun i hi => absurd hi List.not_mem_nil⟩
  direct hd := hd.elim
  fresh _ := by
    rw [Object.filterMap_flatMap_walk]
    exact h.distinct

/-- The containers are numbered as they come. -/
theorem Ledger.map_number (L : Ledger) :
    L.values.keys.map L.number = List.range L.values.keys.length := by
  refine List.ext_getElem (by simp) fun k hk hk' => ?_
  rw [List.getElem_map, List.getElem_range]
  have hnumber := KeyTable.number?_eq_some.2 (List.getElem?_eq_getElem (by simpa using hk'))
  rw [Ledger.number, hnumber]
  rfl

theorem Graphs.values_keys (h : Graphs P os) :
    h.journey.final.values.keys = os.flatMap Object.containers := by
  refine (h.departs.values_keys trivial).trans ?_
  rw [Object.filterMap_flatMap_walk]
  rfl

/-- Object graphs come back as they were sent if the decoder keeps up with the encoder. -/
theorem Departs.round_trip {J : Journey} (h : Departs P.plain J .empty [] (os.flatMap Object.walk))
    (hkeys : J.settled ∨ J.direct) (hvalues : J.final.values.keys = os.flatMap Object.containers)
    (hlossless : ∀ o ∈ os, ∀ x ∈ o.walk, x.Lossless) : ∃ e,
      encodeMessages P.plain (os.map .object) .empty = .ok (os.map fun _ => true, e) ∧
      e.unnumbered = [] ∧ ∀ t : Tables, t.New → ∃ values s,
        Decodes P.plain ⟨.ofList e.output, t⟩ values s ∧ Isomorphic os values ∧
        s.cursor.offset = e.output.length := by
  have hlands {t : Tables} (ht : t.New) := messages_travel (departAll_objects h) ht.mirrors
  obtain ⟨bs, rs, t₀, hland, -⟩ := hlands (t := .empty) ⟨0, rfl⟩
  have hencode := hland.emits [] [] []
  rw [List.map_map] at hencode
  refine ⟨_, hencode, rfl, fun t ht => ?_⟩
  obtain ⟨bs', rs', t', hland', hdelivered⟩ := hlands ht
  -- the encoder does not know which decoder reads what it writes
  obtain rfl : bs = bs' := by
    have hsame := (hland.emits [] [] []).symm.trans (hland'.emits [] [] [])
    exact congrArg (fun r => Encoder.output (Prod.snd r)) (Except.ok.inj hsame)
  have hheap : t.heap.length = 0 := by
    obtain ⟨hash, rfl⟩ := ht
    rfl
  have hreceived : os.map Object.received = os := by
    rw [List.map_congr_left fun o ho => Object.received_eq_self (hlossless o ho), List.map_id']
  have hnumbers : (os.flatMap Object.containers).map J.final.number =
      List.range' 0 (os.flatMap Object.containers).length := by
    rw [← hvalues, Ledger.map_number, List.range_eq_range']
  have hobjects := hdelivered.objects (J.distinct_of_hashed hkeys)
  rw [hheap, hreceived, Object.relocateValues_eq_rename
    (fun v _ n hv => Object.relocate_eq_rename hv) 0 hnumbers, Object.renameValues_eq] at hobjects
  have hread := (hland'.reads.reads fun e he => he.2 hkeys) (.ofList bs) [] (List.append_nil _).symm
  rw [hobjects, decodeMessages_objects (List.length_map _)] at hread
  refine ⟨_, _, hread, ⟨J.final.number, fun i hi j hj hij => ?_, rfl⟩, Nat.zero_add _⟩
  rw [← hvalues] at hi hj
  exact Ledger.number_inj hi hj hij

/-- **Object graphs come back as they were sent.**  For every sequence of graphs that can be sent
one after the other with one encoder, in whatever order the entries of their maps stand, all calls
return `true`, and a new decoder that reads what was written with as many calls returns graphs that
are isomorphic to them, and ends behind the last byte. -/
theorem objects_round_trip (P : Platform) (os : List Object) (h : Graphs P os) (t : Tables)
    (ht : t.New) : ∃ e values s,
      encodeMessages P.plain (os.map .object) .empty = .ok (os.map fun _ => true, e) ∧
      Decodes P.plain ⟨.ofList e.output, t⟩ values s ∧ Isomorphic os values ∧
      s.cursor.offset = e.output.length := by
  obtain ⟨e, hencode, -, hreads⟩ := h.departs.round_trip (.inl trivial) h.values_keys
    fun o ho => h.lossless ho
  obtain ⟨values, s, hread⟩ := hreads t ht
  exact ⟨e, values, s, hencode, hread⟩

/-- An instance with a map in it that refers back to the instance, and a list that refers to the
map. -/
theorem objects_round_trip_cycle : ∃ e values s,
    encodeMessages Platform.simple.plain ([.classInstance 7 ⟨[0x41], [[0x61]]⟩
      [.typedMap 8 [0x4d] [(.string [0x6b], .ref 7)]], .untypedList 9 [.ref 8, .date 1]].map
        .object) .empty = .ok ([true, true], e) ∧
    Decodes Platform.simple.plain ⟨.ofList e.output, .empty⟩ values s ∧
    Isomorphic [.classInstance 7 ⟨[0x41], [[0x61]]⟩
      [.typedMap 8 [0x4d] [(.string [0x6b], .ref 7)]], .untypedList 9 [.ref 8, .date 1]] values ∧
    s.cursor.offset = e.output.length := by
  refine objects_round_trip .simple _ ⟨?_, by decide, ?_, ⟨by decide, by decide, by decide⟩⟩ .empty
    ⟨0, rfl⟩
  · simp only [List.flatMap_cons, List.flatMap_nil, Object.walk, Object.walkValues,
      Object.walkEntries, List.append_nil, List.cons_append, List.nil_append, List.forall_mem_cons]
    refine ⟨⟨⟨⟨⟨.letter rfl (by decide), by simpa using Intact.letter rfl (b := 0x61) (by decide),
      by decide⟩, rfl⟩, trivial, trivial⟩, ?_⟩, ⟨⟨?_, trivial, List.pairwise_singleton _ _⟩, trivial⟩,
      ⟨⟨.letter rfl (by decide), trivial, trivial⟩, trivial⟩, ⟨⟨trivial, trivial, trivial⟩, trivial⟩,
      ⟨⟨⟨fun s hs => (by cases hs), by decide⟩, trivial, trivial⟩, trivial⟩,
      ⟨⟨trivial, trivial, trivial⟩, trivial⟩, ⟨⟨trivial, fun h => absurd h (by decide), trivial⟩, trivial⟩, ?_⟩
    · unfold Object.KeysSettled
      decide
    · rintro s ⟨⟩
      exact .letter rfl (by decide)
    · exact fun _ h => absurd h List.not_mem_nil
  · refine ⟨?_, ?_, ?_, ?_, ?_, ?_, ?_, trivial⟩ <;> rintro i ⟨⟩ <;> decide
end Hessian2
