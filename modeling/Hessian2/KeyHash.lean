import Hessian2.Ownership

/-!
# The hashes of map keys

A hash map finds a key only under the hash that the key had when it was inserted.

* `Object.Settled` : a key that does not refer to an unfinished or destroyed container.
* `Tables.Settled` : all insertions so far had such keys, and binary data kept their hash.
* `Tables.Findable` : a key has the hash under which it was inserted.
* `keys_findable` : **while all keys are settled, every key has a hash, and every key in a returned
  value is findable.**
-/

namespace Hessian2

open Parsing Parsing.Parser

variable {P : Platform}

/-- If the key is a `RefObject`, its target is a container with its contents. -/
def Object.Settled (heap : Heap) : Object → Prop
  | .ref r => ∃ o, heap[r]? = some (.finished o) ∧ o.self? = some r
  | _ => True

instance (heap : Heap) (key : Object) : Decidable (key.Settled heap) :=
  match key with
  | .ref r =>
    match h : heap[r]? with
    | some (.finished o) => decidable_of_iff (o.self? = some r) (by simp [Object.Settled, h])
    | some (.started kind) => isFalse (by simp [Object.Settled, h])
    | some .destroyed => isFalse (by simp [Object.Settled, h])
    | none => isFalse (by simp [Object.Settled, h])
  | .null | .boolean _ | .integer _ | .long _ | .double _ | .date _ | .string _ | .binary _
  | .list _ _ _ | .map _ _ _ | .classInstance _ _ _ => isTrue trivial

/-- The key of an insertion is settled. -/
def Event.Settled : Event → Prop
  | .insertion c => c.key.Settled c.heap
  | .reference _ => True

instance : DecidablePred Event.Settled
  | .insertion c => inferInstanceAs (Decidable (c.key.Settled c.heap))
  | .reference _ => isTrue trivial

/-- All keys so far were settled when they were inserted, and no binary data hashed to zero before
other binary data that did not. -/
structure Tables.Settled (P : Platform) (t : Tables) : Prop where
  keys : ∀ event ∈ t.events, event.Settled
  steady : t.events.Pairwise (Event.Steady P)

instance (P : Platform) (t : Tables) : Decidable (t.Settled P) :=
  decidable_of_iff ((∀ event ∈ t.events, event.Settled) ∧ t.events.Pairwise (Event.Steady P))
    ⟨fun h => ⟨h.1, h.2⟩, fun h => ⟨h.1, h.2⟩⟩

/-- The key was stored in the map `i` under the hash that it still has. -/
def Tables.Findable (P : Platform) (t : Tables) (i : ObjId) (key : Object) : Prop :=
  ∃ c hash, .insertion c ∈ t.events ∧ c.map = i ∧ c.key = key ∧ c.stored = true ∧
    c.hash P = some hash ∧ (key.hash P t.heap t.binaryHash).map Prod.fst = some hash

/-- A settled key has a hash. -/
theorem Object.Settled.hash_ne_none {key : Object} {heap : Heap} (h : key.Settled heap)
    (static : UInt64) : (key.hash P heap static).map Prod.fst ≠ none := by
  cases key with
  | ref r =>
    obtain ⟨o, hcell, ho⟩ := h
    rw [Object.hash, hcell, Option.bind_some]
    simpa using Cell.hash_finished P ho
  | binary d =>
    rw [Object.hash]
    split
    · exact Option.some_ne_none _
    · exact Option.some_ne_none _
  | _ => exact Option.some_ne_none _

/-- Only references and binary data look at anything but themselves. -/
theorem Object.hash_eq {key : Object} (hr : ∀ r, key ≠ .ref r) (hb : ∀ d, key ≠ .binary d)
    (heap heap' : Heap) (static static' : UInt64) :
    (key.hash P heap static).map Prod.fst = (key.hash P heap' static').map Prod.fst := by
  cases key with
  | ref r => exact absurd rfl (hr r)
  | binary d => exact absurd rfl (hb d)
  | _ => rfl

/-- Binary data that hash to what the static variable holds go on to do so. -/
theorem binary_stable {d : Bytes} {heap heap' : Heap} {static static' : UInt64}
    (h : ((Object.binary d).hash P heap static).map Prod.fst = some static') :
    ((Object.binary d).hash P heap' static').map Prod.fst = some static' := by
  rw [Object.hash] at h ⊢
  by_cases hz : static' = 0
  · subst hz
    rw [if_neg (by simp)]
    split at h
    · next hs => exact absurd (Option.some.inj h) hs
    · exact h
  · rw [if_pos hz]
    rfl

/-- A stored key of a map that has not been destroyed has kept its hash. -/
theorem Sound.findable {t : Tables} (h : Sound P t) (hs : t.Settled P) {c : Insertion}
    (hc : .insertion c ∈ t.events) (hstored : c.stored = true)
    (halive : t.heap[c.map]? ≠ some .destroyed) : t.Findable P c.map c.key := by
  obtain ⟨hash, hhash⟩ := Option.ne_none_iff_exists'.1 (h.hashed c hc)
  refine ⟨c, hash, hc, rfl, rfl, hstored, hhash, ?_⟩
  by_cases hr : ∃ r, c.key = .ref r
  · obtain ⟨r, hr⟩ := hr
    have hsettled : c.key.Settled c.heap := hs.keys _ hc
    rw [hr] at hsettled
    obtain ⟨o, hcell, -⟩ := hsettled
    have hnow := h.kept c hc hstored halive r o hr hcell
    rw [Insertion.hash, hr, Object.hash, hcell] at hhash
    rw [hr, Object.hash, hnow]
    simpa using hhash
  by_cases hb : ∃ d, c.key = .binary d
  · obtain ⟨d, hd⟩ := hb
    have hstatic := h.binary hs.steady c hc d hd
    obtain rfl : hash = t.binaryHash := Option.some.inj (hhash.symm.trans hstatic)
    rw [Insertion.hash, hd] at hhash
    rw [hd]
    exact binary_stable hhash
  · rw [← hhash, Insertion.hash]
    exact Object.hash_eq (fun r hk => hr ⟨r, hk⟩) (fun d hk => hb ⟨d, hk⟩) _ _ _ _

/-- **The keys of decoded maps stay findable**, in a call of `decode<Object>` behind any sequence of
successful ones: while every key that is inserted is settled, no hash is undefined, and once the
call has returned, every key of every map in the returned values has the hash under which it was
inserted. -/
theorem keys_findable {s s₁ : State UInt8 Tables} {values : List Object} (hs : s.aux.Fresh)
    (h : Decodes P s values s₁) :
    (∀ e s', decodeObject P s₁ = .fault e s' → s'.aux.Settled P → e ≠ .undefinedHash) ∧
    ∀ value s', decodeObject P s₁ = .ok value s' → s'.aux.Settled P →
      (∀ c, .insertion c ∈ s'.aux.events → c.hash P ≠ none) ∧
      ∀ i u es, .map i u es ∈ (values ++ [value]).flatMap Object.walk → ∀ e ∈ es,
        s'.aux.Findable P i e.1 := by
  have hrun := decodes_owns h (P := P) hs.sound
  refine ⟨fun e s' hfault hsettled he => ?_, fun value s' hok hsettled => ?_⟩
  · obtain ⟨c, hlast, hnone⟩ := decodeObject_owns.fault hfault he
    have hkey : c.key.Settled c.heap := hsettled.keys _ (List.mem_of_getLast? hlast)
    exact hkey.hash_ne_none _ hnone
  · obtain ⟨hs', ho⟩ := decodeObject_owns.ok hok hrun.1
    refine ⟨hs'.hashed, fun i u es hmap e he => ?_⟩
    have hcell : s'.aux.heap[i]? = some (.finished (.map i u es)) := by
      rw [List.flatMap_append, List.flatMap_singleton] at hmap
      exact ((hrun.2.trans (ho.mono hrun.2.le)).owned _ hmap i rfl).2
    obtain ⟨c, hc, rfl, hkey, -, hstored⟩ := hs'.inserted i i u es hcell e he
    rw [← hkey]
    exact hs'.findable hsettled hc hstored (by rw [hcell]; simp)

/-- A list, and behind it a map with a reference to the list as its key. -/
theorem keys_findable_ref : ∃ s₁ value value' s',
    Decodes .simple ⟨.ofList [0x78, 0x48, 0x51, 0x90, 0x91, 0x5a], .empty⟩ [value] s₁ ∧
      decodeObject .simple s₁ = .ok value' s' ∧ value'.refs = [0] ∧
      ∀ i u es, .map i u es ∈ ([value] ++ [value']).flatMap Object.walk → ∀ e ∈ es,
        s'.aux.Findable .simple i e.1 := by
  have hrun : (decodeObject .simple ⟨.ofList [0x78, 0x48, 0x51, 0x90, 0x91, 0x5a], .empty⟩).any
    (fun _ s₁ => (decodeObject .simple s₁).any fun value' s' =>
      value'.refs == [0] && decide (s'.aux.Settled .simple)) = true := by decide +kernel
  obtain ⟨value, s₁, h₁, hrun⟩ := Outcome.exists_of_any hrun
  obtain ⟨value', s', h, hv⟩ := Outcome.exists_of_any hrun
  rw [Bool.and_eq_true, beq_iff_eq, decide_eq_true_eq] at hv
  have hcalls := Decodes.cons h₁ (.nil s₁)
  exact ⟨s₁, value, value', s', hcalls, h, hv.1,
    ((keys_findable ⟨rfl, rfl, rfl⟩ hcalls).2 value' s' h hv.2).2⟩

/-- An instance whose field is a map with the instance as its key, and a list that holds a map with
the list as its key: the first hash is undefined, the second one changes with the length of the
list. -/
theorem keys_lost :
    (∃ s', decodeObject .simple ⟨.ofList [0x43, 0x01, 0x41, 0x91, 0x01, 0x62, 0x60, 0x48, 0x51, 0x90,
      0x91, 0x5a], .empty⟩ = .fault .undefinedHash s') ∧
    ∃ value s', decodeObject .simple ⟨.ofList [0x79, 0x48, 0x51, 0x90, 0x91, 0x5a], .empty⟩ =
      .ok value s' ∧ ∃ c, .insertion c ∈ s'.aux.events ∧ c.stored = true ∧
        (c.key.hash .simple s'.aux.heap s'.aux.binaryHash).map Prod.fst ≠ c.hash .simple := by
  constructor
  · exact Outcome.exists_of_fault? (by decide +kernel)
  · have hrun : (decodeObject .simple ⟨.ofList [0x79, 0x48, 0x51, 0x90, 0x91, 0x5a], .empty⟩).any
      (fun _ s' => s'.aux.events.any fun
        | .insertion c => c.stored && (c.key.hash .simple s'.aux.heap s'.aux.binaryHash).map Prod.fst
            != c.hash .simple
        | .reference _ => false) = true := by decide +kernel
    obtain ⟨value, s', h, hv⟩ := Outcome.exists_of_any hrun
    obtain ⟨event, hevent, hv⟩ := List.any_eq_true.1 hv
    cases event with
    | insertion c =>
      rw [Bool.and_eq_true, bne_iff_ne] at hv
      exact ⟨value, s', h, c, hevent, hv⟩
    | reference r => cases hv

end Hessian2
