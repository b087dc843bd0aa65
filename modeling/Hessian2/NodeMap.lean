import Mathlib.Data.List.Basic
import Mathlib.Tactic.Common

/-!
# Hash maps with transparent lookup

A hash map that can be asked for its keys, and for anything else that has a hash and can be compared
with a key.  Where it keeps its nodes is left open: a lookup returns some node with the right hash
that compares equal, if there is one.

* `Query` : what a map is asked for.
* `Finds`, `Emplaces` : lookup and insertion.
* `Built` : a map and the pairs that were given to it, in their order.
* `Query.Faithful` : every key that the query accepts is itself looked up by this query.
* `Built.find_eq` : **a faithful query finds the first pair it accepts.**
-/

namespace NodeMap

variable {η κ ν : Type*}

/-- A stored pair, with the hash under which it was stored. -/
structure Node (η κ ν : Type*) where
  hash : η
  key : κ
  value : ν

/-- What a map is asked for: a hash, and which keys are equal to it. -/
@[ext] structure Query (η κ : Type*) where
  hash : η
  equal : κ → Bool

/-- The node is one that the query may return. -/
def Query.Accepts (q : Query η κ) (n : Node η κ ν) : Prop := n.hash = q.hash ∧ q.equal n.key = true

/-- What a lookup returns. -/
inductive Finds (nodes : List (Node η κ ν)) (q : Query η κ) : Option (Node η κ ν) → Prop where
  | found {n : Node η κ ν} (hn : n ∈ nodes) (h : q.Accepts n) : Finds nodes q (some n)
  | missing (h : ∀ n ∈ nodes, ¬ q.Accepts n) : Finds nodes q none

/-- An insertion of a pair that is looked up by `q`: of two equal keys the first one stays. -/
inductive Emplaces (q : Query η κ) (key : κ) (value : ν) (nodes : List (Node η κ ν)) :
    List (Node η κ ν) → Prop where
  | stored (h : Finds nodes q none) : Emplaces q key value nodes (nodes ++ [⟨q.hash, key, value⟩])
  | kept {n : Node η κ ν} (h : Finds nodes q (some n)) : Emplaces q key value nodes nodes

variable {asks : κ → Query η κ → Prop}

/-- The nodes of a map to which these pairs were given, where a key may be looked up by any query
that it `asks`. -/
inductive Built (asks : κ → Query η κ → Prop) : List (κ × ν) → List (Node η κ ν) → Prop where
  | empty : Built asks [] []
  | emplace {pairs : List (κ × ν)} {nodes nodes' : List (Node η κ ν)} {key : κ} {value : ν}
    {q : Query η κ} (h : Built asks pairs nodes) (hq : asks key q)
    (he : Emplaces q key value nodes nodes') : Built asks (pairs ++ [(key, value)]) nodes'

/-- Every key that the query accepts is itself looked up by this query. -/
def Query.Faithful (asks : κ → Query η κ → Prop) (q : Query η κ) : Prop :=
  ∀ ⦃key q'⦄, q.equal key = true → asks key q' → q' = q

/-- Every lookup returns. -/
theorem exists_finds (nodes : List (Node η κ ν)) (q : Query η κ) : ∃ r, Finds nodes q r := by
  by_cases h : ∃ n ∈ nodes, q.Accepts n
  · obtain ⟨n, hn, hq⟩ := h
    exact ⟨some n, .found hn hq⟩
  · exact ⟨none, .missing fun n hn hq => h ⟨n, hn, hq⟩⟩

/-- The pair in a node. -/
def Node.pair (n : Node η κ ν) : κ × ν := (n.key, n.value)

/-- What is stored of the keys that a query accepts: the first pair, under the hash of the query. -/
structure Query.Represented (q : Query η κ) (pairs : List (κ × ν)) (nodes : List (Node η κ ν)) :
    Prop where
  node : ∀ n ∈ nodes, q.equal n.key = true →
    n.hash = q.hash ∧ pairs.find? (q.equal ·.1) = some n.pair
  pair : ∀ p ∈ pairs, q.equal p.1 = true → ∃ n ∈ nodes, q.equal n.key = true

/-- **Step lemma.** Insertions keep what is stored of the keys that a faithful query accepts. -/
theorem Built.represented {q : Query η κ} (hq : q.Faithful asks) {pairs : List (κ × ν)}
    {nodes : List (Node η κ ν)} (h : Built asks pairs nodes) : q.Represented pairs nodes := by
  induction h with
  | empty => exact ⟨nofun, nofun⟩
  | @emplace pairs nodes nodes' key value q' h hkey he ih =>
    -- the first pair for a key stays the first
    have hold (n : Node η κ ν) (hn : n ∈ nodes) (hacc : q.equal n.key = true) :
        n.hash = q.hash ∧ (pairs ++ [(key, value)]).find? (q.equal ·.1) = some n.pair := by
      obtain ⟨hhash, hfirst⟩ := ih.node n hn hacc
      exact ⟨hhash, by rw [List.find?_append, hfirst, Option.some_or]⟩
    cases he with
    | stored hfind =>
      have hnone : ∀ n ∈ nodes, ¬ q'.Accepts n := by
        cases hfind with
        | missing hnone => exact hnone
      refine ⟨fun n hn hacc => ?_, fun p hp hacc => ?_⟩
      · obtain hn | hn := List.mem_append.1 hn
        · exact hold n hn hacc
        -- the new key is accepted, so there was none before it
        · obtain rfl := List.mem_singleton.1 hn
          obtain rfl := hq hacc hkey
          have hfirst : pairs.find? (q'.equal ·.1) = none := by
            refine List.find?_eq_none.2 fun p hp hacc' => ?_
            obtain ⟨n, hn, hacc'⟩ := ih.pair p hp hacc'
            exact hnone n hn ⟨(ih.node n hn hacc').1, hacc'⟩
          refine ⟨rfl, ?_⟩
          rw [List.find?_append, hfirst, Option.none_or]
          exact List.find?_cons_of_pos hacc
      · obtain hp | hp := List.mem_append.1 hp
        · obtain ⟨n, hn, hacc'⟩ := ih.pair p hp hacc
          exact ⟨n, List.mem_append_left _ hn, hacc'⟩
        · obtain rfl := List.mem_singleton.1 hp
          exact ⟨_, List.mem_append_right _ List.mem_cons_self, hacc⟩
    -- a node with an equal key is there, from an older pair
    | @kept n hfind =>
      refine ⟨hold, fun p hp hacc => ?_⟩
      obtain hp | hp := List.mem_append.1 hp
      · exact ih.pair p hp hacc
      · obtain rfl := List.mem_singleton.1 hp
        obtain rfl := hq hacc hkey
        cases hfind with
        | found hn hacc' => exact ⟨n, hn, hacc'.2⟩

/-- **A faithful query finds the first pair it accepts.** -/
theorem Built.find_eq {q : Query η κ} (hq : q.Faithful asks) {pairs : List (κ × ν)}
    {nodes : List (Node η κ ν)} (h : Built asks pairs nodes) {r : Option (Node η κ ν)}
    (hr : Finds nodes q r) : r.map Node.pair = pairs.find? (q.equal ·.1) := by
  have hrep := h.represented hq
  cases hr with
  | found hn hacc => exact (hrep.node _ hn hacc.2).2.symm
  | missing hnone =>
    refine (List.find?_eq_none.2 fun p hp hacc => ?_).symm
    obtain ⟨n, hn, hacc'⟩ := hrep.pair p hp hacc
    exact hnone n hn ⟨(hrep.node n hn hacc').1, hacc'⟩

end NodeMap
