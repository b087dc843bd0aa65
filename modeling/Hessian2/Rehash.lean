import Hessian2.Equality
import Hessian2.KeyHash

/-!
# Hashing in a running program

The calls of `Object::hash` in a program, which share the static variable of `BinaryObject::hash`.

* `Object.ownHash` : what a program returns that hashes nothing else.
* `HashRun` : the calls of a program so far.
* `Coherent` : the calls return what the contents of the objects say, equal objects have equal
  hashes, and keys are found again.
* `Object.Outlasts` : binary data that follow other binary data.
* `hash_coherent` : **the calls are coherent if all binary data among the objects are the same and
  equal typed maps are of the same size.**
-/

namespace Hessian2

variable {P : Platform} {S : Set Object}

/-- The hash of an object in a program that hashes nothing else. -/
def Object.ownHash (P : Platform) (o : Object) : Option UInt64 := (o.hash P [] 0).map Prod.fst

/-- The calls of `hash` of a program so far, each with what it returned, and the static variable of
`BinaryObject::hash`. -/
inductive HashRun (P : Platform) : List (Object × UInt64) → UInt64 → Prop
  | start : HashRun P [] 0
  | call {calls : List (Object × UInt64)} {static static' : UInt64} {o : Object} {hash : UInt64}
      (heap : Heap) : HashRun P calls static → o.hash P heap static = some (hash, static') →
        HashRun P (calls ++ [(o, hash)]) static'

/-- Hashing is stable and coherent with equality. -/
structure Coherent (P : Platform) (calls : List (Object × UInt64)) : Prop where
  own : ∀ c ∈ calls, c.1.ownHash P = some c.2
  stable : ∀ c ∈ calls, ∀ c' ∈ calls, c.1 = c'.1 → c.2 = c'.2
  equal : ∀ c ∈ calls, ∀ c' ∈ calls, c.1.equal c'.1 = true → c.2 = c'.2
  /-- A key that was inserted under its hash is found under the hash that it has now. -/
  found : ∀ c ∈ calls, ∀ c' ∈ calls, c.1 = c'.1 → ∀ slots value, Slot.mk c.2 c.1 value ∈ slots →
    findsKey slots c'.2 c'.1 = true

/-- Where the first object is non-empty binary data, the second one has the same data, if any. -/
def Object.Outlasts (a b : Object) : Prop :=
  ∀ d d', a = .binary d → b = .binary d' → d = [] ∨ d = d'

/-- Typed maps that are equal have as many entries. -/
def SizesAgree (objects : List Object) : Prop :=
  ∀ i j t es fs, .typedMap i t es ∈ objects → .typedMap j t fs ∈ objects →
    (Object.typedMap i t es).equal (.typedMap j t fs) = true → es.length = fs.length

/-! ### One call -/

/-- Only binary data look at the static variable. -/
theorem Object.hash_eq_ownHash {o : Object} (hr : o.target? = none) (hb : ∀ d, o ≠ .binary d)
    (heap : Heap) (static : UInt64) :
    o.hash P heap static = (o.ownHash P).map fun hash => (hash, static) := by
  cases o with
  | ref r => cases hr
  | binary d => exact absurd rfl (hb d)
  | _ => rfl

/-- Equal objects have the same own hash, unless they are typed maps of different sizes. -/
theorem Object.ownHash_eq_of_equal {a b : Object} (hr : a.target? = none)
    (hd : ∀ bits, a ≠ .double bits) (h : a.equal b = true)
    (hsize : ∀ i j t es fs, a = .typedMap i t es → b = .typedMap j t fs → es.length = fs.length) :
    a.ownHash P = b.ownHash P := by
  cases a with
  | ref r => cases hr
  | double bits => exact absurd rfl (hd bits)
  | list i t xs =>
    cases b with
    | list j u ys =>
      obtain ⟨rfl, hvalues⟩ := equal_list_iff.1 h
      rw [ownHash, ownHash, hash, hash, hvalues.length_eq]
    | _ => cases h
  | classInstance i c xs =>
    cases b with
    | classInstance j d ys =>
      obtain ⟨rfl, hvalues⟩ := equal_classInstance_iff.1 h
      rw [ownHash, ownHash, hash, hash, hvalues.length_eq]
    | _ => cases h
  | map i t es =>
    cases b with
    | map j u fs =>
      have hname : t = u := by
        rw [equal, equalAs, Bool.and_eq_true, Bool.and_eq_true, beq_iff_eq] at h
        exact h.1.1
      subst hname
      have hlength : es.length = fs.length := by
        cases t with
        | none => exact (equal_untypedMap_iff.1 h).1
        | some t => exact hsize i j t es fs rfl rfl
      rw [ownHash, ownHash, hash, hash, hlength]
    | _ => cases h
  | _ => cases b <;> simp_all [equal, equalAs]

/-! ### All calls -/

/-- **Step lemma.** While the binary data among the objects are the same, every call returns the own
hash of its object, and what the static variable holds is the hash of these data. -/
theorem HashRun.own {calls : List (Object × UInt64)} {static : UInt64} (h : HashRun P calls static)
    (href : ∀ c ∈ calls, c.1.target? = none) (hlast : (calls.map Prod.fst).Pairwise Object.Outlasts) :
    (∀ c ∈ calls, c.1.ownHash P = some c.2) ∧
      (static = 0 ∨ ∃ d, d ≠ [] ∧ .binary d ∈ calls.map Prod.fst ∧ static = binaryHash P d) := by
  induction h with
  | start => exact ⟨nofun, .inl rfl⟩
  | @call calls static static' o hash heap _ hhash ih =>
    rw [List.forall_mem_append, List.forall_mem_singleton] at href
    rw [List.map_append, List.map_singleton, List.pairwise_append] at hlast
    obtain ⟨hown, hstatic⟩ := ih href.1 hlast.1
    rw [List.map_append, List.map_singleton, List.forall_mem_append, List.forall_mem_singleton]
    by_cases hb : ∃ d, o = .binary d
    · obtain ⟨d, rfl⟩ := hb
      -- If the static variable is set, it was by the same data.
      have hcall : hash = binaryHash P d ∧ static' = binaryHash P d := by
        rw [Object.hash] at hhash
        split at hhash
        · next hset =>
          obtain ⟨d', hd', hmem, rfl⟩ := hstatic.resolve_left hset
          have hsame := hlast.2.2 _ hmem _ List.mem_cons_self d' d rfl rfl
          rw [hsame.resolve_left hd'] at hhash
          simpa [eq_comm] using hhash
        · simpa [eq_comm] using hhash
      obtain ⟨rfl, rfl⟩ := hcall
      refine ⟨⟨hown, rfl⟩, ?_⟩
      by_cases hd : d = []
      · rw [hd]
        exact .inl rfl
      · exact .inr ⟨d, hd, List.mem_append_right _ List.mem_cons_self, rfl⟩
    · rw [Object.hash_eq_ownHash href.2 (fun d hd => hb ⟨d, hd⟩), Option.map_eq_some_iff] at hhash
      obtain ⟨hash', hown', hpair⟩ := hhash
      obtain ⟨rfl, rfl⟩ := Prod.mk.inj hpair
      refine ⟨⟨hown, hown'⟩, hstatic.imp_right ?_⟩
      rintro ⟨d, hd, hmem, hval⟩
      exact ⟨d, hd, List.mem_append_left _ hmem, hval⟩

/-- **Hashing is stable and coherent with equality** in every run of a program that hashes trees,
among them no other binary data behind non-empty ones, and no equal typed maps of different
sizes. -/
theorem hash_coherent (h : Trees S) {calls : List (Object × UInt64)} {static : UInt64}
    (hrun : HashRun P calls static) (hmem : ∀ c ∈ calls, c.1 ∈ S)
    (hlast : (calls.map Prod.fst).Pairwise Object.Outlasts)
    (hsizes : SizesAgree (calls.map Prod.fst)) : Coherent P calls := by
  obtain ⟨hown, -⟩ := hrun.own (fun c hc => (h.leaves c.1 (hmem c hc)).1) hlast
  have hstable : ∀ c ∈ calls, ∀ c' ∈ calls, c.1 = c'.1 → c.2 = c'.2 := by
    intro c hc c' hc' hsame
    have hown' := hown c' hc'
    rw [← hsame, hown c hc] at hown'
    exact Option.some.inj hown'
  refine ⟨hown, hstable, fun c hc c' hc' hequal => ?_, fun c hc c' hc' hsame slots value hslot => ?_⟩
  · have hleaf := h.leaves c.1 (hmem c hc)
    have hsize : ∀ i j t es fs, c.1 = .typedMap i t es → c'.1 = .typedMap j t fs →
        es.length = fs.length := fun i j t es fs hes hfs =>
      hsizes i j t es fs (hes ▸ List.mem_map_of_mem hc) (hfs ▸ List.mem_map_of_mem hc')
        (hes ▸ hfs ▸ hequal)
    have hhash := Object.ownHash_eq_of_equal (P := P) hleaf.1 hleaf.2 hequal hsize
    rw [hown c hc, hown c' hc'] at hhash
    exact Option.some.inj hhash
  · refine List.any_eq_true.2 ⟨_, hslot, ?_⟩
    rw [Bool.and_eq_true, beq_iff_eq]
    exact ⟨hstable c hc c' hc' hsame, hsame ▸ h.equal_self c.1 (hmem c hc)⟩

/-- Two typed maps, the second of which is smaller. -/
private def typedMaps : List Object := [.typedMap 0 [84] [(.null, .null)], .typedMap 1 [84] []]

/-- Empty binary data before and after others. -/
private def binaries : List Object := [.binary [], .binary [1], .binary []]

private theorem trees_typedMaps : Trees {x | ∃ o ∈ typedMaps, x ∈ o.walk} :=
  .of_walk (by simp [typedMaps, Object.walk, Object.walkEntries, Object.target?])
    (by simp [typedMaps, Object.walk, Object.walkEntries, Object.KeysApart])

private theorem trees_binaries : Trees {x | ∃ o ∈ binaries, x ∈ o.walk} :=
  .of_walk (by simp [binaries, Object.walk, Object.target?])
    (by simp [binaries, Object.walk, Object.KeysApart])

/-- A key that is hashed again behind empty and other binary data. -/
theorem hash_coherent_binary : ∃ calls static, HashRun .simple calls static ∧
    calls.map Prod.fst = [.binary [], .binary [1], .null, .binary [1]] ∧ Coherent .simple calls := by
  have hrun := HashRun.start (P := .simple) |>.call (o := .binary []) [] rfl
    |>.call (o := .binary [1]) [] rfl |>.call (o := .null) [] rfl |>.call (o := .binary [1]) [] rfl
  have htrees : Trees {x | ∃ o ∈ [.binary [], .binary [1], .null], x ∈ Object.walk o} :=
    .of_walk (by simp [Object.walk, Object.target?]) (by simp [Object.walk, Object.KeysApart])
  refine ⟨_, _, hrun, rfl, hash_coherent htrees hrun ?_ ?_ ?_⟩
  · simp [Object.walk]
  · simp [Object.Outlasts]
  · simp [SizesAgree]

/-- The empty binary data first hash to zero, then to what the other data have hashed to.  The typed
maps are equal, their hashes are not. -/
theorem hash_not_coherent :
    (Trees {x | ∃ o ∈ binaries, x ∈ o.walk} ∧ ∃ calls static, HashRun .simple calls static ∧
      calls.map Prod.fst = binaries ∧ ¬ Coherent .simple calls) ∧
    Trees {x | ∃ o ∈ typedMaps, x ∈ o.walk} ∧ ∃ calls static, HashRun .simple calls static ∧
      calls.map Prod.fst = typedMaps ∧ ¬ Coherent .simple calls := by
  have hbinaries := HashRun.start (P := .simple) |>.call (o := .binary []) [] rfl
    |>.call (o := .binary [1]) [] rfl |>.call (o := .binary []) [] rfl
  have hmaps := HashRun.start (P := .simple)
    |>.call (o := .typedMap 0 [84] [(.null, .null)]) [] rfl |>.call (o := .typedMap 1 [84] []) [] rfl
  refine ⟨⟨trees_binaries, _, _, hbinaries, rfl, fun h => ?_⟩, trees_typedMaps, _, _, hmaps, rfl,
    fun h => ?_⟩
  · have hsame := h.stable (.binary [], binaryHash .simple []) (by simp)
      (.binary [], binaryHash .simple [1]) (List.mem_append_right _ List.mem_cons_self) rfl
    revert hsame
    decide
  · have hsame := h.equal (.typedMap 0 [84] [(.null, .null)], mapHash .simple (some [84]) 1)
      (List.mem_append_left _ List.mem_cons_self) (.typedMap 1 [84] [], mapHash .simple (some [84]) 0)
      (List.mem_append_right _ List.mem_cons_self) rfl
    revert hsame
    decide

end Hessian2
