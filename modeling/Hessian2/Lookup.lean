import Hessian2.NodeMap
import Hessian2.Progress

/-!
# Lookup in a map object

`get` of `UntypedMapObject` and `TypedMapObject`, which asks the hash map for a string without making
a `StringObject` of it.

* `MapObject` : the two classes of map objects while they are filled.
* `objectQuery`, `viewQuery` : the two overloads of `ObjectHasher` and `ObjectEqual`.
* `MapObject.Find`, `MapObject.Get` : what the lookups return.
* `Filled` : the calls of `emplace` on a map object.
* `readEntries_filled` : the hash maps that a decoder fills are among them.
* `get_first` : **`get` returns the value of the first pair with the string as its key**, as a lookup
  of a `StringObject` does.
-/

namespace Hessian2

open NodeMap Parsing Parsing.Parser

variable {P : Platform} {ν : Type}

/-- `UntypedMapObject`, and with a type name `TypedMapObject`; its values are known by what `ν` says
of them. -/
structure MapObject (ν : Type) where
  typeName : Option Bytes
  /-- The hash map. -/
  data : List (Node UInt64 Object ν)

/-- `ObjectEqual` of a key and a `string_view`. -/
def equalView (left : Object) (right : Bytes) : Bool :=
  match left with
  | .string data => data == right
  | _ => false

/-- `ObjectHasher` and `ObjectEqual` of an object, given its hash. -/
def objectQuery (hash : UInt64) (key : Object) : Query UInt64 Object where
  hash := hash
  equal left := left.equal key

/-- `ObjectHasher` and `ObjectEqual` of a `string_view`. -/
def viewQuery (P : Platform) (key : Bytes) : Query UInt64 Object where
  hash := P.stringViewHash key
  equal left := equalView left key

/-- The key may be looked up by the query: its hash is defined, whatever the memory and the static
variable of `BinaryObject::hash` are at the time. -/
def AsksFor (P : Platform) (key : Object) (q : Query UInt64 Object) : Prop :=
  ∃ heap static hash static', key.hash P heap static = some (hash, static') ∧
    q = objectQuery hash key

namespace MapObject

/-- `emplace`. -/
def Emplace (P : Platform) (key : Object) (value : ν) (m m' : MapObject ν) : Prop :=
  ∃ q, AsksFor P key q ∧ Emplaces q key value m.data m'.data ∧ m'.typeName = m.typeName

/-- `find` of a key, and the value of what is found. -/
def Find (P : Platform) (m : MapObject ν) (key : Object) (result : Option ν) : Prop :=
  ∃ q, AsksFor P key q ∧ ∃ node, Finds m.data q node ∧ result = node.map Node.value

/-- `get`. -/
def Get (P : Platform) (m : MapObject ν) (key : Bytes) (result : Option ν) : Prop :=
  ∃ node, Finds m.data (viewQuery P key) node ∧ result = node.map Node.value

end MapObject

/-- The map object after these calls of `emplace`. -/
inductive Filled (P : Platform) : List (Object × ν) → MapObject ν → Prop where
  | new (typeName : Option Bytes) : Filled P [] ⟨typeName, []⟩
  | emplace {calls : List (Object × ν)} {m m' : MapObject ν} {key : Object} {value : ν}
    (h : Filled P calls m) (he : m.Emplace P key value m') : Filled P (calls ++ [(key, value)]) m'

/-- Only the string itself is equal to a string. -/
theorem equalView_iff {o : Object} {s : Bytes} : equalView o s = true ↔ o = .string s := by
  cases o <;> simp [equalView]

theorem equal_string (o : Object) (s : Bytes) : o.equal (.string s) = equalView o s := by
  cases o <;> rfl

/-- A `StringObject` is looked up as its contents are. -/
theorem asksFor_string_iff {s : Bytes} {q : Query UInt64 Object} :
    AsksFor P (.string s) q ↔ q = viewQuery P s := by
  have hquery : objectQuery (P.stringViewHash s) (.string s) = viewQuery P s :=
    Query.ext rfl (funext fun o => equal_string o s)
  constructor
  · rintro ⟨heap, static, hash, static', hhash, rfl⟩
    cases hhash
    exact hquery
  · rintro rfl
    exact ⟨[], 0, _, 0, rfl, hquery.symm⟩

theorem viewQuery_faithful (s : Bytes) : (viewQuery P s).Faithful (AsksFor P) := by
  intro key q hkey hq
  obtain rfl := equalView_iff.1 hkey
  exact asksFor_string_iff.1 hq

theorem Filled.built {calls : List (Object × ν)} {m : MapObject ν} (h : Filled P calls m) :
    Built (AsksFor P) calls m.data := by
  induction h with
  | new => exact .empty
  | emplace h he ih =>
    obtain ⟨q, hq, he, -⟩ := he
    exact .emplace ih hq he

/-- Only references may have no hash, so that every call of `emplace` with another key returns. -/
theorem exists_filled (typeName : Option Bytes) {calls : List (Object × ν)}
    (h : ∀ c ∈ calls, c.1.target? = none) :
    ∃ m : MapObject ν, Filled P calls m ∧ m.typeName = typeName := by
  induction calls using List.reverseRecOn with
  | nil => exact ⟨_, .new typeName, rfl⟩
  | append_singleton calls c ih =>
    obtain ⟨m, hm, htype⟩ := ih fun c' hc' => h c' (List.mem_append_left _ hc')
    have hkey : ∃ q, AsksFor P c.1 q := by
      have hc := h c (List.mem_append_right _ List.mem_cons_self)
      cases hk : c.1.hash P [] 0 with
      | some r => exact ⟨_, [], 0, r.1, r.2, hk, rfl⟩
      | none =>
        cases hkind : c.1 <;> rw [hkind] at hc hk <;> cases hc <;> cases hk
    obtain ⟨q, hq⟩ := hkey
    obtain ⟨node, hfind⟩ := exists_finds m.data q
    cases node with
    | none => exact ⟨⟨m.typeName, _⟩, .emplace hm ⟨q, hq, .stored hfind, rfl⟩, htype⟩
    | some n => exact ⟨⟨m.typeName, m.data⟩, .emplace hm ⟨q, hq, .kept hfind, rfl⟩, htype⟩

/-! ### The maps of a decoder -/

/-- An entry of the hash map of a decoder. -/
def Slot.node (slot : Slot) : Node UInt64 Object Object := ⟨slot.hash, slot.key, slot.value⟩

/-- `emplace` as a decoder calls it. -/
theorem emplace_emplaces {result : ObjId} {slots slots' : List Slot} {key value : Object}
    {s s' : State UInt8 Tables} (h : Dec.emplace P result slots key value s = .ok slots' s') :
    ∃ q, AsksFor P key q ∧
      Emplaces q key value (slots.map Slot.node) (slots'.map Slot.node) := by
  obtain ⟨hash, static, hhash, -, ⟨hfind, rfl, -⟩ | ⟨hfind, rfl, -⟩⟩ := emplace_ok h
  · refine ⟨objectQuery hash key, ⟨_, _, _, _, hhash, rfl⟩, ?_⟩
    rw [List.map_append]
    refine .stored (.missing fun n hn hacc => ?_)
    obtain ⟨slot, hslot, rfl⟩ := List.mem_map.1 hn
    rw [findsKey, List.any_eq_false] at hfind
    exact hfind slot hslot (by simpa [Query.Accepts, Slot.node, objectQuery] using hacc)
  · refine ⟨objectQuery hash key, ⟨_, _, _, _, hhash, rfl⟩, ?_⟩
    obtain ⟨slot, hslot, hacc⟩ := List.any_eq_true.1 hfind
    refine .kept (.found (List.mem_map_of_mem hslot) ?_)
    rw [Bool.and_eq_true, beq_iff_eq] at hacc
    exact hacc

/-- A turn of the loop over the entries ends it or calls `emplace`. -/
theorem readEntriesStep_emplaces {self : Dec Object} {result : ObjId} {slots : List Slot}
    {r : List Slot ⊕ List Slot} {s s' : State UInt8 Tables}
    (h : readEntriesStep P self result slots s = .ok r s') :
    r = .inr slots ∨ ∃ slots', r = .inl slots' ∧ ∃ key value q, AsksFor P key q ∧
      Emplaces q key value (slots.map Slot.node) (slots'.map Slot.node) := by
  rw [readEntriesStep_eq] at h
  rcases hu : s.cursor.unread with _ | ⟨b, bs⟩
  · rw [ahead_of_nil hu] at h
    cases h
  rw [ahead_of_cons hu] at h
  split at h
  · obtain ⟨b', s₁, -, h⟩ := bind_eq_ok.1 h
    cases h
    exact .inl rfl
  · obtain ⟨key, s₁, -, h⟩ := bind_eq_ok.1 h
    obtain ⟨value, s₂, -, h⟩ := bind_eq_ok.1 h
    obtain ⟨slots', s₃, hemplace, h⟩ := bind_eq_ok.1 h
    cases h
    exact .inr ⟨slots', rfl, key, value, emplace_emplaces hemplace⟩

/-- **The map of a decoder is filled by calls of `emplace`.** -/
theorem readEntries_filled {self : Dec Object} {result : ObjId} {entries : List (Object × Object)}
    {s s' : State UInt8 Tables} (h : readEntries P self result s = .ok entries s') :
    ∃ calls m, Filled P calls m ∧ entries = m.data.map Node.pair := by
  obtain ⟨slots, s₁, hloop, h⟩ := bind_eq_ok.1 h
  cases h
  -- the loop goes on from any map that has been filled
  have hrun := iter_ok_induct (Q := fun slots _ slots' _ => ∀ calls m, Filled P calls m →
    m.data = slots.map Slot.node → ∃ calls' m', Filled P calls' m' ∧
      m'.data = slots'.map Slot.node) ?_ ?_ hloop
  · obtain ⟨calls, m, hm, hdata⟩ := hrun [] ⟨none, []⟩ (.new none) rfl
    refine ⟨calls, m, hm, ?_⟩
    rw [hdata, List.map_map]
    rfl
  · rintro slots s j s₁ slots' s' hstep ih calls m hm hdata
    obtain hj | ⟨slots₁, hj, key, value, q, hq, he⟩ := readEntriesStep_emplaces hstep
    · cases hj
    · cases hj
      have hemplace : m.Emplace P key value ⟨m.typeName, j.map Slot.node⟩ :=
        ⟨q, hq, hdata.symm ▸ he, rfl⟩
      exact ih _ _ (.emplace hm hemplace) rfl
  · rintro slots s slots' s' hstep calls m hm hdata
    obtain hj | ⟨slots₁, hj, -⟩ := readEntriesStep_emplaces hstep
    · cases hj
      exact ⟨calls, m, hm, hdata⟩
    · cases hj

/-! ### Lookup -/

/-- `get` and `find` of a `StringObject` are the same lookup. -/
theorem MapObject.get_iff_find {m : MapObject ν} {s : Bytes} {result : Option ν} :
    m.Get P s result ↔ m.Find P (.string s) result := by
  constructor
  · intro h
    exact ⟨viewQuery P s, asksFor_string_iff.2 rfl, h⟩
  · rintro ⟨q, hq, h⟩
    obtain rfl := asksFor_string_iff.1 hq
    exact h

/-- `get` returns one result, that of the first pair with the string as its key. -/
theorem Filled.get_iff {calls : List (Object × ν)} {m : MapObject ν} (h : Filled P calls m)
    {s : Bytes} {result : Option ν} :
    m.Get P s result ↔ result = (calls.find? fun c => equalView c.1 s).map Prod.snd := by
  have hfirst {node : Option (Node UInt64 Object ν)} (hfind : Finds m.data (viewQuery P s) node) :
      node.map Node.value = (calls.find? fun c => equalView c.1 s).map Prod.snd := by
    have hpair := h.built.find_eq (viewQuery_faithful s) hfind
    have hvalue := congrArg (Option.map Prod.snd) hpair
    rw [Option.map_map] at hvalue
    exact hvalue
  constructor
  · rintro ⟨node, hfind, rfl⟩
    exact hfirst hfind
  · rintro rfl
    obtain ⟨node, hfind⟩ := exists_finds m.data (viewQuery P s)
    exact ⟨node, hfind, (hfirst hfind).symm⟩

/-- **Lookup by a string is lookup by a key object**, and returns the value of the first pair with
the string as its key, whatever the other keys and hashes are. -/
theorem get_first (P : Platform) {ν : Type} {calls : List (Object × ν)} {m : MapObject ν}
    (h : Filled P calls m) (s : Bytes) :
    (∀ value, m.Get P s (some value) ↔ ∃ earlier later,
      calls = earlier ++ (.string s, value) :: later ∧ ∀ c ∈ earlier, c.1 ≠ .string s) ∧
    (m.Get P s none ↔ ∀ c ∈ calls, c.1 ≠ .string s) ∧
    ∀ result, m.Get P s result ↔ m.Find P (.string s) result := by
  have hnot (c : Object × ν) : (!equalView c.1 s) = true ↔ c.1 ≠ .string s := by
    rw [Bool.not_eq_true', ← Bool.not_eq_true, equalView_iff]
  refine ⟨fun value => ?_, ?_, fun result => MapObject.get_iff_find⟩
  · rw [h.get_iff, eq_comm, Option.map_eq_some_iff]
    constructor
    · rintro ⟨c, hc, rfl⟩
      obtain ⟨hkey, earlier, later, hcalls, hearlier⟩ := List.find?_eq_some_iff_append.1 hc
      refine ⟨earlier, later, ?_, fun c hc => (hnot c).1 (hearlier c hc)⟩
      rw [hcalls, ← equalView_iff.1 hkey]
    · rintro ⟨earlier, later, hcalls, hearlier⟩
      refine ⟨(.string s, value), List.find?_eq_some_iff_append.2 ⟨equalView_iff.2 rfl, ?_⟩, rfl⟩
      exact ⟨earlier, later, hcalls, fun c hc => (hnot c).2 (hearlier c hc)⟩
  · rw [h.get_iff, eq_comm, Option.map_eq_none_iff, List.find?_eq_none]
    simp only [Bool.not_eq_true, ← Bool.not_eq_true', hnot]

/-- An integer with the hash of the string, and the string twice. -/
theorem get_first_twice : ∃ m : MapObject ℕ,
    Filled .simple [(.integer 1, 5), (.string [0x61], 7), (.string [0x61], 8)] m ∧
      m.Get .simple [0x61] (some 7) := by
  have hinteger : AsksFor .simple (.integer 1) (objectQuery 1 (.integer 1)) :=
    ⟨[], 0, 1, 0, rfl, rfl⟩
  have hstring : AsksFor .simple (.string [0x61]) (viewQuery .simple [0x61]) :=
    asksFor_string_iff.2 rfl
  have h₁ : Filled .simple [(.integer 1, 5)] ⟨none, [⟨1, .integer 1, 5⟩]⟩ :=
    .emplace (.new none) ⟨_, hinteger, .stored (.missing nofun), rfl⟩
  have h₂ : Filled .simple [(.integer 1, 5), (.string [0x61], 7)]
      ⟨none, [⟨1, .integer 1, 5⟩, ⟨1, .string [0x61], 7⟩]⟩ :=
    .emplace h₁ ⟨_, hstring, .stored (.missing (by simp [Query.Accepts, viewQuery, equalView])), rfl⟩
  have h₃ : Filled .simple [(.integer 1, 5), (.string [0x61], 7), (.string [0x61], 8)]
      ⟨none, [⟨1, .integer 1, 5⟩, ⟨1, .string [0x61], 7⟩]⟩ :=
    .emplace h₂ ⟨_, hstring, .kept (.found (n := ⟨1, .string [0x61], 7⟩) (by simp) ⟨rfl, rfl⟩), rfl⟩
  exact ⟨_, h₃, ((get_first .simple h₃ [0x61]).1 7).2 ⟨[(.integer 1, 5)], _, rfl, by simp⟩⟩

end Hessian2
