import Mathlib.Data.List.Nodup
import Mathlib.Data.List.Infix
import Mathlib.Tactic.Common

/-!
# Numbering by first use

A table that numbers its keys in the order in which they are first entered, as formats do that
send a name in full once and by its number from then on.

* `KeyTable` : distinct keys; the number of a key is its position.
* `KeyTable.enter` : enter a key, unless it is there.
* `KeyTable.number?` : the number of a key.
* `KeyTable.enterAll` : enter a list of keys.  `KeyTable.keys_enterAll_sorted` says that from an
  empty table the keys come out in the order of their first occurrences.
-/

/-- Distinct keys, each numbered by its position. -/
@[ext] structure KeyTable (α : Type) where
  /-- The keys in the order in which they were entered. -/
  keys : List α
  nodup : keys.Nodup

namespace KeyTable

variable {α : Type}

/-- No keys. -/
def empty : KeyTable α := ⟨[], List.nodup_nil⟩

@[simp] theorem keys_empty : (empty : KeyTable α).keys = [] := rfl

/-- The number of keys. -/
def size (n : KeyTable α) : ℕ := n.keys.length

variable [DecidableEq α]

/-- Enter a key behind the others, unless it is there. -/
def enter (n : KeyTable α) (a : α) : KeyTable α :=
  if h : a ∈ n.keys then n
  else ⟨n.keys ++ [a], n.nodup.append (List.nodup_singleton a) (by simpa using h)⟩

/-- The number of a key. -/
def number? (n : KeyTable α) (a : α) : Option ℕ := n.keys.idxOf? a

/-- Enter keys one after the other. -/
def enterAll (n : KeyTable α) (as : List α) : KeyTable α := as.foldl enter n

theorem enter_of_mem {n : KeyTable α} {a : α} (h : a ∈ n.keys) : n.enter a = n := dif_pos h

theorem keys_enter_of_notMem {n : KeyTable α} {a : α} (h : a ∉ n.keys) :
    (n.enter a).keys = n.keys ++ [a] := by
  rw [enter, dif_neg h]

@[simp] theorem mem_keys_enter {n : KeyTable α} {a b : α} :
    b ∈ (n.enter a).keys ↔ b ∈ n.keys ∨ b = a := by
  by_cases h : a ∈ n.keys
  · rw [enter_of_mem h]
    exact ⟨.inl, fun hb => hb.elim id fun e => e ▸ h⟩
  · simp [keys_enter_of_notMem h]

theorem prefix_enter (n : KeyTable α) (a : α) : n.keys <+: (n.enter a).keys := by
  by_cases h : a ∈ n.keys
  · rw [enter_of_mem h]
  · rw [keys_enter_of_notMem h]
    exact List.prefix_append _ _

theorem number?_eq_none {n : KeyTable α} {a : α} : n.number? a = none ↔ a ∉ n.keys :=
  List.idxOf?_eq_none_iff

theorem isSome_number? {n : KeyTable α} {a : α} : (n.number? a).isSome ↔ a ∈ n.keys := by
  rw [Option.isSome_iff_ne_none, Ne, number?_eq_none, not_not]

theorem number?_eq_some {n : KeyTable α} {a : α} {i : ℕ} :
    n.number? a = some i ↔ n.keys[i]? = some a := by
  rw [number?, List.idxOf?, List.findIdx?_eq_some_iff_getElem]
  constructor
  · rintro ⟨hi, ha, -⟩
    rw [List.getElem?_eq_getElem hi, eq_of_beq ha]
  · intro h
    obtain ⟨hi, ha⟩ := List.getElem?_eq_some_iff.1 h
    refine ⟨hi, by simp [ha], fun j hj hja => ?_⟩
    have := n.nodup.getElem_inj_iff.1 ((eq_of_beq hja).trans ha.symm)
    omega

theorem number?_lt {n : KeyTable α} {a : α} {i : ℕ} (h : n.number? a = some i) : i < n.size :=
  (List.getElem?_eq_some_iff.1 (number?_eq_some.1 h)).1

theorem number?_inj {n : KeyTable α} {a b : α} {i : ℕ} (ha : n.number? a = some i)
    (hb : n.number? b = some i) : a = b := by
  rw [number?_eq_some] at ha hb
  exact Option.some.inj (ha.symm.trans hb)

/-- A number, once given, stays. -/
theorem number?_of_prefix {n m : KeyTable α} (h : n.keys <+: m.keys) {a : α} {i : ℕ}
    (ha : n.number? a = some i) : m.number? a = some i := by
  rw [number?_eq_some] at ha ⊢
  obtain ⟨r, hr⟩ := h
  rw [← hr, List.getElem?_append_left (List.getElem?_eq_some_iff.1 ha).1, ha]

theorem number?_enter_of_notMem {n : KeyTable α} {a : α} (h : a ∉ n.keys) :
    (n.enter a).number? a = some n.size := by
  rw [number?_eq_some, keys_enter_of_notMem h]
  simp [size]

theorem size_enter_of_notMem {n : KeyTable α} {a : α} (h : a ∉ n.keys) :
    (n.enter a).size = n.size + 1 := by
  simp [size, keys_enter_of_notMem h]

theorem size_le_size_enter (n : KeyTable α) (a : α) : n.size ≤ (n.enter a).size :=
  (n.prefix_enter a).length_le

/-! ### Renamed keys -/

section Renamed

variable {β : Type} [DecidableEq β] {n : KeyTable α} {m : KeyTable β} {f : α → β} {a : α}

/-- Renamed keys keep their numbers, as long as no other key gets the same name. -/
theorem number?_map (h : m.keys = n.keys.map f) (ha : ∀ b ∈ n.keys, f b = f a → b = a) :
    m.number? (f a) = n.number? a := by
  refine Option.ext fun i => ?_
  rw [number?_eq_some, number?_eq_some, h, List.getElem?_map, Option.map_eq_some_iff]
  constructor
  · rintro ⟨b, hb, hba⟩
    rw [hb, ha b (List.mem_of_getElem? hb) hba]
  · exact fun hi => ⟨a, hi, rfl⟩

theorem keys_enter_map (h : m.keys = n.keys.map f) (ha : ∀ b ∈ n.keys, f b = f a → b = a) :
    (m.enter (f a)).keys = (n.enter a).keys.map f := by
  by_cases hmem : a ∈ n.keys
  · rw [enter_of_mem hmem, enter_of_mem (h ▸ List.mem_map_of_mem hmem), h]
  · have hnew : f a ∉ m.keys := by
      rw [h, List.mem_map]
      rintro ⟨b, hb, hba⟩
      exact hmem (ha b hb hba ▸ hb)
    rw [keys_enter_of_notMem hmem, keys_enter_of_notMem hnew, h, List.map_append, List.map_singleton]

end Renamed

/-! ### Many keys -/

@[simp] theorem enterAll_nil (n : KeyTable α) : n.enterAll [] = n := rfl

@[simp] theorem enterAll_cons (n : KeyTable α) (a : α) (as : List α) :
    n.enterAll (a :: as) = (n.enter a).enterAll as := rfl

theorem enterAll_append (n : KeyTable α) (as bs : List α) :
    n.enterAll (as ++ bs) = (n.enterAll as).enterAll bs := List.foldl_append

theorem prefix_enterAll (n : KeyTable α) (as : List α) : n.keys <+: (n.enterAll as).keys := by
  induction as generalizing n with
  | nil => exact List.prefix_refl _
  | cons a as ih => exact (n.prefix_enter a).trans (ih _)

theorem size_enterAll_le (n : KeyTable α) (as : List α) :
    (n.enterAll as).size ≤ n.size + as.length := by
  induction as generalizing n with
  | nil => exact Nat.le_refl _
  | cons a as ih =>
    have hstep : (n.enter a).size ≤ n.size + 1 := by
      by_cases ha : a ∈ n.keys
      · rw [enter_of_mem ha]
        exact Nat.le_succ _
      · rw [size_enter_of_notMem ha]
    rw [enterAll_cons, List.length_cons]
    have hrest := ih (n.enter a)
    omega

theorem mem_keys_enterAll {n : KeyTable α} {as : List α} {b : α} :
    b ∈ (n.enterAll as).keys ↔ b ∈ n.keys ∨ b ∈ as := by
  induction as generalizing n with
  | nil => simp
  | cons a as ih => rw [enterAll_cons, ih, mem_keys_enter, List.mem_cons, or_assoc]

/-- Distinct new keys are all entered. -/
theorem keys_enterAll_of_nodup {n : KeyTable α} {as : List α} (h : (n.keys ++ as).Nodup) :
    (n.enterAll as).keys = n.keys ++ as := by
  induction as generalizing n with
  | nil => simp
  | cons a as ih =>
    have ha : a ∉ n.keys := fun hm => List.disjoint_of_nodup_append h hm List.mem_cons_self
    have hk := keys_enter_of_notMem ha
    rw [enterAll_cons, ih (by rw [hk]; simpa using h), hk, List.append_assoc, List.singleton_append]

/-- Entering known keys changes nothing. -/
theorem enterAll_of_forall_mem {n : KeyTable α} {as : List α} (h : ∀ a ∈ as, a ∈ n.keys) :
    n.enterAll as = n := by
  induction as with
  | nil => rfl
  | cons a as ih =>
    rw [List.forall_mem_cons] at h
    rw [enterAll_cons, enter_of_mem h.1, ih h.2]

/-- How many keys are entered does not depend on their order. -/
theorem size_enterAll_perm {as bs : List α} (h : as.Perm bs) :
    (empty.enterAll as).size = (empty.enterAll bs).size := by
  refine List.Perm.length_eq ((List.perm_ext_iff_of_nodup (nodup _) (nodup _)).2 fun a => ?_)
  rw [mem_keys_enterAll, mem_keys_enterAll, h.mem_iff]

/-- From an empty table, the keys stand in the order of their first occurrences. -/
theorem keys_enterAll_sorted (as : List α) :
    (empty.enterAll as).keys.Pairwise fun a b => as.idxOf a < as.idxOf b := by
  induction as using List.reverseRecOn with
  | nil => simp
  | append_singleton as a ih =>
    have hmem : ∀ b ∈ (empty.enterAll as).keys, b ∈ as := fun b hb => by
      simpa using mem_keys_enterAll.1 hb
    have hold : (empty.enterAll as).keys.Pairwise fun b c =>
        (as ++ [a]).idxOf b < (as ++ [a]).idxOf c := by
      refine ih.imp_of_mem fun {b c} hb hc h => ?_
      rwa [List.idxOf_append_of_mem (hmem b hb), List.idxOf_append_of_mem (hmem c hc)]
    rw [enterAll_append, enterAll_cons, enterAll_nil]
    by_cases ha : a ∈ (empty.enterAll as).keys
    · rwa [enter_of_mem ha]
    · have ha' : a ∉ as := fun h => ha (mem_keys_enterAll.2 (.inr h))
      rw [keys_enter_of_notMem ha, List.pairwise_append]
      refine ⟨hold, List.pairwise_singleton _ _, fun b hb c hc => ?_⟩
      rw [List.mem_singleton] at hc
      subst hc
      rw [List.idxOf_append_of_mem (hmem b hb), List.idxOf_append_of_notMem ha']
      have := List.idxOf_lt_length_of_mem (hmem b hb)
      omega

end KeyTable
