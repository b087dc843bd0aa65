import Hessian2.Silent

/-!
# The memory of a decoder

A decoder keeps the address of every container it starts, while the containers themselves are owned
by the values it returns, or are destroyed with a pair that a hash map does not store.

* `Insertion.dropped`, `Event.Spares` : what an insertion destroys, and that a reference does not
  come too late for it.
* `Event.Steady` : the hash of binary data does not change from one insertion to another.
* `Sound` : what holds of the memory and the events of a decoder at any time.
* `Owns` : what was created on the way from one state to another is owned by the given objects, or
  it has been destroyed.
* `Sound.allocate`, `Sound.finish`, `Sound.store`, `Sound.drop` : what a decoder does to its memory.
-/

namespace Hessian2

open Parsing Parsing.Parser

variable {α β : Type} {P : Platform}

/-! ### Events -/

/-- The containers that an insertion destroys. -/
def Insertion.dropped (c : Insertion) : List ObjId :=
  if c.stored then [] else c.key.containers ++ c.value.containers

/-- The hash of the key at the time of the insertion. -/
def Insertion.hash (P : Platform) (c : Insertion) : Option UInt64 :=
  (c.key.hash P c.heap c.binaryHash).map Prod.fst

/-- The first event does not destroy what the second one refers to. -/
def Event.Spares : Event → Event → Prop
  | .insertion c, .reference target => target ∉ c.dropped
  | _, _ => True

/-- `BinaryObject`. -/
def Object.isBinary : Object → Bool
  | .binary _ => true
  | _ => false

/-- Where the first event hashes binary data to zero, the second one does so too. -/
def Event.Steady (P : Platform) : Event → Event → Prop
  | .insertion c, .insertion c' => c.key.isBinary = true → c'.key.isBinary = true →
      c.hash P = some 0 → c'.hash P = some 0
  | _, _ => True

instance : DecidableRel Event.Spares := fun a b => by
  unfold Event.Spares
  split <;> infer_instance

instance (P : Platform) : DecidableRel (Event.Steady P) := fun a b => by
  unfold Event.Steady
  split <;> infer_instance

/-! ### Sound memory -/

/-- The pair has been stored in the hash map of the map `j`. -/
def Tables.Inserted (t : Tables) (j : ObjId) (key value : Object) : Prop :=
  ∃ c, .insertion c ∈ t.events ∧ c.map = j ∧ c.key = key ∧ c.value = value ∧ c.stored = true

theorem Tables.Inserted.mono {t t' : Tables} (h : t.events <+: t'.events) {j : ObjId}
    {key value : Object} (hi : t.Inserted j key value) : t'.Inserted j key value := by
  obtain ⟨c, hc, hi⟩ := hi
  exact ⟨c, h.subset hc, hi⟩

/-- What holds of the memory and the events of a decoder. -/
structure Sound (P : Platform) (t : Tables) : Prop where
  /-- The table of values holds addresses of containers. -/
  values : ∀ i ∈ t.valuesRef, i < t.heap.length
  /-- What has been destroyed was in a pair that was not stored. -/
  destroyed : ∀ i : ℕ, t.heap[i]? = some .destroyed → ∃ c, .insertion c ∈ t.events ∧ i ∈ c.dropped
  map_lt : ∀ c, .insertion c ∈ t.events → c.map < t.heap.length
  hashed : ∀ c, .insertion c ∈ t.events → c.hash P ≠ none
  /-- A key keeps its target as long as the map lives. -/
  kept : ∀ c, .insertion c ∈ t.events → c.stored = true → t.heap[c.map]? ≠ some .destroyed →
    ∀ (r : ℕ) o, c.key = .ref r → c.heap[r]? = some (.finished o) → t.heap[r]? = some (.finished o)
  /-- The entries of a map have been inserted. -/
  inserted : ∀ (i : ℕ) j u es, t.heap[i]? = some (.finished (.map j u es)) → ∀ e ∈ es,
    t.Inserted j e.1 e.2
  /-- Binary data hash to what the static variable holds. -/
  binary : t.events.Pairwise (Event.Steady P) → ∀ c, .insertion c ∈ t.events → ∀ d,
    c.key = .binary d → c.hash P = some t.binaryHash

/-- The objects `xs` own what was created from `t` to `t'` and not destroyed, and only maps from the
address `m` on were inserted into. -/
structure Owns (m : ℕ) (xs : List Object) (t t' : Tables) : Prop where
  heap : t.heap <+: t'.heap
  events : t.events <+: t'.events
  owned : ∀ x ∈ xs, ∀ i : ℕ, x.self? = some i →
    t.heap.length ≤ i ∧ t'.heap[i]? = some (.finished x)
  lost : ∀ i : ℕ, t.heap.length ≤ i → i < t'.heap.length → i ∉ xs.filterMap Object.self? →
    t'.heap[i]? = some .destroyed
  maps : ∀ c, .insertion c ∈ t'.events → .insertion c ∈ t.events ∨ m ≤ c.map
  refs : ∀ r ∈ xs.filterMap Object.target?, r < t'.heap.length ∧
    (t'.events.Pairwise Event.Spares → t'.heap[r]? ≠ some .destroyed)

/-- A prefix has the same elements. -/
theorem getElem?_prefix_eq {l l' : List α} (h : l <+: l') {i : ℕ} (hi : i < l.length) :
    l'[i]? = l[i]? := by
  obtain ⟨r, rfl⟩ := h
  exact List.getElem?_append_left hi

theorem lt_of_getElem? {l : List α} {i : ℕ} {a : α} (h : l[i]? = some a) : i < l.length :=
  (List.getElem?_eq_some_iff.1 h).1

namespace Owns

variable {m : ℕ} {xs ys : List Object} {t t₁ t' : Tables}

/-- The memory is as it was, and so are the insertions. -/
theorem of_heap_eq (hh : t'.heap = t.heap) (he : t'.events = t.events) : Owns m [] t t' where
  heap := hh ▸ List.prefix_rfl
  events := he ▸ List.prefix_rfl
  owned x hx := by cases hx
  lost i h h' := by
    rw [hh] at h'
    omega
  maps c hc := .inl (he ▸ hc)
  refs r hr := by cases hr

theorem mono {m' : ℕ} (h : Owns m xs t t') (hm : m' ≤ m) : Owns m' xs t t' :=
  { h with maps := fun c hc => (h.maps c hc).imp id hm.trans }

theorem le (h : Owns m xs t t') : t.heap.length ≤ t'.heap.length := h.heap.length_le

theorem trans (h : Owns m xs t t₁) (h' : Owns m ys t₁ t') : Owns m (xs ++ ys) t t' where
  heap := h.heap.trans h'.heap
  events := h.events.trans h'.events
  owned x hx i hi := by
    rcases List.mem_append.1 hx with hx | hx
    · obtain ⟨hle, hcell⟩ := h.owned x hx i hi
      exact ⟨hle, by rw [getElem?_prefix_eq h'.heap (lt_of_getElem? hcell), hcell]⟩
    · obtain ⟨hle, hcell⟩ := h'.owned x hx i hi
      exact ⟨h.le.trans hle, hcell⟩
  lost i hle hlt hn := by
    rw [List.filterMap_append, List.mem_append, not_or] at hn
    by_cases hi : i < t₁.heap.length
    · rw [getElem?_prefix_eq h'.heap hi]
      exact h.lost i hle hi hn.1
    · exact h'.lost i (by omega) hlt hn.2
  maps c hc := by
    rcases h'.maps c hc with hc | hc
    · exact h.maps c hc
    · exact .inr hc
  refs r hr := by
    rw [List.filterMap_append, List.mem_append] at hr
    rcases hr with hr | hr
    · obtain ⟨hlt, halive⟩ := h.refs r hr
      -- the earlier events are steady if all are
      refine ⟨hlt.trans_le h'.le, fun hp => ?_⟩
      rw [getElem?_prefix_eq h'.heap hlt]
      exact halive (hp.sublist h'.events.sublist)
    · exact h'.refs r hr

/-- A value that is neither a container nor a reference owns nothing. -/
theorem leaf {x : Object} (hs : x.self? = none) (ht : x.target? = none) : Owns m [x] t t where
  heap := List.prefix_rfl
  events := List.prefix_rfl
  owned y hy i hi := by
    rw [List.mem_singleton] at hy
    rw [hy, hs] at hi
    cases hi
  lost i h h' := by omega
  maps c hc := .inl hc
  refs r hr := by
    rw [List.filterMap_cons_none ht] at hr
    cases hr

end Owns

/-! ### What a decoder does to its memory -/

namespace Sound

variable {t t' : Tables}

/-- Only the memory, the table of values and the events matter. -/
theorem congr (h : Sound P t) (hn : t.SameButNames t') : Sound P t' := by
  rw [hn]
  exact { h with }

theorem reference (h : Sound P t) {r : ObjId} :
    Sound P { t with events := t.events ++ [.reference r] } := by
  have hold {c : Insertion} (hc : .insertion c ∈ t.events ++ [.reference r]) :
      .insertion c ∈ t.events := by simpa using hc
  exact {
    values := h.values
    destroyed := fun i hi => by
      obtain ⟨c, hc, hd⟩ := h.destroyed i hi
      exact ⟨c, List.mem_append_left _ hc, hd⟩
    map_lt := fun c hc => h.map_lt c (hold hc)
    hashed := fun c hc => h.hashed c (hold hc)
    kept := fun c hc => h.kept c (hold hc)
    inserted := fun i j u es hi e he => (h.inserted i j u es hi e he).mono (List.prefix_append _ _)
    binary := fun hp c hc => h.binary (List.pairwise_append.1 hp).1 c (hold hc) }

/-- A reference comes behind everything that has been destroyed. -/
theorem owns_reference (h : Sound P t) {m : ℕ} {r : ObjId} (hr : r ∈ t.valuesRef) :
    Owns m [.ref r] t { t with events := t.events ++ [.reference r] } where
  heap := List.prefix_rfl
  events := List.prefix_append _ _
  owned x hx i hi := by
    rw [List.mem_singleton] at hx
    rw [hx] at hi
    cases hi
  lost i hi hi' := by
    have hlen : t.heap.length ≤ i := hi
    exact absurd hi' hlen.not_gt
  maps c hc := .inl (by simpa using hc)
  refs r' hr' := by
    obtain rfl : r' = r := by simpa [Object.target?] using hr'
    refine ⟨h.values _ hr, fun hp hcell => ?_⟩
    obtain ⟨c, hc, hd⟩ := h.destroyed _ hcell
    exact (List.pairwise_append.1 hp).2.2 _ hc _ (List.mem_singleton.2 rfl) hd

theorem allocate (h : Sound P t) (kind : ContainerKind) : Sound P { t with
    heap := t.heap ++ [.started kind], valuesRef := t.valuesRef ++ [t.heap.length] } := by
  -- a cell that is not of the new kind was there before
  have hold {i : ℕ} {cell : Cell} (hi : (t.heap ++ [.started kind])[i]? = some cell)
      (hne : cell ≠ .started kind) : t.heap[i]? = some cell := by
    rw [List.getElem?_append] at hi
    split at hi
    · exact hi
    · exact absurd (List.mem_singleton.1 (List.mem_of_getElem? hi)) hne
  have hnew {i : ℕ} (hi : i < t.heap.length) : (t.heap ++ [.started kind])[i]? = t.heap[i]? :=
    List.getElem?_append_left hi
  exact {
    values := fun i hi => by
      rw [List.length_append]
      rcases List.mem_append.1 hi with hi | hi
      · exact Nat.lt_add_right _ (h.values i hi)
      · rw [List.mem_singleton.1 hi]
        exact Nat.lt_add_one _
    destroyed := fun i hi => h.destroyed i (hold hi (by simp))
    map_lt := fun c hc => by
      rw [List.length_append]
      exact Nat.lt_add_right _ (h.map_lt c hc)
    hashed := h.hashed
    kept := fun c hc hs hd r o hk ho => by
      rw [hnew (h.map_lt c hc)] at hd
      have ho := h.kept c hc hs hd r o hk ho
      rw [hnew (lt_of_getElem? ho), ho]
    inserted := fun i j u es hi => h.inserted i j u es (hold hi (by simp))
    binary := h.binary }

/-- The contents of a started container are set. -/
theorem finish (h : Sound P t) {n : ℕ} {kind : ContainerKind} (hn : t.heap[n]? = some (.started kind))
    {o : Object} (ho : ∀ j u es, o = .map j u es → ∀ e ∈ es, t.Inserted j e.1 e.2) :
    Sound P { t with heap := t.heap.set n (.finished o) } := by
  have hother {i : ℕ} (hi : i ≠ n) : (t.heap.set n (.finished o))[i]? = t.heap[i]? :=
    List.getElem?_set_ne (Ne.symm hi)
  have hself : (t.heap.set n (.finished o))[n]? = some (.finished o) :=
    List.getElem?_set_self (lt_of_getElem? hn)
  exact {
    values := fun i hi => by
      rw [List.length_set]
      exact h.values i hi
    destroyed := fun i hi => by
      by_cases hin : i = n
      · subst hin
        rw [hself] at hi
        cases hi
      · exact h.destroyed i (hother hin ▸ hi)
    map_lt := fun c hc => by
      rw [List.length_set]
      exact h.map_lt c hc
    hashed := h.hashed
    kept := fun c hc hs hd r o' hk ho' => by
      -- the map has not been destroyed before either
      have hd' : t.heap[c.map]? ≠ some .destroyed := by
        by_cases hcn : c.map = n
        · rw [hcn, hn]
          simp
        · rwa [hother hcn] at hd
      have hr := h.kept c hc hs hd' r o' hk ho'
      rw [hother, hr]
      rintro rfl
      rw [hn] at hr
      cases hr
    inserted := fun i j u es hi => by
      by_cases hin : i = n
      · subst hin
        rw [hself] at hi
        exact ho j u es (by simpa using hi)
      · exact h.inserted i j u es (hother hin ▸ hi)
    binary := h.binary }

/-- The hash of binary data is what the static variable holds afterwards. -/
theorem binary_hash {d : Bytes} {heap : Heap} {static static' hash : UInt64}
    (h : (Object.binary d).hash P heap static = some (hash, static')) :
    hash = static' ∧ (static ≠ 0 → static' = static) := by
  rw [Object.hash] at h
  split at h
  · cases h
    exact ⟨rfl, fun _ => rfl⟩
  · next hs =>
    cases h
    exact ⟨rfl, fun hne => absurd hne hs⟩

/-- Only binary data change the static variable. -/
theorem static_eq {key : Object} (hk : ∀ d, key ≠ .binary d) {heap : Heap}
    {static static' hash : UInt64} (h : key.hash P heap static = some (hash, static')) :
    static' = static := by
  cases key with
  | binary d => exact absurd rfl (hk d)
  | ref r =>
    rw [Object.hash, Option.map_eq_some_iff] at h
    obtain ⟨cellHash, -, h⟩ := h
    cases h
    rfl
  | _ => cases h; rfl

/-- The static variable after one more insertion. -/
theorem binary_insertion (h : Sound P t) {c : Insertion} {hash static : UInt64}
    (hc : c.key.hash P t.heap t.binaryHash = some (hash, static)) (hheap : c.heap = t.heap)
    (hstatic : c.binaryHash = t.binaryHash)
    (hp : (t.events ++ [Event.insertion c]).Pairwise (Event.Steady P)) :
    ∀ c', Event.insertion c' ∈ t.events ++ [Event.insertion c] → ∀ d, c'.key = .binary d →
      c'.hash P = some static := by
  have hhash : c.hash P = some hash := by rw [Insertion.hash, hheap, hstatic, hc]; rfl
  have hp' := List.pairwise_append.1 hp
  have hold := h.binary hp'.1
  intro c' hc' d hd
  rcases List.mem_append.1 hc' with hc' | hc'
  · rw [hold c' hc' d hd]
    by_cases hk : ∃ d', c.key = .binary d'
    · obtain ⟨d', hd'⟩ := hk
      rw [hd'] at hc
      obtain ⟨rfl, hsame⟩ := binary_hash hc
      by_cases hz : t.binaryHash = 0
      -- what hashed to zero before makes this one hash to zero
      · have hzero := hp'.2.2 _ hc' _ (List.mem_singleton.2 rfl) (by rw [hd]; rfl) (by rw [hd']; rfl)
          (by rw [hold c' hc' d hd, hz])
        rw [hz, ← hzero, hhash]
      · rw [hsame hz]
    · rw [static_eq (fun d' hd' => hk ⟨d', hd'⟩) hc]
  · obtain rfl : c' = c := by simpa using hc'
    rw [hd] at hc
    rw [hhash, (binary_hash hc).1]

theorem hashed_insertion (h : Sound P t) {c : Insertion} {hash static : UInt64}
    (hc : c.key.hash P t.heap t.binaryHash = some (hash, static)) (hheap : c.heap = t.heap)
    (hstatic : c.binaryHash = t.binaryHash) :
    ∀ c', Event.insertion c' ∈ t.events ++ [Event.insertion c] → c'.hash P ≠ none := by
  intro c' hc'
  rcases List.mem_append.1 hc' with hc' | hc'
  · exact h.hashed c' hc'
  · obtain rfl : c' = c := by simpa using hc'
    rw [Insertion.hash, hheap, hstatic, hc]
    exact Option.some_ne_none _

/-- A pair is stored. -/
theorem store (h : Sound P t) {c : Insertion} {hash static : UInt64}
    (hc : c.key.hash P t.heap t.binaryHash = some (hash, static)) (hheap : c.heap = t.heap)
    (hstatic : c.binaryHash = t.binaryHash) (hmap : c.map < t.heap.length) :
    Sound P { t with binaryHash := static, events := t.events ++ [.insertion c] } where
  values := h.values
  destroyed i hi := by
    obtain ⟨c', hc', hd⟩ := h.destroyed i hi
    exact ⟨c', List.mem_append_left _ hc', hd⟩
  map_lt c' hc' := by
    rcases List.mem_append.1 hc' with hc' | hc'
    · exact h.map_lt c' hc'
    · obtain rfl : c' = c := by simpa using hc'
      exact hmap
  hashed := h.hashed_insertion hc hheap hstatic
  kept c' hc' hs hd r o hk ho := by
    rcases List.mem_append.1 hc' with hc' | hc'
    · exact h.kept c' hc' hs hd r o hk ho
    · obtain rfl : c' = c := by simpa using hc'
      exact hheap ▸ ho
  inserted i j u es hi e he := (h.inserted i j u es hi e he).mono (List.prefix_append _ _)
  binary hp := h.binary_insertion hc hheap hstatic hp

end Sound

/-- A pair is stored: nothing else changes hands. -/
theorem Owns.store {m : ℕ} {t : Tables} {c : Insertion} {static : UInt64} (hm : m ≤ c.map) :
    Owns m [] t { t with binaryHash := static, events := t.events ++ [.insertion c] } where
  heap := List.prefix_rfl
  events := List.prefix_append _ _
  owned x hx := by cases hx
  lost i hi hi' := by
    have hlen : t.heap.length ≤ i := hi
    exact absurd hi' hlen.not_gt
  maps c' hc' := by
    rcases List.mem_append.1 hc' with hc' | hc'
    · exact .inl hc'
    · obtain rfl : c' = c := by simpa using hc'
      exact .inr hm
  refs r hr := by cases hr

/-! ### Pairs that are not stored -/

section Drop

variable {t t₁ : Tables} {xs : List Object} {c : Insertion} {hash static : UInt64}

/-- The state behind an insertion that does not store its pair. -/
def dropped (t : Tables) (c : Insertion) (static : UInt64) (ids : List ObjId) : Tables :=
  ({ t with binaryHash := static, events := t.events ++ [.insertion c] } : Tables).destroy ids

theorem heap_dropped (t : Tables) (c : Insertion) (static : UInt64) (ids : List ObjId) (i : ℕ) :
    (dropped t c static ids).heap[i]? =
      if i ∈ ids then t.heap[i]?.map fun _ => .destroyed else t.heap[i]? := by
  simp only [dropped, Tables.destroy, List.getElem?_mapIdx]
  split
  · rfl
  · simp

@[simp] theorem length_heap_dropped (t : Tables) (c : Insertion) (static : UInt64)
    (ids : List ObjId) : (dropped t c static ids).heap.length = t.heap.length :=
  List.length_mapIdx

/-- What is destroyed has been created since the pair was begun. -/
theorem heap_dropped_of_lt (ho : Owns t.heap.length xs t t₁) {i : ℕ} (hi : i < t.heap.length) :
    (dropped t₁ c static (xs.filterMap Object.self?)).heap[i]? = t.heap[i]? := by
  rw [heap_dropped, if_neg, getElem?_prefix_eq ho.heap hi]
  intro hmem
  obtain ⟨x, hx, hxi⟩ := List.mem_filterMap.1 hmem
  exact absurd (ho.owned x hx i hxi).1 hi.not_ge

/-- Of what has been created since the pair was begun, nothing is left. -/
theorem heap_dropped_of_le (ho : Owns t.heap.length xs t t₁) {i : ℕ} (hi : t.heap.length ≤ i)
    (hi' : i < t₁.heap.length) :
    (dropped t₁ c static (xs.filterMap Object.self?)).heap[i]? = some .destroyed := by
  rw [heap_dropped]
  split
  · rw [List.getElem?_eq_getElem hi']
    rfl
  · exact ho.lost i hi hi' ‹_›

/-- A pair is not stored. -/
theorem Sound.drop (h₀ : Sound P t) (h : Sound P t₁) (ho : Owns t.heap.length xs t t₁)
    (hc : c.key.hash P t₁.heap t₁.binaryHash = some (hash, static)) (hheap : c.heap = t₁.heap)
    (hstatic : c.binaryHash = t₁.binaryHash) (hmap : c.map < t.heap.length)
    (hstored : c.stored = false) (hd : c.dropped = xs.filterMap Object.self?) :
    Sound P (dropped t₁ c static (xs.filterMap Object.self?)) where
  values i hi := by
    rw [length_heap_dropped]
    exact h.values i hi
  destroyed i hi := by
    rw [heap_dropped] at hi
    split at hi
    · next hmem => exact ⟨c, List.mem_append_right _ (List.mem_singleton.2 rfl), hd ▸ hmem⟩
    · obtain ⟨c', hc', hd'⟩ := h.destroyed i hi
      exact ⟨c', List.mem_append_left _ hc', hd'⟩
  map_lt c' hc' := by
    rw [length_heap_dropped]
    rcases List.mem_append.1 hc' with hc' | hc'
    · exact h.map_lt c' hc'
    · obtain rfl : c' = c := by simpa using hc'
      exact hmap.trans_le ho.le
  hashed := h.hashed_insertion hc hheap hstatic
  kept c' hc' hs halive r o hk hcell := by
    rcases List.mem_append.1 hc' with hc' | hc'
    · rcases ho.maps c' hc' with hold | hnew
      · rw [heap_dropped_of_lt ho (h₀.map_lt c' hold)] at halive
        have hr := h₀.kept c' hold hs halive r o hk hcell
        rw [heap_dropped_of_lt ho (lt_of_getElem? hr), hr]
      -- a map that was begun with the pair is gone
      · exact absurd (heap_dropped_of_le ho hnew (h.map_lt c' hc')) halive
    · obtain rfl : c' = c := by simpa using hc'
      rw [hstored] at hs
      cases hs
  inserted i j u es hi e he := by
    rw [heap_dropped] at hi
    split at hi
    · obtain ⟨-, -, hi⟩ := Option.map_eq_some_iff.1 hi
      cases hi
    · exact (h.inserted i j u es hi e he).mono (List.prefix_append _ _)
  binary hp := h.binary_insertion hc hheap hstatic hp

theorem Owns.drop (ho : Owns t.heap.length xs t t₁) {m : ℕ} (hm : m ≤ c.map)
    (hmt : m ≤ t.heap.length) :
    Owns m [] t (dropped t₁ c static (xs.filterMap Object.self?)) where
  heap := by
    refine List.prefix_iff_getElem?.2 fun i hi => ?_
    rw [heap_dropped_of_lt ho hi, List.getElem?_eq_getElem hi]
  events := ho.events.trans (List.prefix_append _ _)
  owned x hx := by cases hx
  lost i hi hi' _ := by
    rw [length_heap_dropped] at hi'
    exact heap_dropped_of_le ho hi hi'
  maps c' hc' := by
    rcases List.mem_append.1 hc' with hc' | hc'
    · exact (ho.maps c' hc').imp id hmt.trans
    · obtain rfl : c' = c := by simpa using hc'
      exact .inr hm
  refs r hr := by cases hr

end Drop

end Hessian2
