import Hessian2.Memory

/-!
# Who owns what a decoder has created

* `Creates` : from sound memory a function reaches sound memory, and its value owns what it creates.
* `decodeObject_owns` : `decode<Object>` is such a function.
* `Decodes`, `decodes_owned` : **over any sequence of calls, references point to what the returned
  values own unless one comes too late.**
-/

namespace Hessian2

open Parsing Parsing.Parser

variable {α β : Type} {P : Platform}

/-! ### What `decode<Object>` does -/

/-- The key of the last event had no hash. -/
def Unhashed (P : Platform) (t : Tables) : Prop :=
  ∃ c, t.events.getLast? = some (.insertion c) ∧ c.hash P = none

/-- How the functions of a decoder may stop: an undefined hash is noted in the events. -/
def Halts (P : Platform) (e : Fault) (t : Tables) : Prop := e = .undefinedHash → Unhashed P t

/-- From sound memory the function reaches sound memory, and the objects `nodes a` own what it
creates for a value `a`. -/
def Creates (P : Platform) (nodes : α → List Object) (m : Dec α) : Prop :=
  Ends (fun t a t' => Sound P t → Sound P t' ∧ Owns t.heap.length (nodes a) t t') (Halts P) m

theorem Halts.of_lengthError {t : Tables} {e : Fault} (h : e = .lengthError) : Halts P e t := by
  rintro rfl
  cases h

namespace Creates

/-- A value without containers and references. -/
theorem leaf {m : Dec α} (h : Silent m) (f : α → Object)
    (hf : ∀ a, (f a).walk = [f a] ∧ (f a).self? = none ∧ (f a).target? = none) :
    Creates P Object.walk (m >>= fun a => pure (f a)) := by
  refine (h.map f).mono ?_ id
  rintro t o t' ⟨rfl, a, rfl⟩ ht
  obtain ⟨hwalk, hs, ht'⟩ := hf a
  exact ⟨ht, hwalk ▸ .leaf hs ht'⟩

theorem of_numbers {m : Dec α} (h : Dec.Numbers m) : Creates P (fun _ => []) m := by
  refine h.mono (fun {t a t'} hn ht => ⟨ht.congr hn, ?_⟩) fun he => .of_lengthError he
  rw [hn]
  exact .of_heap_eq rfl rfl

theorem of_silent {m : Dec α} (h : Silent m) : Creates P (fun _ => []) m :=
  of_numbers (.of_silent h)

theorem pure (a : α) : Creates P (fun _ => []) (pure a) := of_silent (.pure a)

theorem failure {nodes : α → List Object} : Creates P nodes fail := Ends.failure

/-- Nothing is created before `f`. -/
theorem after {nodes : β → List Object} {m : Dec α} {f : α → Dec β}
    (hm : Creates P (fun _ => []) m) (hf : ∀ a, Creates P nodes (f a)) :
    Creates P nodes (m >>= f) := by
  refine Ends.bind hm hf fun {t a t₁ b t'} h h' ht => ?_
  obtain ⟨ht₁, ho⟩ := h ht
  obtain ⟨ht', ho'⟩ := h' ht₁
  exact ⟨ht', ho.trans (ho'.mono ho.le)⟩

theorem times {self : Dec Object} (h : Creates P Object.walk self) (n : ℕ) :
    Creates P (·.flatMap Object.walk) (times self n) := by
  refine Ends.times h (fun t ht => ⟨ht, .of_heap_eq rfl rfl⟩)
    (fun {t a t₁ as t'} h h' ht => ?_) n
  obtain ⟨ht₁, ho⟩ := h ht
  obtain ⟨ht', ho'⟩ := h' ht₁
  exact ⟨ht', ho.trans (ho'.mono ho.le)⟩

end Creates

theorem readObjectUntilEnd_creates {self : Dec Object} (h : Creates P Object.walk self) :
    Creates P (·.flatMap Object.walk) (readObjectUntilEnd P self) := by
  let Q (values : List Object) (t : Tables) (values' : List Object) (t' : Tables) : Prop :=
    Sound P t → Sound P t' ∧ ∃ rest, values' = values ++ rest ∧
      Owns t.heap.length (rest.flatMap Object.walk) t t'
  -- a turn creates what the element that it appends owns
  have hstep (values : List Object) : Ends (fun t r t' => Q values t (r.elim id id) t') (Halts P)
      (readObjectUntilEndStep P self values) := by
    rw [readObjectUntilEndStep_eq]
    refine .ahead fun code => .ite (fun _ => ?_) fun _ => ?_
    · refine (Silent.next.map fun _ => Sum.inr values).mono ?_ id
      rintro t r t' ⟨rfl, -, rfl⟩ ht
      exact ⟨ht, [], by simp, .of_heap_eq rfl rfl⟩
    · refine Ends.bind h (V := fun o t r t' => r = .inl (values ++ [o]) ∧ t' = t)
        (fun o => .pure fun _ => ⟨rfl, rfl⟩) ?_
      rintro t o t₁ r t' ho ⟨rfl, rfl⟩ ht
      obtain ⟨ht₁, ho⟩ := ho ht
      exact ⟨ht₁, [o], rfl, by simpa using ho⟩
  refine (Ends.iter (Q := Q) hstep (fun {i t j t₁ a t'} hl hq ht => ?_) id []).mono
    (fun {t a t'} hq ht => ?_) id
  · obtain ⟨ht₁, rest, rfl, ho⟩ := hl ht
    obtain ⟨ht', rest', rfl, ho'⟩ := hq ht₁
    refine ⟨ht', rest ++ rest', by simp, ?_⟩
    rw [List.flatMap_append]
    exact ho.trans (ho'.mono ho.le)
  · obtain ⟨ht', rest, rfl, ho⟩ := hq ht
    exact ⟨ht', ho⟩

/-- What one call of `emplace` does. -/
inductive Emplaced (P : Platform) (result : ObjId) (slots : List Slot) (key value : Object)
    (t : Tables) : List Slot → Tables → Prop where
  | stored {hash static : UInt64} (h : key.hash P t.heap t.binaryHash = some (hash, static)) :
    Emplaced P result slots key value t (slots ++ [⟨hash, key, value⟩]) { t with
      binaryHash := static
      events := t.events ++ [.insertion ⟨result, key, value, t.heap, t.binaryHash, true⟩] }
  | dropped {hash static : UInt64} (h : key.hash P t.heap t.binaryHash = some (hash, static)) :
    Emplaced P result slots key value t slots
      (dropped t ⟨result, key, value, t.heap, t.binaryHash, false⟩ static
        (key.containers ++ value.containers))

theorem emplace_ends (result : ObjId) (slots : List Slot) (key value : Object) :
    Ends (fun t slots' t' => Emplaced P result slots key value t slots' t') (Halts P)
      (Dec.emplace P result slots key value) where
  ok {s slots' s'} h := by
    obtain ⟨hash, static, hk, -, ⟨-, rfl, ht⟩ | ⟨-, rfl, ht⟩⟩ := emplace_ok h
    · exact ht ▸ .stored hk
    · exact ht ▸ .dropped hk
  fault {s e s'} h _ := by
    rw [Dec.emplace, bind_apply, aux_apply, Outcome.ok_andThen] at h
    rcases hk : key.hash P s.aux.heap s.aux.binaryHash with _ | ⟨hash, static⟩
    · simp only [hk, Dec.record, bind_apply, modifyAux_apply, Outcome.ok_andThen, fault_apply] at h
      cases h
      exact ⟨_, List.getLast?_concat, by rw [Insertion.hash, hk]; rfl⟩
    · simp only [hk, Dec.record, bind_apply, modifyAux_apply, Outcome.ok_andThen] at h
      split at h
      · cases h
      · cases h

/-- The objects in the entries of a hash map. -/
def slotsWalk (slots : List Slot) : List Object := slots.flatMap fun s => s.key.walk ++ s.value.walk

/-- What the loop over the entries of a map does: it stores pairs, and owns their objects. -/
def Stores (P : Platform) (result : ObjId) (slots : List Slot) (t : Tables) (slots' : List Slot)
    (t' : Tables) : Prop :=
  Sound P t → result < t.heap.length → Sound P t' ∧ ∃ new, slots' = slots ++ new ∧
    Owns result (slotsWalk new) t t' ∧ ∀ s ∈ new, t'.Inserted result s.key s.value

theorem Stores.refl (result : ObjId) (slots : List Slot) (t : Tables) :
    Stores P result slots t slots t :=
  fun ht _ => ⟨ht, [], (List.append_nil _).symm, .of_heap_eq rfl rfl, by simp⟩

theorem Stores.trans {result : ObjId} {slots slots₁ slots' : List Slot} {t t₁ t' : Tables}
    (h : Stores P result slots t slots₁ t₁) (h' : Stores P result slots₁ t₁ slots' t') :
    Stores P result slots t slots' t' := by
  intro ht hlt
  obtain ⟨ht₁, new, rfl, ho, hi⟩ := h ht hlt
  obtain ⟨ht', new', rfl, ho', hi'⟩ := h' ht₁ (hlt.trans_le ho.le)
  refine ⟨ht', new ++ new', List.append_assoc _ _ _, ?_, fun s hs => ?_⟩
  · rw [slotsWalk, List.flatMap_append]
    exact ho.trans ho'
  · rcases List.mem_append.1 hs with hs | hs
    · exact (hi s hs).mono ho'.events
    · exact hi' s hs

/-- A pair has been read, and is stored or destroyed. -/
theorem Stores.of_emplaced {result : ObjId} {slots slots' : List Slot} {key value : Object}
    {t₀ t t' : Tables} (h₀ : Sound P t₀) (h : Sound P t) (hlt : result < t₀.heap.length)
    (ho : Owns t₀.heap.length (key.walk ++ value.walk) t₀ t)
    (he : Emplaced P result slots key value t slots' t') : Stores P result slots t₀ slots' t' := by
  intro _ _
  have hcontainers : key.containers ++ value.containers =
      (key.walk ++ value.walk).filterMap Object.self? := List.filterMap_append.symm
  cases he with
  | stored hk =>
    refine ⟨h.store hk rfl rfl (hlt.trans_le ho.le), [_], rfl, ?_, fun s hs => ?_⟩
    · exact (ho.mono hlt.le).trans (.store (Nat.le_refl result))
    · obtain rfl := List.mem_singleton.1 hs
      exact ⟨_, List.mem_append_right _ (List.mem_singleton.2 rfl), rfl, rfl, rfl, rfl⟩
  | dropped hk =>
    rw [hcontainers]
    refine ⟨h₀.drop h ho hk rfl rfl hlt rfl hcontainers, [], (List.append_nil _).symm, ?_, by simp⟩
    exact ho.drop (Nat.le_refl _) hlt.le

theorem readEntriesStep_stores {self : Dec Object} (h : Creates P Object.walk self)
    (result : ObjId) (slots : List Slot) :
    Ends (fun t r t' => Stores P result slots t (r.elim id id) t') (Halts P)
      (readEntriesStep P self result slots) := by
  rw [readEntriesStep_eq]
  refine .ahead fun code => .ite (fun _ => ?_) fun _ => ?_
  · refine (Silent.next.map fun _ => Sum.inr slots).mono ?_ id
    rintro t r t' ⟨rfl, -, rfl⟩
    exact .refl result slots _
  -- the key and the value are owned by nothing until the pair is stored or destroyed
  · refine Ends.bind h (V := fun key t r t' => ∀ t₀, Sound P t₀ → Sound P t →
      result < t₀.heap.length → Owns t₀.heap.length key.walk t₀ t →
        Stores P result slots t₀ (r.elim id id) t') (fun key => ?_) ?_
    · refine Ends.bind h (V := fun value t r t' => ∀ t₀, Sound P t₀ → Sound P t →
        result < t₀.heap.length → Owns t₀.heap.length (key.walk ++ value.walk) t₀ t →
          Stores P result slots t₀ (r.elim id id) t') (fun value => ?_) ?_
      · refine Ends.bind (emplace_ends result slots key value)
          (V := fun slots' t r t' => r = .inl slots' ∧ t' = t) (fun _ => .pure fun _ => ⟨rfl, rfl⟩) ?_
        rintro t slots' t₁ r t' he ⟨rfl, rfl⟩ t₀ h₀ ht hlt ho
        exact .of_emplaced h₀ ht hlt ho he
      · intro t value t₁ r t' hv hr t₀ h₀ ht hlt ho
        obtain ⟨ht₁, hv⟩ := hv ht
        exact hr t₀ h₀ ht₁ hlt (ho.trans (hv.mono ho.le))
    · intro t key t₁ r t' hk hr ht hlt
      obtain ⟨ht₁, hk⟩ := hk ht
      exact hr t ht ht₁ hlt hk ht hlt

theorem readEntries_creates {self : Dec Object} (h : Creates P Object.walk self) (result : ObjId) :
    Ends (fun t entries t' => Sound P t → result < t.heap.length → Sound P t' ∧
        Owns result (entries.flatMap fun e => e.1.walk ++ e.2.walk) t t' ∧
        ∀ e ∈ entries, t'.Inserted result e.1 e.2)
      (Halts P) (readEntries P self result) := by
  refine Ends.bind (Ends.iter (Q := Stores P result) (readEntriesStep_stores h result)
    (fun hl hq => hl.trans hq) id [])
    (V := fun slots t entries t' => entries = slots.map (fun s => (s.key, s.value)) ∧ t' = t)
    (fun _ => .pure fun _ => ⟨rfl, rfl⟩) ?_
  rintro t slots t₁ entries t' hs ⟨rfl, rfl⟩ ht hlt
  obtain ⟨ht', new, rfl, ho, hi⟩ := hs ht hlt
  refine ⟨ht', ?_, fun e he => ?_⟩
  · rwa [List.flatMap_map]
  · obtain ⟨s, hs, rfl⟩ := List.mem_map.1 he
    exact hi s hs

/-! ### Containers -/

/-- The object `o` is the container `result`, and owns the objects `xs` besides itself. -/
structure Contains (result : ObjId) (o : Object) (xs : List Object) : Prop where
  walk : o.walk = o :: xs
  self : o.self? = some result

theorem contains_list (i : ObjId) (u : Option Bytes) (vs : List Object) :
    Contains i (.list i u vs) (vs.flatMap Object.walk) := ⟨Object.walk_list i u vs, rfl⟩

theorem contains_map (i : ObjId) (u : Option Bytes) (es : List (Object × Object)) :
    Contains i (.map i u es) (es.flatMap fun e => e.1.walk ++ e.2.walk) :=
  ⟨Object.walk_map i u es, rfl⟩

theorem contains_classInstance (i : ObjId) (d : RawDefinition) (vs : List Object) :
    Contains i (.classInstance i d vs) (vs.flatMap Object.walk) :=
  ⟨Object.walk_classInstance i d vs, rfl⟩

/-- The contents of the container `result` are read: it owns what is created meanwhile. -/
def Fills (P : Platform) (result : ObjId) (t : Tables) (o : Object) (t' : Tables) : Prop :=
  Sound P t → result < t.heap.length → Sound P t' ∧
    (∃ xs, Contains result o xs ∧ Owns result xs t t') ∧
    ∀ j u es, o = .map j u es → ∀ e ∈ es, t'.Inserted j e.1 e.2

/-- The contents are set. -/
theorem Owns.finish {t t' : Tables} {kind : ContainerKind} {o : Object} {xs : List Object}
    (hc : Contains t.heap.length o xs)
    (ho : Owns t.heap.length xs { t with
      heap := t.heap ++ [.started kind], valuesRef := t.valuesRef ++ [t.heap.length] } t') :
    Owns t.heap.length o.walk t { t' with heap := t'.heap.set t.heap.length (.finished o) } := by
  have hlen : t.heap.length < t'.heap.length := by
    have hle := ho.le
    rw [List.length_append] at hle
    exact hle
  have hother {i : ℕ} (hi : i ≠ t.heap.length) :
      (t'.heap.set t.heap.length (.finished o))[i]? = t'.heap[i]? :=
    List.getElem?_set_ne (Ne.symm hi)
  have hself : (t'.heap.set t.heap.length (.finished o))[t.heap.length]? = some (.finished o) :=
    List.getElem?_set_self hlen
  have htarget : o.target? = none := by
    have hs := hc.self
    cases o with
    | ref i => cases hs
    | _ => rfl
  rw [hc.walk]
  refine ⟨?_, ho.events, fun x hx i hi => ?_, fun i hle hlt hn => ?_, ho.maps, fun r hr => ?_⟩
  · refine List.prefix_iff_getElem?.2 fun i hi => ?_
    have hlast : (t.heap ++ [.started kind])[i]? = some t.heap[i] := by
      rw [List.getElem?_append_left hi, List.getElem?_eq_getElem hi]
    rw [hother hi.ne, getElem?_prefix_eq ho.heap (lt_of_getElem? hlast), hlast]
  -- the container itself, or one of its contents
  · rcases List.mem_cons.1 hx with rfl | hx
    · obtain rfl := Option.some.inj (hc.self.symm.trans hi)
      exact ⟨Nat.le_refl _, hself⟩
    · obtain ⟨hle, hcell⟩ := ho.owned x hx i hi
      rw [List.length_append] at hle
      have hlt : t.heap.length < i := hle
      exact ⟨hlt.le, by rw [hother hlt.ne', hcell]⟩
  · rw [List.filterMap_cons_some hc.self, List.mem_cons, not_or] at hn
    rw [List.length_set] at hlt
    rw [hother hn.1]
    refine ho.lost i ?_ hlt hn.2
    rw [List.length_append]
    exact lt_of_le_of_ne hle (Ne.symm hn.1)
  · rw [List.filterMap_cons_none htarget] at hr
    obtain ⟨hlt, halive⟩ := ho.refs r hr
    refine ⟨by rwa [List.length_set], fun hp => ?_⟩
    by_cases hrn : r = t.heap.length
    · rw [hrn, hself]
      simp
    · rw [hother hrn]
      exact halive hp

theorem allocate_ends {B : Fault → Tables → Prop} (kind : ContainerKind) :
    Ends (fun t result t' => result = t.heap.length ∧ t' = { t with
      heap := t.heap ++ [.started kind], valuesRef := t.valuesRef ++ [t.heap.length] })
      B (Dec.allocate kind) where
  ok := by
    rintro s result s' ⟨⟩
    exact ⟨rfl, rfl⟩
  fault := by rintro s e s' ⟨⟩

theorem finish_ends {B : Fault → Tables → Prop} (result : ObjId) (contents : Object) :
    Ends (fun t o t' => o = contents ∧
      t' = { t with heap := t.heap.set result (.finished contents) }) B
      (Dec.finish result contents) where
  ok := by
    rintro s o s' ⟨⟩
    exact ⟨rfl, rfl⟩
  fault := by rintro s e s' ⟨⟩

theorem container_creates (kind : ContainerKind) {body : ObjId → Dec Object}
    (h : ∀ result, Ends (Fills P result) (Halts P) (body result)) :
    Creates P Object.walk (Dec.container kind body) := by
  unfold Dec.container Dec.owning
  refine Ends.onFail (Ends.bind (allocate_ends kind) (V := fun result t o t' =>
    ∃ t₁, Fills P result t o t₁ ∧ t' = { t₁ with heap := t₁.heap.set result (.finished o) })
    (fun result => ?_) ?_)
  · refine Ends.bind (h result) (finish_ends result) ?_
    rintro t o t₁ o' t' hb ⟨rfl, rfl⟩
    exact ⟨t₁, hb, rfl⟩
  rintro t result t₀ o t' ⟨rfl, rfl⟩ ⟨t₁, hfills, rfl⟩ ht
  have hlt : t.heap.length < (t.heap ++ [Cell.started kind]).length := by simp
  obtain ⟨ht₁, ⟨xs, hc, ho⟩, hi⟩ := hfills (ht.allocate kind) hlt
  have hstarted : t₁.heap[t.heap.length]? = some (.started kind) := by
    rw [getElem?_prefix_eq ho.heap hlt, List.getElem?_concat_length]
  exact ⟨ht₁.finish hstarted hi, ho.finish hc⟩

/-- Nothing is created before the contents are read. -/
theorem fills_after {result : ObjId} {m : Dec α} {f : α → Dec Object}
    (hm : Creates P (fun _ => []) m) (hf : ∀ a, Ends (Fills P result) (Halts P) (f a)) :
    Ends (Fills P result) (Halts P) (m >>= f) := by
  refine Ends.bind hm hf fun {t a t₁ o t'} h h' ht hlt => ?_
  obtain ⟨ht₁, ho⟩ := h ht
  obtain ⟨ht', ⟨xs, hc, ho'⟩, hi⟩ := h' ht₁ (hlt.trans_le ho.le)
  exact ⟨ht', ⟨xs, hc, (ho.mono hlt.le).trans ho'⟩, hi⟩

/-- The contents are made of the values that were read. -/
theorem fills_of_creates {result : ObjId} {nodes : α → List Object} {m : Dec α}
    (hm : Creates P nodes m) {f : α → Object} (hf : ∀ a, Contains result (f a) (nodes a))
    (hmap : ∀ a j u es, f a ≠ .map j u es) :
    Ends (Fills P result) (Halts P) (m >>= fun a => pure (f a)) := by
  refine Ends.bind hm (V := fun a t o t' => o = f a ∧ t' = t) (fun _ => .pure fun _ => ⟨rfl, rfl⟩) ?_
  rintro t a t₁ o t' h ⟨rfl, rfl⟩ ht hlt
  obtain ⟨ht', ho⟩ := h ht
  exact ⟨ht', ⟨_, hf a, ho.mono hlt.le⟩, fun j u es he => absurd he (hmap a j u es)⟩

/-- The contents are made of the entries that were read. -/
theorem fills_entries {self : Dec Object} (h : Creates P Object.walk self) (result : ObjId)
    (u : Option Bytes) :
    Ends (Fills P result) (Halts P)
      (readEntries P self result >>= fun entries => pure (.map result u entries)) := by
  refine Ends.bind (readEntries_creates h result)
    (V := fun entries t o t' => o = .map result u entries ∧ t' = t)
    (fun _ => .pure fun _ => ⟨rfl, rfl⟩) ?_
  rintro t entries t₁ o t' hr ⟨rfl, rfl⟩ ht hlt
  obtain ⟨ht', ho, hi⟩ := hr ht hlt
  refine ⟨ht', ⟨_, contains_map result u entries, ho⟩, ?_⟩
  rintro j v es ⟨⟩
  exact hi

/-! ### The whole recursion -/

section Body

variable {self : Dec Object} (h : Creates P Object.walk self)
include h

theorem typedListValues_creates (code : UInt8) :
    Creates P (·.flatMap Object.walk) (typedListValues P self code) := by
  unfold typedListValues
  refine .ite (fun _ => readObjectUntilEnd_creates h) fun _ => .ite (fun _ => ?_) fun _ => ?_
  · exact (Creates.of_silent decodeInt32_silent).after fun n => h.times _
  · exact .ite (fun _ => h.times _) fun _ => .failure

theorem untypedListValues_creates (code : UInt8) :
    Creates P (·.flatMap Object.walk) (untypedListValues P self code) := by
  unfold untypedListValues
  refine .ite (fun _ => readObjectUntilEnd_creates h) fun _ => .ite (fun _ => ?_) fun _ => ?_
  · exact (Creates.of_silent decodeInt32_silent).after fun n => h.times _
  · exact .ite (fun _ => h.times _) fun _ => .pure fun t ht => ⟨ht, .of_heap_eq rfl rfl⟩

theorem decodeObjectForm_creates (code : UInt8) :
    Creates P Object.walk (decodeObjectForm P self code) := by
  have byte : Creates P (fun _ => []) (next : Dec UInt8) := .of_silent .next
  have typeRef : Creates P (fun _ => []) (decodeTypeRef P) := .of_numbers decodeTypeRef_numbers
  have definition : Creates P (fun _ => []) (decodeDefinition P) :=
    .of_numbers decodeDefinition_numbers
  unfold decodeObjectForm
  cases leadOf code with
  | null => exact .leaf .next _ fun _ => ⟨rfl, rfl, rfl⟩
  | bool => exact .leaf decodeBool_silent _ fun _ => ⟨rfl, rfl, rfl⟩
  | date => exact .leaf (readDate_silent .milliseconds) _ fun _ => ⟨rfl, rfl, rfl⟩
  | double => exact .leaf decodeDouble_silent _ fun _ => ⟨rfl, rfl, rfl⟩
  | string => exact .leaf decodeString_silent _ fun _ => ⟨rfl, rfl, rfl⟩
  | binary => exact .leaf decodeBytes_silent _ fun _ => ⟨rfl, rfl, rfl⟩
  | long => exact .leaf decodeInt64_silent _ fun _ => ⟨rfl, rfl, rfl⟩
  | int => exact .leaf decodeInt32_silent _ fun _ => ⟨rfl, rfl, rfl⟩
  | typedList =>
    refine container_creates _ fun result => fills_after byte fun code =>
      fills_after typeRef fun typeStr => ?_
    exact fills_of_creates (typedListValues_creates h code) (contains_list result typeStr)
      fun _ _ _ _ => by simp
  | untypedList =>
    refine container_creates _ fun result => fills_after byte fun code => ?_
    exact fills_of_creates (untypedListValues_creates h code) (contains_list result none)
      fun _ _ _ _ => by simp
  | typedMap =>
    refine container_creates _ fun result => fills_after byte fun _ =>
      fills_after typeRef fun typeStr => fills_entries h result typeStr
  | untypedMap =>
    exact container_creates _ fun result => fills_after byte fun _ => fills_entries h result none
  | definition => exact definition.after fun _ => h
  | classInstance =>
    refine container_creates _ fun result => .ahead fun code => ?_
    refine fills_after (.ite (fun _ => definition.after fun _ => Creates.pure ()) fun _ => Creates.pure ())
      fun _ => fills_after definition fun d => ?_
    exact fills_of_creates (h.times _) (contains_classInstance result d) fun _ _ _ _ => by simp
  | ref =>
    refine byte.after fun _ => (Creates.of_silent decodeInt32_silent).after fun ref => ?_
    refine (reference_ends _).mono ?_ id
    rintro t o t' ⟨r, hr, rfl, rfl⟩ ht
    exact ⟨ht.reference, ht.owns_reference (List.mem_of_getElem? hr)⟩
  | unknown => exact .failure

end Body

/-- **`decode<Object>` keeps the memory sound, and what it creates is owned by its value or has been
destroyed.** -/
theorem decodeObject_owns : Creates P Object.walk (decodeObject P) := by
  refine Ends.fix (F := fun self (_ : Unit) => decodeObjectBody P (self ()))
    (R := fun _ t (o : Object) t' => Sound P t → Sound P t' ∧ Owns t.heap.length o.walk t t')
    (fun self h _ => ?_) ()
  rw [decodeObjectBody_eq]
  exact .ahead fun code => decodeObjectForm_creates (h ()) code

/-! ### Sequences of calls -/

/-- Successful calls of `decode<Object>` on one decoder, one after the other. -/
inductive Decodes (P : Platform) : State UInt8 Tables → List Object → State UInt8 Tables → Prop where
  | nil (s : State UInt8 Tables) : Decodes P s [] s
  | cons {s s₁ s' : State UInt8 Tables} {value : Object} {values : List Object}
    (head : decodeObject P s = .ok value s₁) (tail : Decodes P s₁ values s') :
    Decodes P s (value :: values) s'

theorem decodes_owns {s s' : State UInt8 Tables} {values : List Object}
    (h : Decodes P s values s') : Sound P s.aux → Sound P s'.aux ∧
      Owns s.aux.heap.length (values.flatMap Object.walk) s.aux s'.aux := by
  induction h with
  | nil s => exact fun hs => ⟨hs, .of_heap_eq rfl rfl⟩
  | cons head tail ih =>
    intro hs
    obtain ⟨hs₁, ho⟩ := decodeObject_owns.ok head hs
    obtain ⟨hs', ho'⟩ := ih hs₁
    exact ⟨hs', ho.trans (ho'.mono ho.le)⟩

/-- A decoder in the state in which it is created. -/
def Tables.Fresh (t : Tables) : Prop := t.valuesRef = [] ∧ t.heap = [] ∧ t.events = []

theorem Tables.Fresh.sound {t : Tables} (h : t.Fresh) : Sound P t := by
  obtain ⟨hv, hh, he⟩ := h
  constructor <;> simp [hv, hh, he]

/-- The target of a reference in the returned values has been destroyed, or one of them owns it. -/
theorem decodes_target {s s' : State UInt8 Tables} {values : List Object} (hs : s.aux.Fresh)
    (h : Decodes P s values s') : ∀ r ∈ values.flatMap Object.refs,
      s'.aux.heap[r]? = some .destroyed ∨ ∃ x ∈ values.flatMap Object.walk, x.self? = some r ∧
        s'.aux.heap[r]? = some (.finished x) := by
  obtain ⟨-, ho⟩ := decodes_owns (P := P) h hs.sound
  have hempty : s.aux.heap.length = 0 := by rw [hs.2.1]; rfl
  have hrefs : (values.flatMap Object.walk).filterMap Object.target? =
      values.flatMap Object.refs := Object.filterMap_flatMap_walk _ _
  intro r hr
  by_cases hmem : r ∈ (values.flatMap Object.walk).filterMap Object.self?
  · obtain ⟨x, hx, hxr⟩ := List.mem_filterMap.1 hmem
    exact .inr ⟨x, hx, hxr, (ho.owned x hx r hxr).2⟩
  · exact .inl (ho.lost r (by omega) (ho.refs r (hrefs ▸ hr)).1 hmem)

/-- **References point to what the returned values own**, over any sequence of successful calls on
one decoder: if no `RefObject` is read for a container that an earlier insertion has destroyed,
the target of every `RefObject` in the returned values is owned by one of them. -/
theorem decodes_owned {s s' : State UInt8 Tables} {values : List Object} (hs : s.aux.Fresh)
    (h : Decodes P s values s') (hevents : s'.aux.events.Pairwise Event.Spares) :
    ∀ r ∈ values.flatMap Object.refs, r ∈ values.flatMap Object.containers ∧
      ∃ x ∈ values.flatMap Object.walk, x.self? = some r ∧
        s'.aux.heap[r]? = some (.finished x) := by
  obtain ⟨-, ho⟩ := decodes_owns (P := P) h hs.sound
  have hcontainers : (values.flatMap Object.walk).filterMap Object.self? =
      values.flatMap Object.containers := Object.filterMap_flatMap_walk _ _
  have hrefs : (values.flatMap Object.walk).filterMap Object.target? =
      values.flatMap Object.refs := Object.filterMap_flatMap_walk _ _
  intro r hr
  have halive := (ho.refs r (hrefs ▸ hr)).2 hevents
  obtain ⟨x, hx, hxr, hcell⟩ := (decodes_target hs h r hr).resolve_left halive
  rw [← hcontainers]
  exact ⟨List.mem_filterMap.2 ⟨x, hx, hxr⟩, x, hx, hxr, hcell⟩

/-- A map with a list under the key 0 and a reference to the list under the key 1. -/
theorem decodes_owned_map : ∃ value s',
    Decodes .simple ⟨.ofList [0x48, 0x90, 0x78, 0x91, 0x51, 0x91, 0x5a], .empty⟩ [value] s' ∧
    value.refs = [1] ∧ s'.aux.events.length = 3 ∧
    ∀ r ∈ [value].flatMap Object.refs, r ∈ [value].flatMap Object.containers ∧
      ∃ x ∈ [value].flatMap Object.walk, x.self? = some r ∧
        s'.aux.heap[r]? = some (.finished x) := by
  have hrun : (decodeObject .simple
      ⟨.ofList [0x48, 0x90, 0x78, 0x91, 0x51, 0x91, 0x5a], .empty⟩).any (fun value s' =>
        value.refs == [1] && decide (s'.aux.events.length = 3 ∧ s'.aux.events.Pairwise Event.Spares)) =
      true := by decide +kernel
  obtain ⟨value, s', h, hv⟩ := Outcome.exists_of_any hrun
  rw [Bool.and_eq_true, beq_iff_eq, decide_eq_true_eq] at hv
  have hcalls := Decodes.cons h (.nil s')
  exact ⟨value, s', hcalls, hv.1, hv.2.1, decodes_owned ⟨rfl, rfl, rfl⟩ hcalls hv.2.2⟩

/-- A map with the key 0 twice, the second time for a list, and behind the map a reference to that
list: the list has been destroyed, and the `RefObject` points to where it was. -/
theorem decodes_dangling : ∃ value s', Decodes .simple
      ⟨.ofList [0x7a, 0x48, 0x90, 0x4e, 0x90, 0x78, 0x5a, 0x51, 0x92], .empty⟩ [value] s' ∧
    value.refs = [2] ∧ value.containers = [0, 1] := by
  have hrun : (decodeObject .simple
      ⟨.ofList [0x7a, 0x48, 0x90, 0x4e, 0x90, 0x78, 0x5a, 0x51, 0x92], .empty⟩).any
    (fun value _ => value.refs == [2] && value.containers == [0, 1]) = true := by decide +kernel
  obtain ⟨value, s', h, hv⟩ := Outcome.exists_of_any hrun
  rw [Bool.and_eq_true, beq_iff_eq, beq_iff_eq] at hv
  exact ⟨value, s', .cons h (.nil s'), hv⟩

end Hessian2
