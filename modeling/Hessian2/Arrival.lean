import Hessian2.Ownership
import Hessian2.StringGrammar

/-!
# What a decoder returns is in order

The objects that a plain build returns are made as they can be sent again: their strings consist of
characters, an instance has as many values as its definition has fields, and containers live at
ascending addresses, to which references point back.

* `Readable` : a string that consists of characters.
* `Object.Made` : an object that was made by a decoder, without what it owns.
* `Before` : the order in which the objects of a value were created.
* `Arrives` : objects that were created between two sizes of the memory.
* `decodeObject_arrives` : **what `decode<Object>` returns has arrived like this.**
-/

namespace Hessian2

open Parsing Parsing.Parser

variable {α β : Type} {P : Platform}

/-! ### Objects from a decoder -/

/-- The string consists of characters. -/
def Readable (s : Bytes) : Prop := ∃ n, Characters n s

/-- The strings of the definition consist of characters, and the number of its fields was an
`int32_t`. -/
structure RawDefinition.Readable (d : RawDefinition) : Prop where
  type : Hessian2.Readable d.type
  fieldNames : ∀ s ∈ d.fieldNames, Hessian2.Readable s
  length : d.fieldNames.length < 2 ^ 31

/-- The strings of the object consist of characters, and an instance has as many values as
fields. -/
def Object.Made : Object → Prop
  | .string s => Readable s
  | .list _ t _ | .map _ t _ => ∀ s, t = some s → Readable s
  | .classInstance _ d vs => d.Readable ∧ vs.length = d.fieldNames.length
  | _ => True

/-- A container that comes later lives behind the one before it, and behind the target of the
reference before it. -/
def Before (x y : Object) : Prop :=
  ∀ j, y.self? = some j → ∀ i, x.self? = some i ∨ x.target? = some i → i < j

/-- The objects were made one after the other, while the memory grew from `lo` to `hi`. -/
structure Arrives (lo : ℕ) (xs : List Object) (hi : ℕ) : Prop where
  le : lo ≤ hi
  made : ∀ x ∈ xs, x.Made
  self : ∀ x ∈ xs, ∀ i, x.self? = some i → lo ≤ i ∧ i < hi
  target : ∀ x ∈ xs, ∀ i, x.target? = some i → i < hi
  before : xs.Pairwise Before

namespace Arrives

variable {lo mid hi : ℕ} {xs ys : List Object} {x : Object}

theorem nil (h : lo ≤ hi) : Arrives lo [] hi := ⟨h, by simp, by simp, by simp, .nil⟩

theorem mono {lo' hi' : ℕ} (h : Arrives lo xs hi) (hlo : lo' ≤ lo) (hhi : hi ≤ hi') :
    Arrives lo' xs hi' where
  le := hlo.trans (h.le.trans hhi)
  made := h.made
  self x hx i hi := ⟨hlo.trans (h.self x hx i hi).1, (h.self x hx i hi).2.trans_le hhi⟩
  target x hx i hi := (h.target x hx i hi).trans_le hhi
  before := h.before

theorem append (h : Arrives lo xs mid) (h' : Arrives mid ys hi) : Arrives lo (xs ++ ys) hi where
  le := h.le.trans h'.le
  made := List.forall_mem_append.2 ⟨h.made, h'.made⟩
  self := List.forall_mem_append.2 ⟨(h.mono le_rfl h'.le).self, (h'.mono h.le le_rfl).self⟩
  target := List.forall_mem_append.2 ⟨(h.mono le_rfl h'.le).target, h'.target⟩
  before := by
    refine List.pairwise_append.2 ⟨h.before, h'.before, fun x hx y hy j hj i hi => ?_⟩
    exact (hi.elim (fun hi => (h.self x hx i hi).2) (h.target x hx i)).trans_le (h'.self y hy j hj).1

/-- A container is created before what it owns. -/
theorem cons (h : Arrives (lo + 1) xs hi) (hmade : x.Made) (hself : x.self? = some lo)
    (htarget : x.target? = none) : Arrives lo (x :: xs) hi where
  le := (Nat.le_succ lo).trans h.le
  made := List.forall_mem_cons.2 ⟨hmade, h.made⟩
  self := by
    refine List.forall_mem_cons.2 ⟨fun i hi => ?_, (h.mono (Nat.le_succ lo) le_rfl).self⟩
    obtain rfl := Option.some.inj (hself.symm.trans hi)
    exact ⟨le_rfl, h.le⟩
  target := by
    refine List.forall_mem_cons.2 ⟨fun i hi => ?_, h.target⟩
    rw [htarget] at hi
    cases hi
  before := by
    refine List.pairwise_cons.2 ⟨fun y hy j hj i hi => ?_, h.before⟩
    rw [hself, htarget] at hi
    obtain rfl := Option.some.inj (hi.resolve_right (Option.some_ne_none i).symm)
    exact (h.self y hy j hj).1

/-- An object that is no container. -/
theorem leaf (hmade : x.Made) (hself : x.self? = none) (htarget : ∀ i, x.target? = some i → i < lo) :
    Arrives lo [x] lo where
  le := le_rfl
  made := List.forall_mem_singleton.2 hmade
  self := by
    refine List.forall_mem_singleton.2 fun i hi => ?_
    rw [hself] at hi
    cases hi
  target := List.forall_mem_singleton.2 htarget
  before := List.pairwise_singleton _ _

end Arrives

/-! ### What the functions of a decoder do -/

/-- The tables hold names that consist of characters, and addresses of containers. -/
structure Known (t : Tables) : Prop where
  types : ∀ v ∈ t.typesRef, Readable v
  defs : ∀ d ∈ t.defRef, d.Readable
  values : ∀ i ∈ t.valuesRef, i < t.heap.length

/-- From a known state the function reaches a known state, its value `a` satisfies `ok`, and the
objects `nodes a` arrive on the way. -/
def Brings (ok : α → Prop) (nodes : α → List Object) (m : Dec α) : Prop :=
  Ends (fun t a t' => Known t → Known t' ∧ ok a ∧ Arrives t.heap.length (nodes a) t'.heap.length)
    (fun _ _ => True) m

/-- `Brings` for functions that bring no objects. -/
abbrev Yields (ok : α → Prop) (m : Dec α) : Prop := Brings ok (fun _ => []) m

namespace Brings

variable {ok : α → Prop} {ok' : β → Prop} {nodes : α → List Object} {nodes' : β → List Object}

theorem of_silent {m : Dec α} (h : Silent m) (hok : ∀ {s a s'}, m s = .ok a s' → ok a) :
    Yields ok m where
  ok hm ht := by
    rw [h.ok hm]
    exact ⟨ht, hok hm, .nil le_rfl⟩
  fault _ := trivial

theorem silent {m : Dec α} (h : Silent m) : Yields (fun _ => True) m := of_silent h fun _ => trivial

theorem pure {a : α} (h : ok a) : Yields ok (pure a) := Ends.pure fun _ ht => ⟨ht, h, .nil le_rfl⟩

theorem failure : Brings ok nodes fail := Ends.failure

/-- No objects are brought before `f`. -/
theorem after {m : Dec α} {f : α → Dec β} (hm : Yields ok m)
    (hf : ∀ a, ok a → Brings ok' nodes' (f a)) : Brings ok' nodes' (m >>= f) := by
  refine Ends.bind hm (V := fun a t b t' => ok a → Known t →
    Known t' ∧ ok' b ∧ Arrives t.heap.length (nodes' b) t'.heap.length) (fun a => ?_) ?_
  · exact ⟨fun hr ha => (hf a ha).ok hr, fun _ => trivial⟩
  · intro t a t₁ b t' h h' ht
    obtain ⟨ht₁, ha, harrives⟩ := h ht
    obtain ⟨ht', hb, harrives'⟩ := h' ha ht₁
    exact ⟨ht', hb, harrives'.mono harrives.le le_rfl⟩

/-- A value without containers and references. -/
theorem leaf {m : Dec α} (h : Yields ok m) (f : α → Object) (hf : ∀ a, ok a → (f a).Made)
    (hleaf : ∀ a, (f a).walk = [f a] ∧ (f a).self? = none ∧ (f a).target? = none) :
    Brings (fun _ => True) Object.walk (m >>= fun a => Pure.pure (f a)) := by
  refine Ends.bind h (V := fun a t b t' => b = f a ∧ t' = t) (fun a => .pure fun _ => ⟨rfl, rfl⟩) ?_
  rintro t a t₁ b t' hm ⟨rfl, rfl⟩ ht
  obtain ⟨ht', ha, harrives⟩ := hm ht
  obtain ⟨hwalk, hself, htarget⟩ := hleaf a
  refine ⟨ht', trivial, hwalk ▸ (Arrives.leaf (hf a ha) hself fun i hi => ?_).mono harrives.le le_rfl⟩
  rw [htarget] at hi
  cases hi

theorem congr {m : Dec α} {ok' : α → Prop} {nodes' : α → List Object} (h : Brings ok nodes m)
    (hok : ∀ a, ok a → ok' a) (hnodes : ∀ a, nodes a = nodes' a) : Brings ok' nodes' m := by
  refine h.mono (fun {t a t'} hm ht => ?_) id
  obtain ⟨ht', ha, harrives⟩ := hm ht
  exact ⟨ht', hok a ha, hnodes a ▸ harrives⟩

theorem times {m : Dec α} (h : Brings ok nodes m) (n : ℕ) :
    Brings (fun as => as.length = n ∧ ∀ a ∈ as, ok a) (·.flatMap nodes) (times m n) := by
  induction n with
  | zero => exact Ends.pure fun t ht => ⟨ht, ⟨rfl, by simp⟩, .nil le_rfl⟩
  | succ n ih =>
    refine Ends.bind h (V := fun a t as t' => Known t → Known t' ∧ ∃ rest, as = a :: rest ∧
      (rest.length = n ∧ ∀ b ∈ rest, ok b) ∧
        Arrives t.heap.length (rest.flatMap nodes) t'.heap.length) (fun a => ?_) ?_
    · refine Ends.bind ih (V := fun as t r t' => r = a :: as ∧ t' = t)
        (fun as => .pure fun _ => ⟨rfl, rfl⟩) ?_
      rintro t as t₁ r t' has ⟨rfl, rfl⟩ ht
      obtain ⟨ht', hok, harrives⟩ := has ht
      exact ⟨ht', as, rfl, hok, harrives⟩
    · intro t a t₁ as t' ha has ht
      obtain ⟨ht₁, hok, harrives⟩ := ha ht
      obtain ⟨ht', rest, rfl, ⟨hlen, hrest⟩, harrives'⟩ := has ht₁
      exact ⟨ht', ⟨congrArg (· + 1) hlen, List.forall_mem_cons.2 ⟨hok, hrest⟩⟩,
        harrives.append harrives'⟩

end Brings

/-! ### Names -/

theorem decodeString_yields : Yields Readable (decodeString P.plain) :=
  .of_silent decodeString_silent fun h => by
    obtain ⟨sentence, rest, -, hs, -⟩ := decodeString_ok_iff.1 h
    exact hs.characters

theorem lookup_yields {ok : α → Prop} {f : Tables → Option α}
    (h : ∀ t a, Known t → f t = some a → ok a) : Yields ok (Dec.lookup f) := by
  refine (lookup_ends f).mono ?_ id
  rintro t a t' ⟨rfl, ha⟩ ht
  exact ⟨ht, h _ _ ht ha, .nil le_rfl⟩

theorem modifyAux_yields {f : Tables → Tables} (h : ∀ t, Known t → Known (f t))
    (hheap : ∀ t, (f t).heap.length = t.heap.length) : Yields (fun _ => True) (modifyAux f) := by
  refine Ends.modifyAux.mono ?_ id
  rintro t a t' rfl ht
  exact ⟨h t ht, trivial, .nil (hheap t).ge⟩

theorem decodeTypeRef_yields : Yields Readable (decodeTypeRef P.plain) := by
  rw [decodeTypeRef_eq]
  refine .ahead fun code => .ite (fun _ => ?_) fun _ => ?_
  · refine decodeString_yields.after fun v hv => ?_
    refine Brings.after (modifyAux_yields (fun t ht => ?_) fun _ => rfl) fun _ _ => .pure hv
    exact ⟨fun w hw => (List.mem_append.1 hw).elim (ht.types w)
      fun hw => List.mem_singleton.1 hw ▸ hv, ht.defs, ht.values⟩
  · exact (Brings.silent decodeInt32_silent).after fun ref _ =>
      lookup_yields fun t v ht hv => ht.types v (List.mem_of_getElem? hv)

theorem decodeDefinition_yields : Yields RawDefinition.Readable (decodeDefinition P.plain) := by
  rw [decodeDefinition_eq]
  refine (Brings.silent .next).after fun code _ => ?_
  have known {f : Tables → Option RawDefinition} (hf : ∀ t d, f t = some d → d ∈ t.defRef) :
      Yields RawDefinition.Readable (Dec.lookup f) := lookup_yields fun t d ht hd => ht.defs d (hf t d hd)
  unfold decodeDefinitionBy decodeDefinitionByWith
  refine .ite (fun _ => ?_) fun _ => .ite (fun _ => ?_) fun _ => .ite (fun _ => ?_) fun _ => .failure
  · refine decodeString_yields.after fun type htype =>
      (Brings.silent decodeInt32_silent).after fun fieldLen _ => ?_
    have hreserve : Yields (fun _ => True) (reserve ample fieldLen) := by
      rw [reserve_ample]
      exact Ends.ite (fun _ => Ends.stop fun _ => trivial) fun _ => Brings.pure trivial
    have hnames : Yields (fun names => names.length = fieldLen.toInt.toNat ∧ ∀ s ∈ names, Readable s)
        (times (decodeString P.plain) fieldLen.toInt.toNat) :=
      (decodeString_yields.times _).congr (fun _ h => h) fun names => by simp
    refine hreserve.after fun _ _ => hnames.after fun names hnames => ?_
    have hreadable : RawDefinition.Readable ⟨type, names⟩ := by
      refine ⟨htype, hnames.2, ?_⟩
      have hlt := fieldLen.toInt_lt
      rw [hnames.1]
      omega
    refine Brings.after (modifyAux_yields (fun t ht => ?_) fun _ => rfl) fun _ _ => .pure hreadable
    exact ⟨ht.types, fun d hd => (List.mem_append.1 hd).elim (ht.defs d)
      fun hd => List.mem_singleton.1 hd ▸ hreadable, ht.values⟩
  · exact (Brings.silent decodeInt32_silent).after fun ref _ =>
      known fun t d hd => List.mem_of_getElem? hd
  · exact known fun t d hd => List.mem_of_getElem? hd

/-! ### Loops -/

theorem readObjectUntilEnd_brings {self : Dec Object}
    (h : Brings (fun _ => True) Object.walk self) :
    Brings (fun _ => True) (·.flatMap Object.walk) (readObjectUntilEnd P self) := by
  let Q (values : List Object) (t : Tables) (values' : List Object) (t' : Tables) : Prop :=
    Known t → Known t' ∧ ∃ rest, values' = values ++ rest ∧
      Arrives t.heap.length (rest.flatMap Object.walk) t'.heap.length
  have hstep (values : List Object) : Ends (fun t r t' => Q values t (r.elim id id) t')
      (fun _ _ => True) (readObjectUntilEndStep P self values) := by
    rw [readObjectUntilEndStep_eq]
    refine .ahead fun code => .ite (fun _ => ?_) fun _ => ?_
    · refine (Silent.next.map fun _ => Sum.inr values).mono ?_ id
      rintro t r t' ⟨rfl, -, rfl⟩ ht
      exact ⟨ht, [], (List.append_nil _).symm, .nil le_rfl⟩
    · refine Ends.bind h (V := fun o t r t' => r = .inl (values ++ [o]) ∧ t' = t)
        (fun o => .pure fun _ => ⟨rfl, rfl⟩) ?_
      rintro t o t₁ r t' ho ⟨rfl, rfl⟩ ht
      obtain ⟨ht₁, -, ho⟩ := ho ht
      exact ⟨ht₁, [o], rfl, by simpa using ho⟩
  refine (Ends.iter (Q := Q) hstep (fun {i t j t₁ a t'} hl hq ht => ?_) id []).mono
    (fun {t a t'} hq ht => ?_) id
  · obtain ⟨ht₁, rest, rfl, ho⟩ := hl ht
    obtain ⟨ht', rest', rfl, ho'⟩ := hq ht₁
    refine ⟨ht', rest ++ rest', List.append_assoc _ _ _, ?_⟩
    rw [List.flatMap_append]
    exact ho.append ho'
  · obtain ⟨ht', rest, rfl, ho⟩ := hq ht
    exact ⟨ht', trivial, ho⟩

/-- An insertion changes neither the tables nor the number of containers. -/
theorem Emplaced.known {result : ObjId} {slots slots' : List Slot} {key value : Object}
    {t t' : Tables} (h : Emplaced P result slots key value t slots' t') (ht : Known t) :
    Known t' ∧ t'.heap.length = t.heap.length := by
  cases h with
  | stored _ => exact ⟨⟨ht.types, ht.defs, ht.values⟩, rfl⟩
  | dropped _ =>
    refine ⟨⟨ht.types, ht.defs, fun i hi => ?_⟩, length_heap_dropped _ _ _ _⟩
    rw [length_heap_dropped]
    exact ht.values i hi

/-- What the loop over the entries of a map brings: the objects of the pairs that it stores. -/
def Collects (slots : List Slot) (t : Tables) (slots' : List Slot) (t' : Tables) : Prop :=
  Known t → Known t' ∧ ∃ new, slots' = slots ++ new ∧
    Arrives t.heap.length (slotsWalk new) t'.heap.length

/-- A pair has been read, and is stored or destroyed. -/
theorem Collects.of_emplaced {result : ObjId} {slots slots' : List Slot} {key value : Object}
    {n : ℕ} {t t' : Tables} (ht : Known t)
    (h : Arrives n (key.walk ++ value.walk) t.heap.length)
    (he : Emplaced P result slots key value t slots' t') :
    Known t' ∧ ∃ new, slots' = slots ++ new ∧ Arrives n (slotsWalk new) t'.heap.length := by
  obtain ⟨ht', hlen⟩ := he.known ht
  rw [hlen]
  cases he with
  | stored _ => exact ⟨ht', [_], rfl, by simpa [slotsWalk] using h⟩
  | dropped _ => exact ⟨ht', [], (List.append_nil _).symm, .nil h.le⟩

theorem readEntries_brings {self : Dec Object} (h : Brings (fun _ => True) Object.walk self)
    (result : ObjId) :
    Brings (fun _ => True) (·.flatMap fun e => e.1.walk ++ e.2.walk) (readEntries P self result) := by
  -- a turn appends the pair that it reads, if any, and both have arrived
  have hstep (slots : List Slot) : Ends (fun t r t' => Collects slots t (r.elim id id) t')
      (fun _ _ => True) (readEntriesStep P self result slots) := by
    rw [readEntriesStep_eq]
    refine .ahead fun code => .ite (fun _ => ?_) fun _ => ?_
    · refine (Silent.next.map fun _ => Sum.inr slots).mono ?_ id
      rintro t r t' ⟨rfl, -, rfl⟩ ht
      exact ⟨ht, [], (List.append_nil _).symm, .nil le_rfl⟩
    · refine Ends.bind h (V := fun key t r t' => ∀ n, Known t → Arrives n key.walk t.heap.length →
        Known t' ∧ ∃ new, r.elim id id = slots ++ new ∧ Arrives n (slotsWalk new) t'.heap.length)
        (fun key => ?_) ?_
      · refine Ends.bind h (V := fun value t r t' => ∀ n, Known t →
          Arrives n (key.walk ++ value.walk) t.heap.length → Known t' ∧
            ∃ new, r.elim id id = slots ++ new ∧ Arrives n (slotsWalk new) t'.heap.length)
          (fun value => ?_) ?_
        · refine Ends.bind ((emplace_ends (P := P) result slots key value).mono id fun _ => trivial)
            (V := fun slots' t r t' => r = .inl slots' ∧ t' = t) (fun _ => .pure fun _ => ⟨rfl, rfl⟩) ?_
          rintro t slots' t₁ r t' he ⟨rfl, rfl⟩ n ht harrives
          exact Collects.of_emplaced ht harrives he
        · intro t value t₁ r t' hv hr n ht harrives
          obtain ⟨ht₁, -, hv⟩ := hv ht
          exact hr n ht₁ (harrives.append hv)
      · intro t key t₁ r t' hk hr ht
        obtain ⟨ht₁, -, hk⟩ := hk ht
        exact hr _ ht₁ hk
  refine Ends.bind (Ends.iter (Q := Collects) hstep (fun {slots t slots₁ t₁ slots' t'} hl hq ht => ?_)
    id []) (V := fun slots t entries t' => entries = slots.map (fun s => (s.key, s.value)) ∧ t' = t)
    (fun _ => .pure fun _ => ⟨rfl, rfl⟩) ?_
  · obtain ⟨ht₁, new, rfl, ho⟩ := hl ht
    obtain ⟨ht', new', rfl, ho'⟩ := hq ht₁
    refine ⟨ht', new ++ new', List.append_assoc _ _ _, ?_⟩
    rw [slotsWalk, List.flatMap_append]
    exact ho.append ho'
  · rintro t slots t₁ entries t' hs ⟨rfl, rfl⟩ ht
    obtain ⟨ht', new, rfl, ho⟩ := hs ht
    refine ⟨ht', trivial, ?_⟩
    beta_reduce
    rwa [List.flatMap_map]

/-! ### Containers -/

/-- The contents of the container `result` are read. -/
def Fetches (result : ObjId) (t : Tables) (o : Object) (t' : Tables) : Prop :=
  Known t → Known t' ∧ o.Made ∧ ∃ xs, Contains result o xs ∧
    Arrives t.heap.length xs t'.heap.length

/-- Nothing is created before the contents are read. -/
theorem fetches_after {ok : α → Prop} {result : ObjId} {m : Dec α} {f : α → Dec Object}
    (hm : Yields ok m) (hf : ∀ a, ok a → Ends (Fetches result) (fun _ _ => True) (f a)) :
    Ends (Fetches result) (fun _ _ => True) (m >>= f) := by
  refine Ends.bind hm (V := fun a t o t' => ok a → Fetches result t o t') (fun a => ?_) ?_
  · exact ⟨fun hr ha => (hf a ha).ok hr, fun _ => trivial⟩
  · intro t a t₁ o t' h h' ht
    obtain ⟨ht₁, ha, harrives⟩ := h ht
    obtain ⟨ht', hmade, xs, hc, harrives'⟩ := h' ha ht₁
    exact ⟨ht', hmade, xs, hc, harrives'.mono harrives.le le_rfl⟩

/-- The contents are made of what was read. -/
theorem fetches_of_brings {ok : α → Prop} {nodes : α → List Object} {result : ObjId} {m : Dec α}
    (hm : Brings ok nodes m) {f : α → Object} (hf : ∀ a, Contains result (f a) (nodes a))
    (hmade : ∀ a, ok a → (f a).Made) :
    Ends (Fetches result) (fun _ _ => True) (m >>= fun a => pure (f a)) := by
  refine Ends.bind hm (V := fun a t o t' => o = f a ∧ t' = t) (fun _ => .pure fun _ => ⟨rfl, rfl⟩) ?_
  rintro t a t₁ o t' h ⟨rfl, rfl⟩ ht
  obtain ⟨ht', ha, harrives⟩ := h ht
  exact ⟨ht', hmade a ha, _, hf a, harrives⟩

theorem container_brings (kind : ContainerKind) {body : ObjId → Dec Object}
    (h : ∀ result, Ends (Fetches result) (fun _ _ => True) (body result)) :
    Brings (fun _ => True) Object.walk (Dec.container kind body) := by
  unfold Dec.container Dec.owning
  refine Ends.onFail (Ends.bind (allocate_ends kind) (V := fun result t o t' =>
    ∃ t₁, Fetches result t o t₁ ∧ t' = { t₁ with heap := t₁.heap.set result (.finished o) })
    (fun result => ?_) ?_)
  · refine Ends.bind (h result) (finish_ends result) ?_
    rintro t o t₁ o' t' hb ⟨rfl, rfl⟩
    exact ⟨t₁, hb, rfl⟩
  rintro t result t₀ o t' ⟨rfl, rfl⟩ ⟨t₁, hfetches, rfl⟩ ht
  have hlen : (t.heap ++ [Cell.started kind]).length = t.heap.length + 1 := List.length_append
  obtain ⟨ht₁, hmade, xs, hc, harrives⟩ := hfetches ⟨ht.types, ht.defs, fun i hi => by
    rw [hlen, Nat.lt_succ_iff]
    exact (List.mem_append.1 hi).elim (fun hi => (ht.values i hi).le)
      fun hi => (List.mem_singleton.1 hi).le⟩
  rw [hlen] at harrives
  have htarget : o.target? = none := by
    have hs := hc.self
    cases o with
    | ref i => cases hs
    | _ => rfl
  refine ⟨⟨ht₁.types, ht₁.defs, ?_⟩, trivial, ?_⟩
  · simpa only [List.length_set] using ht₁.values
  · rw [List.length_set, hc.walk]
    exact harrives.cons hmade hc.self htarget

/-! ### The whole recursion -/

section Body

variable {self : Dec Object} (h : Brings (fun _ => True) Object.walk self)
include h

theorem Brings.anyTimes (n : ℕ) : Brings (fun _ => True) (·.flatMap Object.walk) (Parser.times self n) :=
  (h.times n).congr (fun _ _ => trivial) fun _ => rfl

theorem typedListValues_brings (code : UInt8) :
    Brings (fun _ => True) (·.flatMap Object.walk) (typedListValues P.plain self code) := by
  unfold typedListValues
  refine .ite (fun _ => readObjectUntilEnd_brings h) fun _ => .ite (fun _ => ?_) fun _ => ?_
  · exact (Brings.silent decodeInt32_silent).after fun n _ => h.anyTimes _
  · exact .ite (fun _ => h.anyTimes _) fun _ => .failure

theorem untypedListValues_brings (code : UInt8) :
    Brings (fun _ => True) (·.flatMap Object.walk) (untypedListValues P.plain self code) := by
  unfold untypedListValues
  refine .ite (fun _ => readObjectUntilEnd_brings h) fun _ => .ite (fun _ => ?_) fun _ => ?_
  · exact (Brings.silent decodeInt32_silent).after fun n _ => h.anyTimes _
  · exact .ite (fun _ => h.anyTimes _) fun _ => .pure fun t ht => ⟨ht, trivial, .nil le_rfl⟩

theorem decodeObjectForm_brings (code : UInt8) :
    Brings (fun _ => True) Object.walk (decodeObjectForm P.plain self code) := by
  have byte : Yields (fun _ => True) (next : Dec UInt8) := .silent .next
  have scalar {α : Type} {m : Dec α} (hm : Silent m) (f : α → Object) (hf : ∀ a, (f a).Made)
      (hleaf : ∀ a, (f a).walk = [f a] ∧ (f a).self? = none ∧ (f a).target? = none) :=
    (Brings.silent hm).leaf f (fun a _ => hf a) hleaf
  have named {s u : Bytes} (hu : Readable u) : some u = some s → Readable s := by
    rintro ⟨⟩
    exact hu
  unfold decodeObjectForm
  cases leadOf code with
  | null => exact scalar .next _ (fun _ => trivial) fun _ => ⟨rfl, rfl, rfl⟩
  | bool => exact scalar decodeBool_silent _ (fun _ => trivial) fun _ => ⟨rfl, rfl, rfl⟩
  | date => exact scalar (readDate_silent .milliseconds) _ (fun _ => trivial) fun _ => ⟨rfl, rfl, rfl⟩
  | double => exact scalar decodeDouble_silent _ (fun _ => trivial) fun _ => ⟨rfl, rfl, rfl⟩
  | string => exact decodeString_yields.leaf _ (fun _ hs => hs) fun _ => ⟨rfl, rfl, rfl⟩
  | binary => exact scalar decodeBytes_silent _ (fun _ => trivial) fun _ => ⟨rfl, rfl, rfl⟩
  | long => exact scalar decodeInt64_silent _ (fun _ => trivial) fun _ => ⟨rfl, rfl, rfl⟩
  | int => exact scalar decodeInt32_silent _ (fun _ => trivial) fun _ => ⟨rfl, rfl, rfl⟩
  | typedList =>
    refine container_brings _ fun result => fetches_after byte fun code _ =>
      fetches_after decodeTypeRef_yields fun typeStr htype => ?_
    exact fetches_of_brings (typedListValues_brings h code) (contains_list result typeStr)
      fun _ _ _ => named htype
  | untypedList =>
    refine container_brings _ fun result => fetches_after byte fun code _ => ?_
    exact fetches_of_brings (untypedListValues_brings h code) (contains_list result none)
      fun _ _ _ hs => by cases hs
  | typedMap =>
    refine container_brings _ fun result => fetches_after byte fun _ _ =>
      fetches_after decodeTypeRef_yields fun typeStr htype => ?_
    exact fetches_of_brings (readEntries_brings h result) (contains_map result typeStr)
      fun _ _ _ => named htype
  | untypedMap =>
    refine container_brings _ fun result => fetches_after byte fun _ _ => ?_
    exact fetches_of_brings (readEntries_brings h result) (contains_map result none)
      fun _ _ _ hs => by cases hs
  | definition => exact decodeDefinition_yields.after fun _ _ => h
  | classInstance =>
    -- the definition in front is not the one that the instance refers to
    have known : Yields (fun _ => True) (decodeDefinition P.plain >>= fun _ => pure ()) :=
      decodeDefinition_yields.after fun _ _ => .pure trivial
    refine container_brings _ fun result => .ahead fun code => ?_
    refine fetches_after (.ite (fun _ => known) fun _ => Brings.pure trivial) fun _ _ =>
      fetches_after decodeDefinition_yields fun d hd => ?_
    exact fetches_of_brings (h.times _) (contains_classInstance result d) fun vs hvs => ⟨hd, hvs.1⟩
  | ref =>
    refine byte.after fun _ _ => (Brings.silent decodeInt32_silent).after fun ref _ => ?_
    refine (reference_ends _).mono ?_ id
    rintro t o t' ⟨r, hr, rfl, rfl⟩ ht
    refine ⟨⟨ht.types, ht.defs, ht.values⟩, trivial, .leaf trivial rfl ?_⟩
    rintro i ⟨⟩
    exact ht.values r (List.mem_of_getElem? hr)
  | unknown => exact .failure

end Body

/-- **What `decode<Object>` returns has arrived in order.** -/
theorem decodeObject_arrives : Brings (fun _ => True) Object.walk (decodeObject P.plain) := by
  refine Ends.fix (F := fun self (_ : Unit) => decodeObjectBody P.plain (self ()))
    (R := fun _ t (o : Object) t' => Known t → Known t' ∧ True ∧
      Arrives t.heap.length o.walk t'.heap.length) (fun self h _ => ?_) ()
  rw [decodeObjectBody_eq]
  exact .ahead fun code => decodeObjectForm_brings (h ()) code

end Hessian2
