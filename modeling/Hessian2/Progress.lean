import Hessian2.ObjectForms

/-!
# Progress and bounds of `decode<Object>`

The body of `decode<Object>` is tame: its nested calls come behind at least one byte, every access
to the buffer is covered by a check, a value uses up a byte for each of its objects, and what is
read does not depend on what follows it.

* `Hostile` : how an input can stop `decode<Object>` other than by being refused.
* `decodeObject_body` : the body is tame.
* `decodeObject_eq` : the recursion equation of `decode<Object>`.
* `decodeObject_progress` : **the recursion ends, stays inside the buffer, moves forward, and
  builds no more objects than it reads bytes.**
* `decodeObject_delimited` : **the format is self-delimiting.**
-/

namespace Hessian2

open Parsing Parsing.Parser Reader

/-- The faults that an input can cause: an exception of `std::vector::reserve`, and the hash of an
object that has none. -/
def Hostile (e : Fault) : Prop := e = .lengthError ∨ e = .undefinedHash

variable {P : Platform} {T : Prop} {N : ℕ}

/-! ### The parts of a container -/

theorem allocate_tame (kind : ContainerKind) :
    Tame Hostile T N (Dec.allocate kind) (Dec.allocate kind) fun _ => 0 :=
  Tame.aux.seq fun _ => (Tame.modifyAux _).seq fun _ => .pure _

theorem container_tame (kind : ContainerKind) {body body' : ObjId → Dec Object} {w : Object → ℕ}
    (h : ∀ result, Tame Hostile T N (body result) (body' result) w) :
    Tame Hostile T N (Dec.container kind body) (Dec.container kind body') w := by
  unfold Dec.container Dec.owning
  exact .onFail _ ((allocate_tame kind).seq fun result => (h result).record fun contents t =>
    { t with heap := t.heap.set result (.finished contents) })

theorem emplace_tame (result : ObjId) (slots : List Slot) (key value : Object) :
    Tame Hostile T N (Dec.emplace P result slots key value) (Dec.emplace P result slots key value)
      fun _ => 0 := by
  refine Tame.aux.seq fun t => ?_
  rcases key.hash P t.heap t.binaryHash with _ | ⟨h, static⟩
  · exact (Dec.record_tame Hostile T N _).seq fun _ => .stop (.inr rfl) _
  · refine (Dec.record_tame Hostile T N _).seq fun _ => (Tame.modifyAux _).seq fun _ => ?_
    exact .ite (fun _ => .pure _) fun _ => (Tame.modifyAux _).seq fun _ => .pure _

/-- What `emplace` makes of a hash map: it takes the pair, or it leaves it out. -/
theorem emplace_ok {result : ObjId} {slots slots' : List Slot} {key value : Object}
    {s s' : State UInt8 Tables} (h : Dec.emplace P result slots key value s = .ok slots' s') :
    ∃ hash static, key.hash P s.aux.heap s.aux.binaryHash = some (hash, static) ∧
      s'.cursor = s.cursor ∧
      ((findsKey slots hash key = false ∧ slots' = slots ++ [⟨hash, key, value⟩] ∧
          s'.aux = { s.aux with
            binaryHash := static
            events := s.aux.events ++
              [.insertion ⟨result, key, value, s.aux.heap, s.aux.binaryHash, true⟩] }) ∨
        (findsKey slots hash key = true ∧ slots' = slots ∧
          s'.aux = ({ s.aux with
            binaryHash := static
            events := s.aux.events ++
              [.insertion ⟨result, key, value, s.aux.heap, s.aux.binaryHash, false⟩] } :
                Tables).destroy (key.containers ++ value.containers))) := by
  rw [Dec.emplace, bind_apply, aux_apply, Outcome.ok_andThen] at h
  rcases hk : key.hash P s.aux.heap s.aux.binaryHash with _ | ⟨hash, static⟩
  · simp only [hk] at h
    cases h
  · simp only [hk, Dec.record, bind_apply, modifyAux_apply, Outcome.ok_andThen] at h
    refine ⟨hash, static, rfl, ?_⟩
    -- the pair is stored, or it is destroyed because there is an equal key
    cases hf : findsKey slots hash key with
    | false =>
      simp only [hf, Bool.not_false, ↓reduceIte] at h
      cases h
      exact ⟨rfl, .inl ⟨rfl, rfl, rfl⟩⟩
    | true =>
      simp only [hf, Bool.not_true, Bool.false_eq_true, ↓reduceIte] at h
      cases h
      exact ⟨rfl, .inr ⟨rfl, rfl, rfl⟩⟩

/-- The objects in the elements of a list. -/
def valuesNodes (values : List Object) : ℕ := (values.map Object.nodes).sum

/-- The objects in the entries of a map. -/
def entriesNodes (entries : List (Object × Object)) : ℕ :=
  (entries.map fun e => e.1.nodes + e.2.nodes).sum

/-- The entries of a hash map under construction. -/
def entriesOf (slots : List Slot) : List (Object × Object) := slots.map fun s => (s.key, s.value)

/-- What a turn of a loop up to a terminator pays for: what it adds, and at least one byte. -/
def loopPrice {α : Type} (nodes : α → ℕ) (i : α) : α ⊕ α → ℕ :=
  Sum.elim (fun j => max 1 (nodes j - nodes i)) fun a => max 1 (nodes a - nodes i)

theorem one_le_loopPrice {α : Type} {nodes : α → ℕ} {i : α} (r : α ⊕ α) :
    1 ≤ loopPrice nodes i r := by
  cases r <;> exact Nat.le_max_left 1 _

theorem loopPrice_le {α : Type} {nodes : α → ℕ} {i : α} (r : α ⊕ α) :
    Sum.elim (fun j => max 1 (nodes j - nodes i)) (fun a => nodes a - nodes i) r ≤
      loopPrice nodes i r := by
  cases r
  · exact Nat.le_refl _
  · exact Nat.le_max_right 1 _

/-- The lead byte of a container pays for its object, and what is behind it has one byte less. -/
theorem lead_tame {α : Type} {m : Dec α} {f f' : α → Dec Object}
    (hm : Tame Hostile T (N + 1) m m fun _ => 1)
    (hf : ∀ a, Tame Hostile T N (f a) (f' a) fun o => o.nodes - 1) :
    Tame Hostile T (N + 1) (m >>= f) (m >>= f') Object.nodes :=
  hm.bind hf fun _ _ => by omega

section Body

variable {self self' : Dec Object} (hs : Tame Hostile T N self self' Object.nodes)
include hs

/-- A turn pays for the terminator or an element. -/
theorem readObjectUntilEndStep_tame (values : List Object) :
    Tame Hostile T N (readObjectUntilEndStep P self values) (readObjectUntilEndStep P self' values)
      (loopPrice valuesNodes values) := by
  rw [readObjectUntilEndStep_eq, readObjectUntilEndStep_eq]
  refine .ahead (one_le_loopPrice) fun code => .ite (fun _ => ?_) fun _ => ?_
  · exact Tame.next.map _ fun _ => by simp [loopPrice]
  · refine hs.map (fun o => Sum.inl (values ++ [o])) fun o => ?_
    have hpos := o.nodes_pos
    simp only [loopPrice, Sum.elim_inl, valuesNodes, List.map_append, List.sum_append, List.map_cons,
      List.map_nil, List.sum_cons, List.sum_nil]
    omega

/-- A list up to its terminator pays for its elements. -/
theorem readObjectUntilEnd_tame :
    Tame Hostile T N (readObjectUntilEnd P self) (readObjectUntilEnd P self') valuesNodes :=
  Tame.iter (p := valuesNodes) (fun values => (readObjectUntilEndStep_tame hs values).mono
    (Nat.le_refl N) loopPrice_le) []

/-- A turn pays for the terminator or an entry. -/
theorem readEntriesStep_tame (result : ObjId) (slots : List Slot) :
    Tame Hostile T N (readEntriesStep P self result slots) (readEntriesStep P self' result slots)
      (loopPrice (fun slots => entriesNodes (entriesOf slots)) slots) := by
  rw [readEntriesStep_eq, readEntriesStep_eq]
  set price := loopPrice (fun slots => entriesNodes (entriesOf slots)) slots with hprice
  refine .ahead (one_le_loopPrice) fun code => .ite (fun _ => ?_) fun _ => ?_
  · exact Tame.next.map _ fun _ => by simp [price, loopPrice]
  · refine hs.bind (v := fun key r => price r - key.nodes) (fun key => ?_) fun _ _ => by omega
    refine (hs.mono (Nat.sub_le N _) fun _ => Nat.le_refl _).bind
      (v := fun value r => price r - key.nodes - value.nodes) (fun value => ?_)
      fun _ _ => by omega
    refine Tame.reprice (w := fun _ => 0)
      ((emplace_tame result slots key value).map _ fun _ => Nat.le_refl 0) fun s r s' h => ?_
    obtain ⟨slots', s₁, h₁, h₂⟩ := bind_eq_ok.1 h
    cases h₂
    have hk := key.nodes_pos
    have hv := value.nodes_pos
    -- a pair that is stored has been paid for, and any other leaves the map as it is
    obtain ⟨hash, static, -, -, ⟨-, rfl, -⟩ | ⟨-, rfl, -⟩⟩ := emplace_ok h₁
    · simp only [hprice, loopPrice, Sum.elim_inl, entriesNodes, entriesOf, List.map_append,
        List.sum_append, List.map_cons, List.map_nil, List.sum_cons, List.sum_nil]
      omega
    · simp only [hprice, loopPrice, Sum.elim_inl]
      omega

/-- The entries of a map up to its terminator pay for themselves. -/
theorem readEntries_tame (result : ObjId) :
    Tame Hostile T N (readEntries P self result) (readEntries P self' result) entriesNodes :=
  Tame.map (w := fun slots => entriesNodes (entriesOf slots))
    (Tame.iter (p := fun slots => entriesNodes (entriesOf slots)) (fun slots =>
      (readEntriesStep_tame hs result slots).mono (Nat.le_refl N) loopPrice_le) [])
    entriesOf fun _ => Nat.le_refl _

theorem typedListValues_tame (code : UInt8) :
    Tame Hostile T N (typedListValues P self code) (typedListValues P self' code) valuesNodes := by
  refine .ite (fun _ => readObjectUntilEnd_tame hs) fun _ => .ite (fun _ => ?_) fun _ => ?_
  · exact (decodeInt32_leaf _ _ _).seq fun n => hs.times _
  · exact .ite (fun _ => hs.times _) fun _ => .failure _

theorem untypedListValues_tame (code : UInt8) :
    Tame Hostile T N (untypedListValues P self code) (untypedListValues P self' code)
      valuesNodes := by
  refine .ite (fun _ => readObjectUntilEnd_tame hs) fun _ => .ite (fun _ => ?_) fun _ => ?_
  · exact (decodeInt32_leaf _ _ _).seq fun n => hs.times _
  · exact .ite (fun _ => hs.times _) fun _ => .value rfl

theorem typedListForm_tame (result : ObjId) : Tame Hostile T (N + 1) (typedListForm P self result)
    (typedListForm P self' result) Object.nodes := by
  refine lead_tame .next fun code => (decodeTypeRef_leaf _ _ _).seq fun typeStr => ?_
  refine (typedListValues_tame hs code).map (Object.typedList result typeStr) fun values => ?_
  rw [Object.nodes_list]
  exact Nat.le_of_eq (Nat.add_sub_cancel_left 1 _)

theorem untypedListForm_tame (result : ObjId) : Tame Hostile T (N + 1) (untypedListForm P self result)
    (untypedListForm P self' result) Object.nodes := by
  refine lead_tame .next fun code => ?_
  refine (untypedListValues_tame hs code).map (Object.untypedList result) fun values => ?_
  rw [Object.nodes_list]
  exact Nat.le_of_eq (Nat.add_sub_cancel_left 1 _)

theorem typedMapForm_tame (result : ObjId) : Tame Hostile T (N + 1) (typedMapForm P self result)
    (typedMapForm P self' result) Object.nodes := by
  refine lead_tame .next fun _ => (decodeTypeRef_leaf _ _ _).seq fun typeStr => ?_
  refine (readEntries_tame hs result).map (Object.typedMap result typeStr) fun entries => ?_
  rw [Object.nodes_map]
  exact Nat.le_of_eq (Nat.add_sub_cancel_left 1 _)

theorem untypedMapForm_tame (result : ObjId) : Tame Hostile T (N + 1) (untypedMapForm P self result)
    (untypedMapForm P self' result) Object.nodes := by
  refine lead_tame .next fun _ => ?_
  refine (readEntries_tame hs result).map (Object.untypedMap result) fun entries => ?_
  rw [Object.nodes_map]
  exact Nat.le_of_eq (Nat.add_sub_cancel_left 1 _)

theorem classInstanceForm_tame (result : ObjId) : Tame Hostile T (N + 1)
    (classInstanceForm P self result) (classInstanceForm P self' result) Object.nodes := by
  have hdef (M : ℕ) := decodeDefinition_tame (P := P) (E := Hostile) (.inl rfl) T M
  refine .ahead Object.nodes_pos fun code => ?_
  refine Tame.seq (w := fun _ => 0) (.ite (fun _ => (hdef _).seq fun _ => .pure ()) fun _ => .pure ())
    fun _ => lead_tame (hdef _) fun definition => ?_
  refine (hs.times _).map (Object.classInstance result definition) fun data => ?_
  rw [Object.nodes_classInstance]
  exact Nat.le_of_eq (Nat.add_sub_cancel_left 1 _)

/-- The body of `decode<Object>` may look at inputs one byte longer than its nested calls. -/
theorem decodeObjectBody_tame :
    Tame Hostile T (N + 1) (decodeObjectBody P self) (decodeObjectBody P self') Object.nodes := by
  rw [decodeObjectBody_eq, decodeObjectBody_eq]
  refine .ahead Object.nodes_pos fun code => ?_
  have leaf {α : Type} {m : Dec α} (hm : Dec.Leaf m) (f : α → Object) (hf : ∀ a, (f a).nodes = 1) :
      Tame Hostile T (N + 1) (m >>= fun a => pure (f a)) (m >>= fun a => pure (f a))
        Object.nodes := (hm _ _ _).map f fun a => Nat.le_of_eq (hf a)
  unfold decodeObjectForm
  cases leadOf code with
  | null => exact Tame.next.map _ fun _ => Nat.le_refl 1
  | bool => exact leaf decodeBool_leaf _ fun _ => rfl
  | date => exact leaf (readDate_leaf .milliseconds) _ fun _ => rfl
  | double => exact leaf decodeDouble_leaf _ fun _ => rfl
  | typedList => exact container_tame _ (typedListForm_tame hs)
  | untypedList => exact container_tame _ (untypedListForm_tame hs)
  | typedMap => exact container_tame _ (typedMapForm_tame hs)
  | untypedMap => exact container_tame _ (untypedMapForm_tame hs)
  | definition =>
    -- the definition has used up a byte, so the call of itself is on a shorter input
    exact (decodeDefinition_tame (.inl rfl) _ _).bind (fun _ => hs) fun _ _ => Nat.le_add_left _ _
  | classInstance => exact container_tame _ (classInstanceForm_tame hs)
  | ref =>
    refine lead_tame .next fun _ => (decodeInt32_leaf _ _ _).seq fun ref => ?_
    refine (Dec.lookup_tame _ _ _ _).seq fun target => (Dec.record_tame _ _ _ _).seq fun _ => ?_
    exact .value rfl
  | string => exact leaf decodeString_leaf _ fun _ => rfl
  | binary => exact leaf decodeBytes_leaf _ fun _ => rfl
  | long => exact leaf decodeInt64_leaf _ fun _ => rfl
  | int => exact leaf decodeInt32_leaf _ fun _ => rfl
  | unknown => exact .failure _

end Body

/-! ### The whole recursion -/

theorem decodeObject_body : Tame.Body Hostile (fun _ => Object.nodes)
    fun self (_ : Unit) => decodeObjectBody P (self ()) :=
  fun _ _ _ _ hs _ => decodeObjectBody_tame (hs ())

/-- `decode<Object>` on any input, from any state of the decoder. -/
theorem decodeObject_tame :
    Tame Hostile True N (decodeObject P) (decodeObject P) Object.nodes :=
  decodeObject_body.fix ()

/-- **The recursion equation of `decode<Object>`.** -/
theorem decodeObject_eq : decodeObject P = ahead (decodeObjectForm P (decodeObject P)) := by
  rw [← decodeObjectBody_eq]
  exact congrFun decodeObject_body.fix_eq ()

/-- The loops over the objects in a container, one turn of them done. -/
theorem loop_eq {α : Type} {step : α → Dec (α ⊕ α)} {nodes : α → ℕ}
    (h : ∀ i, Tame Hostile True 0 (step i) (step i) (loopPrice nodes i)) (i : α) :
    iter step i = step i >>= Sum.elim (iter step) pure :=
  Tame.iter_eq (k := 1) (fun i => (h i).mono (Nat.le_refl 0) fun r => by
    cases r <;> exact one_le_loopPrice _) i

theorem readObjectUntilEnd_loop (values : List Object) :
    iter (readObjectUntilEndStep P (decodeObject P)) values =
      readObjectUntilEndStep P (decodeObject P) values >>=
        Sum.elim (iter (readObjectUntilEndStep P (decodeObject P))) pure :=
  loop_eq (readObjectUntilEndStep_tame decodeObject_tame) values

theorem readEntries_loop (result : ObjId) (slots : List Slot) :
    iter (readEntriesStep P (decodeObject P) result) slots =
      readEntriesStep P (decodeObject P) result slots >>=
        Sum.elim (iter (readEntriesStep P (decodeObject P) result)) pure :=
  loop_eq (readEntriesStep_tame decodeObject_tame result) slots

/-- **Progress and bounds of `decode<Object>` on any input**, from any offset and any state of the
tables: the recursion ends, no access leaves the buffer and no assertion fails, the offset never
moves back or past the end, and a value has at most one object for each byte read. -/
theorem decodeObject_progress (P : Platform) (s : State UInt8 Tables) :
    decodeObject P = decodeObjectBody P (decodeObject P) ∧
    match decodeObject P s with
    | .ok value s' => s'.cursor.buffer = s.cursor.buffer ∧
        s.cursor.offset + value.nodes ≤ s'.cursor.offset ∧
        s'.cursor.offset ≤ s.cursor.buffer.length
    | .fail s' => s'.cursor.buffer = s.cursor.buffer ∧ s.cursor.offset ≤ s'.cursor.offset ∧
        s'.cursor.offset ≤ s.cursor.buffer.length
    | .fault e s' => (e = .lengthError ∨ e = .undefinedHash) ∧
        s'.cursor.buffer = s.cursor.buffer ∧ s.cursor.offset ≤ s'.cursor.offset ∧
        s'.cursor.offset ≤ s.cursor.buffer.length
    | .exhausted => False := by
  have htame := decodeObject_tame (P := P) (N := s.cursor.unread.length + 1)
  refine ⟨congrFun decodeObject_body.fix_eq (), ?_⟩
  -- a cursor that was moved forward still lies in its buffer
  have hinside {s' : State UInt8 Tables} (h : s.cursor.Before s'.cursor) :
      s'.cursor.offset ≤ s.cursor.buffer.length := h.1 ▸ s'.cursor.offset_le
  cases h : decodeObject P s with
  | ok value s' =>
    have hb := htame.delimited.before h
    exact ⟨hb.1, htame.costs h, hinside hb⟩
  | fail s' =>
    have hb := htame.delimited.fail (c := s.cursor) (t := s.aux) h
    exact ⟨hb.1, hb.2, hinside hb⟩
  | fault e s' =>
    obtain ⟨he, hb, -⟩ := htame.delimited.fault (c := s.cursor) (t := s.aux) h
    exact ⟨he, hb.1, hb.2, hinside hb⟩
  | exhausted => exact (htame.agree s (Nat.lt_succ_self _)).2 trivial h

/-- **The format is self-delimiting**: the bytes that a successful `decode<Object>` reads are read
in the same way whatever follows them, and every strict prefix of them is refused. -/
theorem decodeObject_delimited (P : Platform) (t : Tables) {b : Bytes} {value : Object}
    {s' : State UInt8 Tables} (h : decodeObject P ⟨.ofList b, t⟩ = .ok value s') :
    (∀ c, ∃ s'', decodeObject P ⟨.ofList (b.take s'.cursor.offset ++ c), t⟩ = .ok value s'' ∧
      s''.cursor.offset = s'.cursor.offset ∧ s''.aux = s'.aux) ∧
    ∀ k < s'.cursor.offset, ∃ s'', decodeObject P ⟨.ofList (b.take k), t⟩ = .fail s'' := by
  have htame := decodeObject_tame (P := P) (N := b.length + 1)
  obtain ⟨bs, rest, hb, hreads, hs'⟩ := htame.delimited.ok_state h
  rw [Cursor.unread_ofList] at hb
  have hoff : s'.cursor.offset = bs.length := by
    rw [hs']
    exact Nat.zero_add bs.length
  have htake : b.take s'.cursor.offset = bs := by rw [hoff, hb, List.take_left]
  refine ⟨fun c => ?_, fun k hk => ?_⟩
  · rw [htake]
    exact ⟨_, hreads (.ofList (bs ++ c)) c rfl, (Nat.zero_add _).trans hoff.symm, rfl⟩
  · have hlt : (b.take k).length < b.length + 1 := by rw [List.length_take]; omega
    have hsplit : b = b.take k ++ b.drop k := (List.take_append_drop k b).symm
    cases hp : decodeObject P ⟨.ofList (b.take k), t⟩ with
    | ok v s₁ =>
      -- a value read from the prefix would be read from `b` too, with fewer bytes
      obtain ⟨bs₁, rest₁, hb₁, hreads₁, -⟩ := htame.delimited.ok_state hp
      rw [Cursor.unread_ofList] at hb₁
      have hrun := hreads₁ (.ofList b) (rest₁ ++ b.drop k)
        (by rw [Cursor.unread_ofList, ← List.append_assoc, ← hb₁, ← hsplit])
      rw [h] at hrun
      cases hrun
      have hl := congrArg List.length hb₁
      rw [List.length_take, List.length_append] at hl
      simp only [Cursor.advance_offset] at hk
      have h0 : (Cursor.ofList b).offset = 0 := rfl
      omega
    | fail s₁ => exact ⟨s₁, rfl⟩
    | fault e s₁ =>
      obtain ⟨-, -, hraises⟩ := htame.delimited.fault hp
      obtain ⟨s₂, hrun⟩ := hraises (.ofList b) (b.drop k) hsplit
      rw [h] at hrun
      cases hrun
    | exhausted => exact absurd hp ((htame.agree ⟨.ofList (b.take k), t⟩ hlt).2 trivial)

/-- A list of one `null`, with more behind it. -/
theorem decodeObject_delimited_list :
    (∀ c, ∃ s'', decodeObject .simple ⟨.ofList ([0x79, 0x4e] ++ c), .empty⟩ =
        .ok (.untypedList 0 [.null]) s'' ∧ s''.cursor.offset = 2 ∧
        s''.aux = { Tables.empty with
          valuesRef := [0], heap := [.finished (.untypedList 0 [.null])] }) ∧
      ∀ k < 2, ∃ s'', decodeObject .simple ⟨.ofList ([0x79, 0x4e, 0x90].take k), .empty⟩ = .fail s'' :=
  @decodeObject_delimited .simple .empty [0x79, 0x4e, 0x90] _
    ⟨⟨[0x79, 0x4e, 0x90], 2, by decide⟩, _⟩ rfl

end Hessian2
