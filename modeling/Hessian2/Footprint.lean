import Hessian2.Calls
import Hessian2.Parsing.Budget

/-!
# What a decoder keeps

The tables of a decoder grow also in calls that fail, and nothing ever leaves them.

* `Tables.footprint` : what the tables take up.
* `Object.weight`, `DecodedType.weight` : what a value takes up besides its containers.
* `decodeObject_pays` : `decode<Object>` reads a byte for each unit it adds to these.
* `Received` : what a program has received from calls, some of which have failed.
* `received_footprint_le` : **whatever the input, tables and values take up no more than has been read.**
-/

namespace Hessian2

open Parsing Parsing.Parser Reader

variable {α : Type} {P : Platform} {k : ℕ} {w : α → ℕ} {s s' : State UInt8 Tables}

/-! ### Units -/

/-- What a string takes up: its bytes, and one for the string. -/
def stored (bs : Bytes) : ℕ := bs.length + 1

/-- What a definition takes up: its names. -/
def RawDefinition.stored (d : RawDefinition) : ℕ :=
  Hessian2.stored d.type + (d.fieldNames.map Hessian2.stored).sum

/-- What the tables take up: one for each container, and the names. -/
def Tables.footprint (t : Tables) : ℕ :=
  t.valuesRef.length + (t.typesRef.map stored).sum + (t.defRef.map RawDefinition.stored).sum

namespace Object

/-- What an object takes up, without what it owns; containers are counted where they are entered. -/
def share : Object → ℕ
  | .string data | .binary data => stored data
  | .list _ _ _ | .map _ _ _ | .classInstance _ _ _ => 0
  | _ => 1

/-- What an object takes up, besides its containers. -/
def weight (o : Object) : ℕ := (o.walk.map share).sum

theorem sum_walks (os : List Object) : ((os.flatMap walk).map share).sum = (os.map weight).sum := by
  induction os with
  | nil => rfl
  | cons o os ih => simp [ih, weight]

@[simp] theorem weight_list (i : ObjId) (type : Option Bytes) (vs : List Object) :
    (list i type vs).weight = (vs.map weight).sum := by
  simp [weight, walk_list, share, ← sum_walks]

@[simp] theorem weight_classInstance (i : ObjId) (d : RawDefinition) (vs : List Object) :
    (classInstance i d vs).weight = (vs.map weight).sum := by
  simp [weight, walk, share, ← sum_walks]

@[simp] theorem weight_map (i : ObjId) (type : Option Bytes) (es : List (Object × Object)) :
    (map i type es).weight = (es.map fun e => e.1.weight + e.2.weight).sum := by
  have hsum : ((es.flatMap fun e => walk e.1 ++ walk e.2).map share).sum =
      (es.map fun e => e.1.weight + e.2.weight).sum := by
    induction es with
    | nil => rfl
    | cons e es ih => simp [ih, weight]; omega
  simp [weight, walk, share, hsum]

end Object

/-! ### Leaves -/

/-- A leaf whose bytes pay for its value. -/
theorem Dec.Leaf.pays {m : Dec α} (h : Dec.Leaf m) (he : Evolves (· = ·) m) {φ : Tables → ℕ}
    (hw : ∀ {t bs v t'}, Reads m t bs v t' → w v ≤ bs.length) : Pays φ 0 m w := fun s => by
  have hd : Delimited (fun _ => False) m := (h _ False 0).delimited
  have hlength {s' : State UInt8 Tables} (hb : s.cursor.Before s'.cursor) :
      s'.cursor.unread.length ≤ s.cursor.unread.length := by
    rw [Cursor.length_unread, Cursor.length_unread, hb.1]
    exact Nat.sub_le_sub_left hb.2 _
  cases hm : m s with
  | ok v s' =>
    obtain ⟨bs, rest, hu, hr, hs'⟩ := hd.ok_iff.1 hm
    have hrest : s'.cursor.unread = rest := by rw [hs', unread_advance_append hu]
    have hbytes := hw hr
    rw [Outcome.Within, ← he.ok hm, hrest, hu, List.length_append]
    omega
  | fail s' =>
    have := hlength (hd.fail hm)
    rw [Outcome.Within, ← he.fail hm]
    omega
  | fault e s' => exact (hd.fault hm).1.elim
  | exhausted => trivial

/-- A leaf reads at least one byte. -/
theorem Dec.Leaf.pays_one {m : Dec α} (h : Dec.Leaf m) (he : Evolves (· = ·) m) {φ : Tables → ℕ} :
    Pays φ 0 m fun _ => 1 := h.pays he fun {t bs v t'} hr => by
  obtain ⟨c, hrun, hc⟩ := hr.ofList
  have hlt := (h (fun _ => False) False 0).length_lt hrun
  rw [hc] at hlt
  exact Nat.succ_le_of_lt (by simpa using hlt)

/-- Joining the halves of a pair makes a string shorter. -/
theorem length_joined_le (cs : List Bytes) : (joined cs).flatten.length ≤ cs.flatten.length := by
  induction cs using joined.induct with
  | case1 => simp [joined]
  | case2 c => simp [joined]
  | case3 c d cs h ih =>
    have half {c : Bytes} : isHighSurrogate c ∨ isLowSurrogate c → c.length = 3 := by
      rintro (h | h)
      · unfold isHighSurrogate at h
        split at h
        · rfl
        · cases h
      · unfold isLowSurrogate at h
        split at h
        · rfl
        · cases h
    have hc := half (.inl h.1)
    have hd := half (.inr h.2)
    have hfour : (fourBytes (pairPoint c d)).length = 4 := rfl
    simp only [joined, h, and_self, if_true, List.flatten_cons, List.length_append, hfour, hc, hd]
    omega
  | case4 c d cs h ih =>
    simp only [joined, if_neg h, List.flatten_cons, List.length_append] at ih ⊢
    omega

theorem FinalHeader.length_pos {header : Bytes} {n : ℕ} (h : FinalHeader header n) :
    0 < header.length := by
  cases h <;> simp

theorem BinaryHeader.length_pos {header : Bytes} {n : ℕ} (h : BinaryHeader header n) :
    0 < header.length := by
  cases h <;> simp

/-- A chunk has a header. -/
theorem StringSentence.length_lt {bs value : Bytes} (h : StringSentence bs value) :
    value.length < bs.length := by
  induction h with
  | final hh hc =>
    have := hh.length_pos
    rw [List.length_append]
    omega
  | chunk hc h ih =>
    simp
    omega

theorem BinaryReading.length_lt {bs value : Bytes} (h : BinaryReading bs value) :
    value.length < bs.length := by
  induction h with
  | final hh =>
    have := hh.length_pos
    rw [List.length_append]
    omega
  | empty => simp
  | chunk hd hne h ih =>
    simp
    omega

theorem decodeString_pays {φ : Tables → ℕ} : Pays φ 0 (decodeString P) stored :=
  decodeString_leaf.pays decodeString_evolves fun {t bs v t'} hr => by
    obtain ⟨-, h⟩ := reads_string_iff.1 hr
    cases h with
    | @intro cs hcs h =>
      have hlt := h.length_lt
      have hjoined := length_joined_le cs
      rw [stored]
      split <;> omega

theorem decodeBytes_pays {φ : Tables → ℕ} : Pays φ 0 (decodeBytes P) stored :=
  decodeBytes_leaf.pays decodeBytes_evolves fun hr => (reads_bytes_iff.1 hr).2.length_lt

theorem decodeInt32_pays {φ : Tables → ℕ} : Pays φ 0 (decodeInt32 P) fun _ => 1 :=
  decodeInt32_leaf.pays_one decodeInt32_evolves

theorem decodeBool_pays : Pays Tables.footprint 0 (decodeBool P) fun _ => 1 := by
  rw [decodeBool_eq]
  refine Pays.onFail (Pays.next.bind fun code => ?_) fun _ _ => Nat.le_refl _
  exact .ite (fun _ => .pure (Nat.le_refl _)) fun _ => .ite (fun _ => .pure (Nat.le_refl _)) fun _ => .failure

/-! ### Tables -/

theorem lookup_pays {φ : Tables → ℕ} (f : Tables → Option α) : Pays φ k (Dec.lookup f) fun _ => k := by
  refine Pays.aux.bind fun t => ?_
  cases f t with
  | none => exact .failure
  | some a => exact .pure (Nat.le_refl _)

/-- A change of the tables that they take up nothing for. -/
theorem modifyAux_pays {f : Tables → Tables} (h : ∀ t, (f t).footprint = t.footprint) :
    Pays Tables.footprint k (modifyAux f : Dec Unit) fun _ => k :=
  .modifyAux fun t => by rw [h]

theorem record_pays (event : Event) : Pays Tables.footprint k (Dec.record event) fun _ => k :=
  modifyAux_pays fun _ => rfl

theorem abslAssert_pays {φ : Tables → ℕ} (condition : Bool) :
    Pays φ k (Dec.abslAssert P condition) fun _ => k :=
  .ite (fun _ => .pure (Nat.le_refl _)) fun _ => .stop _

/-- The name of a type pays for its entry. -/
theorem decodeTypeRef_pays : Pays Tables.footprint 0 (decodeTypeRef P) fun _ => 0 := by
  rw [decodeTypeRef_eq]
  have by_name : Pays Tables.footprint 0 (decodeString P >>= fun typeStr =>
      modifyAux (fun t => { t with typesRef := t.typesRef ++ [typeStr] }) >>= fun _ =>
        pure typeStr : Dec Bytes) fun _ => 0 := by
    refine decodeString_pays.bind fun typeStr => Pays.bind (w := fun _ => 0) (.modifyAux fun t => ?_)
      fun _ => .pure (Nat.le_refl _)
    simp [Tables.footprint]
    omega
  refine .ahead fun code => Pays.saves (k := 0) (.ite (fun _ => by_name) fun _ => ?_)
  exact decodeInt32_pays.bind fun ref => (lookup_pays _).mono (Nat.le_refl _) fun _ => Nat.zero_le _

theorem decodeDefinitionBy_pays (code : UInt8) :
    Pays Tables.footprint 0 (decodeDefinitionBy P code) fun _ => 0 := by
  have reference {f : Tables → Option RawDefinition} {k : ℕ} :
      Pays Tables.footprint k (Dec.lookup f) fun _ => 0 :=
    (lookup_pays f).mono (Nat.le_refl _) fun _ => Nat.zero_le _
  refine .ite (fun _ => ?_) fun _ => .ite (fun _ => decodeInt32_pays.bind fun _ => reference) fun _ =>
    .ite (fun _ => reference) fun _ => .failure
  refine decodeString_pays.bind fun type => decodeInt32_pays.andThen fun fieldLen => ?_
  have hreserve : Pays Tables.footprint (1 + stored type) (reserve ample fieldLen) fun _ => stored type := by
    rw [reserve_ample]
    exact .ite (fun _ => .stop _) fun _ => .pure (by omega)
  refine hreserve.bind fun _ => (decodeString_pays.times _).andThen fun fieldNames => ?_
  refine Pays.bind (w := fun _ => 0) (.modifyAux fun t => ?_) fun _ => .pure (Nat.le_refl _)
  simp [Tables.footprint, RawDefinition.stored]
  omega

theorem decodeDefinition_saves : Saves Tables.footprint 0 (decodeDefinition P) fun _ => 0 := by
  rw [decodeDefinition_eq]
  exact .next decodeDefinitionBy_pays

theorem decodeDefinition_pays : Pays Tables.footprint 0 (decodeDefinition P) fun _ => 1 := by
  rw [decodeDefinition_eq]
  exact Pays.next.bind fun code => ((decodeDefinitionBy_pays code).frame 1).mono (Nat.le_refl _)
    fun _ => Nat.le_refl _

/-! ### Objects -/

/-- A leaf as an object. -/
theorem pays_leaf {m : Dec α} {φ : Tables → ℕ} (h : Pays φ 0 m w) {f : α → Object}
    (hf : ∀ a, (f a).weight ≤ w a) : Saves φ 1 (m >>= fun a => pure (f a)) Object.weight :=
  Pays.saves (k := 0) (h.bind fun a => .pure (hf a))

/-- What the entries of a hash map that is being read take up. -/
def slotsWeight (slots : List Slot) : ℕ :=
  (slots.map fun slot => slot.key.weight + slot.value.weight).sum

theorem emplace_pays (self : ObjId) (slots : List Slot) (key value : Object) :
    Pays Tables.footprint (slotsWeight slots + key.weight + value.weight)
      (Dec.emplace P self slots key value) slotsWeight := by
  refine Pays.aux.bind fun t => ?_
  cases key.hash P t.heap t.binaryHash with
  | none => exact (record_pays _).bind fun _ => .stop _
  | some h =>
    refine (record_pays _).bind fun _ => Pays.bind (modifyAux_pays ?_) fun _ => .ite (fun _ => ?_) fun _ => ?_
    · exact fun _ => rfl
    · exact .pure (by simp [slotsWeight]; omega)
    · refine Pays.bind (modifyAux_pays ?_) fun _ => .pure (by omega)
      exact fun _ => rfl

/-- A container is entered before its bytes are read. -/
theorem started_footprint (t : Tables) (kind : ContainerKind) :
    (t.started kind).footprint = t.footprint + 1 := by
  simp [Tables.footprint, Tables.started]
  omega

/-- The entries of what is destroyed stay. -/
theorem destroyFrom_footprint (t : Tables) (s : State UInt8 Tables) :
    (s.aux.destroyFrom t.heap.length).footprint ≤ s.aux.footprint := Nat.le_refl _

/-- The lead byte of a container pays for its entry. -/
theorem container_saves {kind : ContainerKind} {body : ObjId → Dec Object}
    (h : ∀ result, Saves Tables.footprint k (body result) Object.weight) :
    Saves Tables.footprint (k + 1) (Dec.container kind body) Object.weight := by
  refine Saves.onFail ?_ destroyFrom_footprint
  refine Saves.after (fun s => ⟨_, s.aux.started kind, rfl, ?_⟩) fun result =>
    (h result).bind fun contents => ?_
  · rw [started_footprint]
    omega
  · refine Pays.bind (modifyAux_pays ?_) fun _ => .pure (Nat.le_refl _)
    exact fun _ => rfl

/-! ### Forms -/

section Forms

variable {self : Dec Object} (hself : Pays Tables.footprint 0 self Object.weight)

include hself

theorem readObjectUntilEnd_pays :
    Pays Tables.footprint 0 (readObjectUntilEnd P self) fun values => (values.map Object.weight).sum := by
  refine Pays.iter (k := fun values => (values.map Object.weight).sum) (fun values => ?_) []
  rw [readObjectUntilEndStep_eq]
  refine .ahead fun code => Pays.saves (.ite (fun _ => ?_) fun _ => ?_)
  · exact Pays.next.andThen fun _ => .pure (by simp)
  · exact hself.andThen fun o => .pure (by simp; omega)

theorem readEntries_pays (result : ObjId) : Pays Tables.footprint 0 (readEntries P self result)
    fun entries => (entries.map fun e => e.1.weight + e.2.weight).sum := by
  refine Pays.bind (w := slotsWeight) (Pays.iter (k := slotsWeight) (fun objMap => ?_) [])
    fun objMap => .pure ?_
  · rw [readEntriesStep_eq]
    refine .ahead fun code => Pays.saves (.ite (fun _ => ?_) fun _ => ?_)
    · exact Pays.next.andThen fun _ => .pure (by simp)
    · refine hself.andThen fun key => hself.andThen fun value => ?_
      refine Pays.bind ((emplace_pays result objMap key value).mono (by omega) fun _ => Nat.le_refl _)
        fun _ => .pure (Nat.le_refl _)
  · rw [List.map_map]
    exact Nat.le_refl _

/-- The elements of a list behind their lead byte. -/
theorem typedListValues_pays (code : UInt8) : Pays Tables.footprint 0 (typedListValues P self code)
    fun values => (values.map Object.weight).sum := by
  refine .ite (fun _ => readObjectUntilEnd_pays hself) fun _ => .ite (fun _ => ?_) fun _ =>
    .ite (fun _ => hself.times _) fun _ => .failure
  exact decodeInt32_pays.andThen fun _ => (hself.times _).mono (Nat.zero_le _) fun _ => Nat.le_refl _

theorem untypedListValues_pays (code : UInt8) : Pays Tables.footprint 0 (untypedListValues P self code)
    fun values => (values.map Object.weight).sum := by
  refine .ite (fun _ => readObjectUntilEnd_pays hself) fun _ => .ite (fun _ => ?_) fun _ =>
    .ite (fun _ => hself.times _) fun _ => .pure (by simp)
  exact decodeInt32_pays.andThen fun _ => (hself.times _).mono (Nat.zero_le _) fun _ => Nat.le_refl _

theorem typedListForm_saves (result : ObjId) :
    Saves Tables.footprint 0 (typedListForm P self result) Object.weight :=
  .next fun code => decodeTypeRef_pays.bind fun _ => (typedListValues_pays hself code).bind fun values =>
    .pure (by simp)

theorem untypedListForm_saves (result : ObjId) :
    Saves Tables.footprint 0 (untypedListForm P self result) Object.weight :=
  .next fun code => (untypedListValues_pays hself code).bind fun values => .pure (by simp)

theorem typedMapForm_saves (result : ObjId) :
    Saves Tables.footprint 0 (typedMapForm P self result) Object.weight :=
  .next fun _ => decodeTypeRef_pays.bind fun _ => (readEntries_pays hself result).bind fun entries =>
    .pure (by simp)

theorem untypedMapForm_saves (result : ObjId) :
    Saves Tables.footprint 0 (untypedMapForm P self result) Object.weight :=
  .next fun _ => (readEntries_pays hself result).bind fun entries => .pure (by simp)

theorem classInstanceForm_saves (result : ObjId) :
    Saves Tables.footprint 0 (classInstanceForm P self result) Object.weight := by
  refine .ahead fun code => ?_
  have fields (definition : RawDefinition) : Pays Tables.footprint 0
      (times self definition.fieldNames.length >>= fun data =>
        pure (.classInstance result definition data)) Object.weight :=
    (hself.times _).bind fun data => .pure (by simp)
  by_cases hc : code = 0x43
  · rw [readActualDefinition, if_pos hc]
    refine Saves.bind (w := fun _ => 0) (decodeDefinition_saves.bind fun _ => .pure (Nat.le_refl _)) fun _ => ?_
    exact (decodeDefinition_pays.mono (Nat.le_refl _) fun _ => Nat.zero_le _).bind fields
  · rw [readActualDefinition, if_neg hc]
    exact Saves.after (fun s => ⟨(), s.aux, rfl, Nat.le_refl _⟩) fun _ => decodeDefinition_saves.bind fields

/-- What a lead byte announces. -/
theorem decodeObjectForm_saves (code : UInt8) :
    Saves Tables.footprint 1 (decodeObjectForm P self code) Object.weight := by
  have leaf {α : Type} {m : Dec α} (hm : Dec.Leaf m) (he : Evolves (· = ·) m) {f : α → Object}
      (hf : ∀ a, (f a).weight = 1) :
      Saves Tables.footprint 1 (m >>= fun a => pure (f a)) Object.weight :=
    pays_leaf (hm.pays_one he) fun a => (hf a).le
  unfold decodeObjectForm
  split
  · exact .next fun _ => .pure (Nat.le_refl _)
  · exact pays_leaf decodeBool_pays fun _ => Nat.le_refl _
  · exact leaf (readDate_leaf _) (readDate_evolves _) fun _ => rfl
  · exact leaf decodeDouble_leaf decodeDouble_evolves fun _ => rfl
  · exact container_saves (typedListForm_saves hself)
  · exact container_saves (untypedListForm_saves hself)
  · exact container_saves (typedMapForm_saves hself)
  · exact container_saves (untypedMapForm_saves hself)
  · exact Pays.saves (k := 0) ((decodeDefinition_pays.mono (Nat.le_refl _) fun _ => Nat.zero_le _).bind
      fun _ => hself)
  · exact container_saves (classInstanceForm_saves hself)
  · exact .next fun _ => decodeInt32_pays.andThen fun _ => (lookup_pays _).bind fun _ =>
      (record_pays _).bind fun _ => .pure (by simp [Object.weight, Object.walk, Object.share])
  · exact pays_leaf decodeString_pays fun _ => Nat.le_refl _
  · exact pays_leaf decodeBytes_pays fun _ => Nat.le_refl _
  · exact leaf decodeInt64_leaf decodeInt64_evolves fun _ => rfl
  · exact leaf decodeInt32_leaf decodeInt32_evolves fun _ => rfl
  · exact Pays.failure.saves (k := 0)

end Forms

/-- **What `decode<Object>` reads pays for what it keeps.** -/
theorem decodeObject_pays : Pays Tables.footprint 0 (decodeObject P) Object.weight := by
  refine Pays.fix (k := fun _ => 0) (fun self hself _ => ?_) ()
  rw [decodeObjectBody_eq]
  exact .ahead (decodeObjectForm_saves (hself ()))

/-! ### Calls -/

theorem decodeMap_saves (typed : Bool) : Saves Tables.footprint 1 (decodeMap P typed) Object.weight := by
  have hbyte : Saves Tables.footprint 0 (readByte P : Dec (Bool × UInt8)) fun _ => 0 := fun s => by
    rcases hu : s.cursor.unread with _ | ⟨b, bs⟩
    · simp [readByte_of_nil P hu, Outcome.Within, hu]
    · simp [readByte_of_cons P hu, Outcome.Within, hu]
  have entries {result : ObjId} {type : Option Bytes} : Pays Tables.footprint 0
      (readEntries P (decodeObject P) result >>= fun entries => pure (.map result type entries))
      Object.weight :=
    (readEntries_pays decodeObject_pays result).bind fun _ => .pure (by simp)
  cases typed with
  | false =>
    exact container_saves fun result => hbyte.bind fun _ => (abslAssert_pays _).bind fun _ =>
      (abslAssert_pays _).bind fun _ => entries
  | true =>
    exact container_saves fun result => hbyte.bind fun _ => (abslAssert_pays _).bind fun _ =>
      (abslAssert_pays _).bind fun _ => decodeTypeRef_pays.bind fun _ => entries

/-- A call for a container enters the container before it looks at the input. -/
theorem decodeContainer_saves (kind : ContainerKind) :
    Saves Tables.footprint 1 (decodeContainer P kind) Object.weight := by
  have hself := decodeObject_pays (P := P)
  cases kind with
  | list typed =>
    rw [decodeContainer]
    cases typed with
    | false =>
      rw [decodeList, if_neg Bool.false_ne_true, decodeUntypedList_eq]
      exact container_saves (untypedListForm_saves hself)
    | true =>
      rw [decodeList, if_pos rfl, decodeTypedList_eq]
      exact container_saves (typedListForm_saves hself)
  | map typed => exact decodeMap_saves typed
  | classInstance =>
    rw [decodeContainer, decodeClassInstance_eq]
    exact container_saves (classInstanceForm_saves hself)

/-- What a value that is returned takes up. -/
def DecodedType.weight : (T : DecodedType) → T.Value → ℕ
  | .object, o | .container _, o => Object.weight o
  | .string, data | .bytes, data => stored data
  | .bool, _ | .int32, _ | .int64, _ | .double, _ | .milliseconds, _ | .definition, _ => 1

/-- What the entry of a container takes up when there is nothing to read. -/
def DecodedType.unpaid : DecodedType → Bytes → ℕ
  | .container _, [] => 1
  | _, _ => 0

/-- What a call reads pays for what it keeps and what it returns. -/
theorem decode_within (T : DecodedType) (s : State UInt8 Tables) : (decode P T s).Within Tables.footprint
    (s.aux.footprint + s.cursor.unread.length + T.unpaid s.cursor.unread) T.weight := by
  have leaf {α : Type} {m : Dec α} (hm : Dec.Leaf m) (he : Evolves (· = ·) m) :
      Pays Tables.footprint 0 m fun _ => 1 := hm.pays_one he
  cases T with
  | object => exact decodeObject_pays s
  | bool => exact decodeBool_pays s
  | int32 => exact decodeInt32_pays s
  | int64 => exact leaf decodeInt64_leaf decodeInt64_evolves s
  | double => exact leaf decodeDouble_leaf decodeDouble_evolves s
  | string => exact decodeString_pays s
  | bytes => exact decodeBytes_pays s
  | milliseconds => exact leaf (readDate_leaf _) (readDate_evolves _) s
  | container kind =>
    refine (decodeContainer_saves kind s).mono ?_ fun _ => Nat.le_refl _
    cases s.cursor.unread with
    | nil => exact Nat.le_refl _
    | cons b bs =>
      simp only [DecodedType.unpaid, List.length_cons]
      omega
  | definition => exact decodeDefinition_pays s

/-! ### Runs -/

/-- What calls have returned that are made one after the other, also behind calls that fail, and how many
of them were for containers with nothing left to read. -/
inductive Received (P : Platform) :
    State UInt8 Tables → List Decoded → ℕ → State UInt8 Tables → Prop where
  | nil (s : State UInt8 Tables) : Received P s [] 0 s
  | returned {T : DecodedType} {s s₁ s' : State UInt8 Tables} {v : T.Value} {vs : List Decoded} {n : ℕ}
    (h : decode P T s = .ok v s₁) (tail : Received P s₁ vs n s') :
    Received P s (⟨T, v⟩ :: vs) (n + T.unpaid s.cursor.unread) s'
  | failed {T : DecodedType} {s s₁ s' : State UInt8 Tables} {vs : List Decoded} {n : ℕ}
    (h : decode P T s = .fail s₁) (tail : Received P s₁ vs n s') :
    Received P s vs (n + T.unpaid s.cursor.unread) s'

/-- What values take up. -/
def received (vs : List Decoded) : ℕ := (vs.map fun v => v.1.weight v.2).sum

/-- **Whatever the input, a decoder keeps no more than it reads.**  From every state on, and however many
calls fail, the containers and names in the tables and the values that are returned take up no more than
what they took up before and the bytes that have been read, and one for each call for a container at the
end of the input. -/
theorem received_footprint_le (P : Platform) (s s' : State UInt8 Tables) (vs : List Decoded) (n : ℕ)
    (h : Received P s vs n s') : s'.aux.footprint + received vs + s'.cursor.unread.length ≤
      s.aux.footprint + s.cursor.unread.length + n := by
  induction h with
  | nil s => simp [received]
  | @returned T s s₁ s' v vs n h tail ih =>
    have hcall := decode_within (P := P) T s
    rw [h, Outcome.Within] at hcall
    simp only [received, List.map_cons, List.sum_cons] at ih ⊢
    omega
  | @failed T s s₁ s' vs n h tail ih =>
    have hcall := decode_within (P := P) T s
    rw [h, Outcome.Within] at hcall
    omega

/-- An empty list, and a call for another one at the end of the input: its entry stays. -/
theorem received_footprint_le_end : ∃ s' : State UInt8 Tables, s'.aux.footprint = 2 ∧
    s'.aux.footprint + received [⟨.container (.list false), (.untypedList 0 [] : Object)⟩] +
      s'.cursor.unread.length ≤ 0 + 1 + 1 := by
  have h₁ : decode .simple (.container (.list false)) (fresh 0 [0x78]) =
      .ok (.untypedList 0 [] : Object) ⟨⟨[0x78], 1, by decide⟩,
        { Tables.empty with valuesRef := [0], heap := [.finished (.untypedList 0 [])] }⟩ := rfl
  have h₂ : decode .simple (.container (.list false)) ⟨⟨[0x78], 1, by decide⟩,
        { Tables.empty with valuesRef := [0], heap := [.finished (.untypedList 0 [])] }⟩ =
      .fail ⟨⟨[0x78], 1, by decide⟩,
        { Tables.empty with valuesRef := [0, 1], heap := [.finished (.untypedList 0 []), .destroyed] }⟩ := rfl
  exact ⟨_, rfl, received_footprint_le .simple (fresh 0 [0x78]) _ _ 1
    (.returned h₁ (.failed h₂ (.nil _)))⟩

end Hessian2
