import Hessian2.Delivery
import Hessian2.Numbering
import Hessian2.Transcript

/-!
# The tables of names mirror each other

Encoder and decoder number type names and definitions by themselves, and agree.

* `SendableInOrder` : messages that can be sent one after the other.
* `NamesMirrored` : the decoder has the names of the messages in the order of their first use, with
  the numbers that the encoder has for them.
* `Message.Returned` : what a call of the decoder returns has the names that were encoded.
* `KeepsNames` : what is asked of a conversation.
* `names_mirrored` : **the names of every conversation are mirrored, and sent once.**
-/

namespace Hessian2

open Parsing Parsing.Parser Enc

namespace Message

/-- The strings of the message are sent unaltered, and its sizes are numbers of the widths on the
wire. -/
def Portable (P : Platform) : Message → Prop
  | object value => ∀ x ∈ value.walk, x.Portable P
  | typeRef value => Intact P value
  | definition value => value.Intact P

/-- The objects in a message, in the order in which they are encoded. -/
def parts : Message → List Object
  | object value => value.walk
  | _ => []

/-- What the decoder returns for the message has the names that were encoded.  An object has them
all if the keys of its maps are different when they arrive. -/
def Returned (distinct : Prop) : Message → Message → Prop
  | object value, m => ∃ copy, m = .object copy ∧
      (distinct → copy.walk.filterMap Object.use? = value.walk.filterMap Object.use?)
  | m, m' => m' = m

end Message

/-- Messages that can be sent one after the other: what is sent for every part alone comes back,
references point to containers that are written before them, and all numbers fit. -/
structure SendableInOrder (P : Platform) (ms : List Message) : Prop where
  portable : ∀ m ∈ ms, m.Portable P
  backward : Ledger.empty.Backward (ms.flatMap Message.parts)
  types : (Ledger.empty.sends ms).types.size ≤ 2 ^ 15
  defs : (Ledger.empty.sends ms).defs.size ≤ 2 ^ 15
  values : ∀ x ∈ ms.flatMap Message.parts, x.target? ≠ none →
    (Ledger.empty.sends ms).values.size ≤ 2 ^ 15

/-- The table holds every name that is used once, in the order of the first uses. -/
structure FirstUses {α : Type} [DecidableEq α] (uses table : List α) : Prop where
  nodup : table.Nodup
  mem : ∀ a, a ∈ table ↔ a ∈ uses
  sorted : table.Pairwise fun a b => uses.idxOf a < uses.idxOf b

/-- The decoder has the type names of the messages in the order of their first use, each at the
position that the encoder has as its number, and the definitions of the encoder. -/
structure NamesMirrored (ms : List Message) (e : Encoder) (t : Tables) : Prop where
  types : FirstUses (ms.flatMap Message.typeNames) t.typesRef
  number : ∀ (i : ℕ) v, t.typesRef[i]? = some v ↔ (e.getTypeRef v).toInt = i
  defs : t.defRef = e.defRef

/-- All calls of the encoder return `true`, each name is sent in full where it is used for the first
time, and by its number afterwards, and if the decoder reads the output without a key whose hash is
undefined, it has the same names with the same numbers, and returns what was encoded. -/
def KeepsNames (P : Platform) (ms : List Message) (t : Tables) : Prop :=
  ∃ e, encodeMessages P ms .empty = .ok (ms.map fun _ => true, e) ∧
    SentOnce P (ms.flatMap Message.uses) e ∧
    ((∃ rs s, decodeMessages P ms ⟨.ofList e.output, t⟩ = .ok rs s ∧ NamesMirrored ms e s.aux ∧
        List.Forall₂ (fun m r => r ≠ [] ∧ ∀ m' ∈ r,
          m.Returned (∀ x ∈ ms.flatMap Message.parts, x.KeysDistinct) m') ms rs) ∨
      ∃ s, decodeMessages P ms ⟨.ofList e.output, t⟩ = .fault .undefinedHash s)

theorem firstUses_enterAll {α : Type} [DecidableEq α] (uses : List α) :
    FirstUses uses (KeyTable.empty.enterAll uses).keys where
  nodup := (KeyTable.empty.enterAll uses).nodup
  mem a := by
    rw [KeyTable.mem_keys_enterAll]
    simp
  sorted := KeyTable.keys_enterAll_sorted uses

variable {P : Platform} {J : Journey} {ms : List Message}

namespace Ledger

theorem prefix_send (L : Ledger) (m : Message) : L.Prefix (L.send m) :=
  ⟨L.types.prefix_enterAll _, L.defs.prefix_enterAll _, L.values.prefix_enterAll _⟩

theorem prefix_sends (L : Ledger) (ms : List Message) : L.Prefix (L.sends ms) := by
  induction ms generalizing L with
  | nil => exact .refl L
  | cons m ms ih => exact (L.prefix_send m).trans (ih (L.send m))

/-- Only the containers matter for references. -/
theorem Backward.congr {xs : List Object} : ∀ {L L' : Ledger}, L.Backward xs →
    L.values = L'.values → L'.Backward xs := by
  induction xs with
  | nil => exact fun _ _ => trivial
  | cons x xs ih =>
    intro L L' h hvalues
    exact ⟨fun i hi => hvalues ▸ h.1 i hi,
      ih h.2 (congrArg (fun table : KeyTable ObjId => table.enterAll x.self?.toList) hvalues)⟩

end Ledger

/-- The messages can be sent one after the other. -/
theorem departAll_of_portable : ∀ {L : Ledger}, (∀ m ∈ ms, m.Portable P) →
    L.Backward (ms.flatMap Message.parts) → (L.sends ms).Prefix J.final →
    (∀ x ∈ ms.flatMap Message.parts, x.target? ≠ none → J.final.values.size ≤ 2 ^ 15) →
    (J.distinct → ∀ x ∈ ms.flatMap Message.parts, x.KeysDistinct) → ¬ J.settled → ¬ J.direct →
      DepartAll P J L ms := by
  induction ms with
  | nil => exact fun _ _ _ _ _ _ _ => trivial
  | cons m ms ih =>
    intro L hportable hbackward hwithin hfits hdistinct hsettled hdirect
    rw [List.forall_mem_cons] at hportable
    simp only [List.flatMap_cons, List.mem_append, or_imp, forall_and] at hfits hdistinct
    rw [List.flatMap_cons, Ledger.backward_append] at hbackward
    -- a name or a definition on its own enters no value
    have hbehind : (L.send m).Backward (ms.flatMap Message.parts) := by
      cases m with
      | object o =>
        rw [Ledger.send_object]
        exact hbackward.2
      | typeRef v => exact hbackward.2.congr rfl
      | definition d => exact hbackward.2.congr rfl
    have hfirst := ((L.send m).prefix_sends ms).trans hwithin
    refine ⟨?_, ih hportable.2 hbehind hwithin hfits.2 hdistinct.2 hsettled hdirect⟩
    cases m with
    | object o =>
      rw [Ledger.send_object] at hfirst
      exact
        { portable := hportable.1
          backward := hbackward.1
          within := hfirst
          fits := hfits.1
          distinct := hdistinct.1
          keys := fun h => absurd h hsettled
          direct := fun h => absurd h hdirect
          fresh := fun h => absurd h hsettled }
    | typeRef v => exact ⟨hportable.1, hfirst⟩
    | definition d => exact ⟨hportable.1, hfirst⟩

/-- The journey of the messages. -/
def SendableInOrder.journey (h : SendableInOrder P ms) : Journey where
  final := Ledger.empty.sends ms
  distinct := ∀ x ∈ ms.flatMap Message.parts, x.KeysDistinct
  settled := False
  direct := False
  types := h.types
  defs := h.defs
  distinct_of_hashed h := (h.elim id id).elim

theorem SendableInOrder.departs (h : SendableInOrder P ms) : DepartAll P h.journey .empty ms :=
  departAll_of_portable h.portable h.backward (.refl _) h.values id id id

/-- What is delivered has the names that were encoded. -/
theorem Message.Delivered.returned {m : Message} {n : ℕ} {r : List Message}
    (h : m.Delivered J n r) : r ≠ [] ∧ ∀ m' ∈ r, m.Returned J.distinct m' := by
  cases m with
  | object o =>
    obtain ⟨value, rfl, hvalue⟩ := h
    refine ⟨List.cons_ne_nil _ _, List.forall_mem_singleton.2 ⟨value, rfl, fun hd => ?_⟩⟩
    have hname (x : Object) (n : ObjId) :
        (x.relocate J.final.number n).use? = x.use? := by cases x <;> rfl
    have hreceived : Object.use? ∘ Object.received = Object.use? := by
      funext x
      cases x <;> rfl
    rw [hvalue hd, Object.filterMap_walk_relocate hname, Object.walk_received,
      List.filterMap_map, hreceived]
  | typeRef v => exact h
  | definition d => exact h

theorem DeliveredAll.returned {ms : List Message} : ∀ {n : ℕ} {rs : List (List Message)},
    DeliveredAll J n ms rs →
      List.Forall₂ (fun m r => r ≠ [] ∧ ∀ m' ∈ r, m.Returned J.distinct m') ms rs := by
  induction ms with
  | nil =>
    rintro n rs rfl
    exact .nil
  | cons m ms ih =>
    rintro n rs ⟨r, rs', rfl, hm, hms⟩
    exact .cons hm.returned (ih hms)

/-- The encoder and the decoder have the names of the ledger. -/
theorem namesMirrored_of_keys {e : Encoder} {t : Tables}
    (he : (Ledger.empty.sends ms).Describes e) (hfit : (Ledger.empty.sends ms).types.size ≤ 2 ^ 15)
    (htypes : t.typesRef = (Ledger.empty.sends ms).types.keys)
    (hdefs : t.defRef = (Ledger.empty.sends ms).defs.keys) : NamesMirrored ms e t := by
  have hkeys : (Ledger.empty.sends ms).types =
      KeyTable.empty.enterAll (ms.flatMap Message.typeNames) :=
    congrArg Ledger.types (Ledger.sends_eq _ ms)
  refine ⟨?_, fun i v => ?_, hdefs.trans he.defs.symm⟩
  · rw [htypes, hkeys]
    exact firstUses_enterAll _
  · have hnumber : (e.getTypeRef v).toInt =
        position ((Ledger.empty.sends ms).types.number? v) := by
      rw [he.eq_encoder, getTypeRef_encoder]
      exact toInt_eq_position hfit v
    rw [htypes, ← KeyTable.number?_eq_some, hnumber]
    cases (Ledger.empty.sends ms).types.number? v with
    | none => simp [position]
    | some k => simp [position]

/-- **The names of every conversation are mirrored, and sent once.** -/
theorem names_mirrored (P : Platform) (ms : List Message) (h : SendableInOrder P ms) (t : Tables)
    (ht : t.New) : KeepsNames P ms t := by
  obtain ⟨bs, rs, t', hland, hdelivered⟩ := messages_travel h.departs (ht.mirrors (P := P))
  have hencode := hland.emits [] [] []
  refine ⟨_, hencode, encodeMessages_sentOnce hencode h.types h.defs, ?_⟩
  rcases hland.reads (.ofList bs) [] (List.append_nil _).symm with hok | ⟨e, s, ⟨rfl, -⟩, hfault⟩
  · exact .inl ⟨rs, _, hok, namesMirrored_of_keys (Ledger.describes_encoder _ _ _ _) h.types
      hland.mirrors.types hland.mirrors.defs, hdelivered.returned⟩
  · exact .inr ⟨s, hfault⟩

/-- A type, a definition, and a list of the type that holds an instance of the definition. -/
theorem names_mirrored_nested : KeepsNames .simple [.typeRef [0x61], .definition ⟨[0x62], []⟩,
    .object (.typedList 1 [0x61] [.classInstance 2 ⟨[0x62], []⟩ []])] .empty := by
  have hdefinition : (RawDefinition.mk [0x62] []).Intact .simple :=
    ⟨.letter rfl (by decide), fun _ h => absurd h List.not_mem_nil, by decide⟩
  refine names_mirrored .simple _ ⟨?_, ?_, by decide, by decide, ?_⟩ .empty ⟨0, rfl⟩
  · refine List.forall_mem_cons.2 ⟨.letter rfl (by decide), List.forall_mem_cons.2 ⟨hdefinition,
      List.forall_mem_singleton.2 (List.forall_mem_cons.2 ⟨⟨?_, by decide⟩,
        List.forall_mem_singleton.2 ⟨hdefinition, rfl⟩⟩)⟩⟩
    rintro s ⟨⟩
    exact .letter rfl (by decide)
  · refine ⟨?_, ?_, trivial⟩ <;> rintro i ⟨⟩
  · exact fun _ _ _ => by decide

/-- A type name that is accepted, and altered in a build that is compatible with the Java
library. -/
theorem names_not_mirrored :
    (∃ e, encodeString Platform.simple.java [0xF0, 0x90, 0xC0, 0x80] .empty = .ok (true, e)) ∧
      ¬ KeepsNames Platform.simple.java [.typeRef [0xF0, 0x90, 0xC0, 0x80]] .empty := by
  have hrun : (match encodeMessages Platform.simple.java [.typeRef [0xF0, 0x90, 0xC0, 0x80]]
        .empty with
      | .ok (_, e) => (decodeMessages Platform.simple.java [.typeRef [0xF0, 0x90, 0xC0, 0x80]]
          ⟨.ofList e.output, .empty⟩).any fun _ s => s.aux.typesRef == [[0xF0, 0x90, 0x80, 0x80]]
      | .error _ => false) = true := by decide +kernel
  refine ⟨⟨_, rfl⟩, ?_⟩
  rintro ⟨e, he, -, ⟨rs, s, hdecode, hmirrored, -⟩ | ⟨s, hfault⟩⟩
  · rw [he] at hrun
    dsimp only at hrun
    rw [hdecode] at hrun
    have hmem := (hmirrored.types.mem [0xF0, 0x90, 0xC0, 0x80]).2 (by decide)
    rw [beq_iff_eq.1 hrun] at hmem
    exact absurd hmem (by decide)
  · rw [he] at hrun
    dsimp only at hrun
    rw [hfault] at hrun
    cases hrun

end Hessian2
