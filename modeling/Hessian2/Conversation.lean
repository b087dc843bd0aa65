import Hessian2.Names

/-!
# Conversations

A sequence of calls of one encoder.

* `Message` : what one call sends: an object, a type or a definition.
* `encodeMessage`, `encodeMessages` : the calls.
* `Ledger.sends` : the ledger of a conversation, which is made of the names and containers in the
  order in which they are used.
* `Ledger.Describes` : an encoder whose tables are those of a ledger.
* `encodeMessages_tracks` : **whatever was sent, the tables are those of the ledger.**
-/

namespace Hessian2

open Parsing Enc

variable {α β : Type} {P : Platform}

/-- What one call of an encoder sends. -/
inductive Message where
  | object (value : Object)
  | typeRef (value : Bytes)
  | definition (value : RawDefinition)

namespace Message

/-- The type names in a message, in the order in which they are encoded. -/
def typeNames : Message → List Bytes
  | object value => value.walk.filterMap Object.typeName?
  | typeRef value => [value]
  | definition _ => []

/-- The definitions in a message, in the order in which they are encoded. -/
def definitions : Message → List RawDefinition
  | object value => value.walk.filterMap Object.definition?
  | typeRef _ => []
  | definition value => [value]

/-- The containers in a message, in the order in which they are encoded. -/
def containers : Message → List ObjId
  | object value => value.containers
  | typeRef _ => []
  | definition _ => []

end Message

/-- `encode` of a message. -/
def encodeMessage (P : Platform) : Message → Enc Bool
  | .object value => encodeObject P value
  | .typeRef value => encodeTypeRef P value
  | .definition value => encodeRawDefinition P value

/-- One call after the other, with what the calls return. -/
def encodeMessages (P : Platform) : List Message → Enc (List Bool)
  | [] => pure []
  | m :: ms => do
    let b ← encodeMessage P m
    let bs ← encodeMessages P ms
    pure (b :: bs)

/-! ### The ledger of a conversation -/

namespace Ledger

/-- Enter what is sent with a message. -/
def send (L : Ledger) (m : Message) : Ledger :=
  ⟨L.types.enterAll m.typeNames, L.defs.enterAll m.definitions, L.values.enterAll m.containers⟩

/-- Enter messages one after the other. -/
def sends (L : Ledger) (ms : List Message) : Ledger := ms.foldl send L

@[simp] theorem sends_nil (L : Ledger) : L.sends [] = L := rfl

@[simp] theorem sends_cons (L : Ledger) (m : Message) (ms : List Message) :
    L.sends (m :: ms) = (L.send m).sends ms := rfl

theorem send_object (L : Ledger) (o : Object) : L.send (.object o) = L.notes o.walk :=
  (L.notes_eq o.walk).symm

/-- The tables of a conversation hold what its messages hold, in the order of first use. -/
theorem sends_eq (L : Ledger) (ms : List Message) : L.sends ms =
    ⟨L.types.enterAll (ms.flatMap Message.typeNames),
      L.defs.enterAll (ms.flatMap Message.definitions),
      L.values.enterAll (ms.flatMap Message.containers)⟩ := by
  induction ms generalizing L with
  | nil => rfl
  | cons m ms ih =>
    rw [sends_cons, ih, send]
    simp only [List.flatMap_cons, KeyTable.enterAll_append]

/-- The tables of the encoder are those of the ledger. -/
structure Describes (L : Ledger) (e : Encoder) : Prop where
  types : e.typesRef = L.types
  defs : e.defRef = L.defs.keys
  values : e.valuesRef = L.values

theorem describes_encoder (L : Ledger) (out : Bytes) (refused : List Bytes)
    (unnumbered : List ObjId) : L.Describes (L.encoder out refused unnumbered) := ⟨rfl, rfl, rfl⟩

theorem Describes.eq_encoder {L : Ledger} {e : Encoder} (h : L.Describes e) :
    e = L.encoder e.output e.refused e.unnumbered := by
  obtain ⟨output, typesRef, defRef, valuesRef, refused, unnumbered⟩ := e
  obtain ⟨rfl, rfl, rfl⟩ := h
  rfl

theorem describes_empty : Ledger.empty.Describes .empty := ⟨rfl, rfl, rfl⟩

end Ledger

/-! ### The encoder keeps it -/

namespace Enc

/-- Whenever the function returns, it has taken the tables of the encoder along `f`. -/
def Tracks (m : Enc α) (f : Ledger → Ledger) : Prop :=
  ∀ ⦃L e a e'⦄, L.Describes e → m e = .ok (a, e') → (f L).Describes e'

namespace Tracks

theorem congr {m : Enc α} {f g : Ledger → Ledger} (h : Tracks m f) (hf : ∀ L, f L = g L) :
    Tracks m g := funext hf ▸ h

theorem pure (a : α) : Tracks (pure a : Enc α) id := by
  intro L e b e' h hm
  cases hm
  exact h

theorem bind {m : Enc α} {k : α → Enc β} {f g : Ledger → Ledger} (hm : Tracks m f)
    (hk : ∀ a, Tracks (k a) g) : Tracks (m >>= k) (g ∘ f) := by
  intro L e b e'' h hr
  obtain ⟨a, e', h₁, h₂⟩ := bind_eq_ok.1 hr
  exact hk a (hm h h₁) h₂

theorem modify {g : Encoder → Encoder} {f : Ledger → Ledger}
    (hg : ∀ L e, L.Describes e → (f L).Describes (g e)) : Tracks (modify g : Enc Unit) f := by
  intro L e a e' h hm
  cases hm
  exact hg L e h

theorem rawWrite (bs : Bytes) : Tracks (rawWrite bs) id := .modify fun _ _ h => ⟨h.1, h.2, h.3⟩

theorem of_extend {m : Enc α} (hm : ∀ ⦃e a e'⦄, m e = .ok (a, e') → ∃ bs ss, e' = e.extend bs ss) :
    Tracks m id := by
  intro L e a e' h hr
  obtain ⟨bs, ss, rfl⟩ := hm hr
  exact ⟨h.1, h.2, h.3⟩

theorem writes {m : Enc Bool} (hm : Writes m) : Tracks m id := by
  obtain ⟨bs, hbs⟩ := hm
  refine .of_extend fun e a e' hr => ⟨bs, [], ?_⟩
  rw [hbs, Encoder.write_eq_extend] at hr
  cases hr
  rfl

theorem string (s : Bytes) : Tracks (encodeString P s) id := by
  obtain ⟨bs, hbs⟩ := encodeString_extends P s
  refine .of_extend fun e a e' hr => ⟨bs, refusals P [s], ?_⟩
  rw [hbs] at hr
  cases hr
  rfl

end Tracks

end Enc

theorem encodeTypeRef_tracks (v : Bytes) :
    Tracks (encodeTypeRef P v) fun L => L.send (.typeRef v) := by
  intro L e b e' h hr
  obtain ⟨hne, bs, rfl⟩ | ⟨-, bs, rfl⟩ := encodeTypeRef_extends hr
  · have hmem : v ∈ L.types.keys := h.types ▸ Encoder.mem_of_getTypeRef hne
    exact ⟨h.types.trans (KeyTable.enter_of_mem hmem).symm, h.defs, h.values⟩
  · exact ⟨congrArg (fun n : KeyTable Bytes => n.enter v) h.types, h.defs, h.values⟩

/-- A number other than -1 is one of the table. -/
theorem Encoder.mem_of_getDefRef {e : Encoder} {d : RawDefinition} {r : Int16}
    (h : e.getDefRef d = .ok r) (hr : r ≠ -1) : d ∈ e.defRef := by
  rw [Encoder.getDefRef] at h
  cases hi : (e.defRef.take (2 ^ 16)).idxOf? d with
  | some i =>
    by_contra hno
    have hnone : (e.defRef.take (2 ^ 16)).idxOf? d = none :=
      List.idxOf?_eq_none_iff.2 fun hm => hno (List.mem_of_mem_take hm)
    rw [hi] at hnone
    cases hnone
  | none =>
    rw [hi] at h
    dsimp only at h
    split at h
    · cases h
    · exact absurd (Except.ok.inj h).symm hr

theorem encodeRawDefinition_tracks (d : RawDefinition) :
    Tracks (encodeRawDefinition P d) fun L => L.send (.definition d) := by
  intro L e b e' h hr
  obtain ⟨r, bs, hd, hne, rfl⟩ | ⟨hd, bs, rfl⟩ := encodeRawDefinition_extends hr
  · have hmem : d ∈ L.defs.keys := h.defs ▸ Encoder.mem_of_getDefRef hd hne
    exact ⟨h.types, h.defs.trans (congrArg KeyTable.keys (KeyTable.enter_of_mem hmem)).symm, h.values⟩
  · have hnot : d ∉ L.defs.keys := by
      intro hmem
      have hover := Encoder.overflown_of_getDefRef (h.defs ▸ hmem) hd
      rw [encodeRawDefinition, encodeRawDefinitionIn_of_overflown 2 hover] at hr
      cases hr
    refine ⟨h.types, ?_, h.values⟩
    have hkeys : (L.defs.enter d).keys = L.defs.keys ++ [d] := KeyTable.keys_enter_of_notMem hnot
    exact (congrArg (· ++ [d]) h.defs).trans hkeys.symm

theorem abslAssert_tracks (c : Bool) : Tracks (Enc.abslAssert P c) id := by
  unfold Enc.abslAssert
  split
  · exact .pure ()
  · intro L e a e' _ hm
    cases hm

theorem missNumber_tracks (r : Int16) (target : ObjId) :
    Tracks (modify fun e => if r = -1 then e.missNumber target else e) id := by
  refine .modify fun L e h => ?_
  split
  · exact ⟨h.1, h.2, h.3⟩
  · exact h

theorem encodeRef_tracks (target : ObjId) : Tracks (encodeRef P target) id := by
  intro L e b e' h hr
  rw [encodeRef, get_bind] at hr
  exact Tracks.bind (abslAssert_tracks _) (fun _ => (missNumber_tracks _ target).bind fun _ =>
    (Tracks.rawWrite _).bind fun _ => (Tracks.writes (encodeInt32_writes _)).bind fun _ =>
      .pure true) h hr

theorem enterValue_tracks (i : ObjId) :
    Tracks (enterValue i) fun L => ⟨L.types, L.defs, L.values.enter i⟩ :=
  .modify fun _ _ h => ⟨h.types, h.defs, congrArg (fun n : KeyTable ObjId => n.enter i) h.values⟩

theorem encodeLength_tracks (n : ℕ) : Tracks (encodeLength n) id := by
  unfold encodeLength
  split
  · exact (Tracks.writes (encodeInt32_writes _)).bind fun _ => .pure ()
  · exact .pure ()

theorem encodeValues_tracks : ∀ {vs : List Object},
    (∀ v ∈ vs, Tracks (encodeObject P v) fun L => L.notes v.walk) →
      Tracks (encodeValues P vs) fun L => L.notes (vs.flatMap Object.walk)
  | [], _ => .pure ()
  | v :: vs, h => by
    rw [List.forall_mem_cons] at h
    refine (h.1.bind fun _ => encodeValues_tracks h.2).congr fun L => ?_
    rw [List.flatMap_cons, Ledger.notes_append]
    rfl

theorem encodeEntries_tracks : ∀ {es : List (Object × Object)},
    (∀ e ∈ es, (Tracks (encodeObject P e.1) fun L => L.notes e.1.walk) ∧
      Tracks (encodeObject P e.2) fun L => L.notes e.2.walk) →
      Tracks (encodeEntries P es) fun L => L.notes (es.flatMap fun e => e.1.walk ++ e.2.walk)
  | [], _ => .pure ()
  | e :: es, h => by
    rw [List.forall_mem_cons] at h
    refine (h.1.1.bind fun _ => h.1.2.bind fun _ => encodeEntries_tracks h.2).congr fun L => ?_
    rw [List.flatMap_cons, Ledger.notes_append, Ledger.notes_append]
    rfl

/-- `encode<Object>` enters the names and containers of an object in the order of `walk`. -/
theorem encodeObject_tracks (o : Object) :
    Tracks (encodeObject P o) fun L => L.notes o.walk := by
  induction o using Object.induct with
  | null => exact .writes (null_carries (P := P)).writes
  | boolean b => exact .writes (bool_carries (P := P) b).writes
  | integer i => exact .writes (encodeInt32_writes i)
  | long i => exact .writes (int64_carries (P := P) i).writes
  | double d => exact .writes (double_carries (P := P) d).writes
  | date t => exact .writes (date_carries (P := P) t).writes
  | string s => exact .string s
  | binary b => exact .writes (encodeBytes_writes b)
  | ref i => exact encodeRef_tracks i
  | list i t vs ih =>
    have hvs := encodeValues_tracks ih
    rw [Object.walk_list]
    cases t with
    | none =>
      exact (enterValue_tracks i).bind fun _ => (Tracks.rawWrite _).bind fun _ =>
        (encodeLength_tracks _).bind fun _ => hvs.bind fun _ => .pure true
    | some t =>
      exact (enterValue_tracks i).bind fun _ => (Tracks.rawWrite _).bind fun _ =>
        (encodeTypeRef_tracks t).bind fun _ => (encodeLength_tracks _).bind fun _ =>
          hvs.bind fun _ => .pure true
  | map i t es ih =>
    have hes := encodeEntries_tracks ih
    rw [Object.walk_map]
    cases t with
    | none =>
      exact (enterValue_tracks i).bind fun _ => (Tracks.rawWrite _).bind fun _ =>
        hes.bind fun _ => (Tracks.rawWrite _).bind fun _ => .pure true
    | some t =>
      exact (enterValue_tracks i).bind fun _ => (Tracks.rawWrite _).bind fun _ =>
        (encodeTypeRef_tracks t).bind fun _ => hes.bind fun _ =>
          (Tracks.rawWrite _).bind fun _ => .pure true
  | classInstance i d vs ih =>
    have hvs := encodeValues_tracks ih
    rw [Object.walk_classInstance]
    exact (enterValue_tracks i).bind fun _ => (encodeRawDefinition_tracks d).bind fun _ =>
      hvs.bind fun _ => .pure true

theorem encodeMessage_tracks (m : Message) : Tracks (encodeMessage P m) fun L => L.send m := by
  cases m with
  | object o =>
    exact (encodeObject_tracks o).congr fun L => (L.send_object o).symm
  | typeRef v => exact encodeTypeRef_tracks v
  | definition d => exact encodeRawDefinition_tracks d

/-- **Whatever was sent, the tables of the encoder are those of the ledger.** -/
theorem encodeMessages_tracks : ∀ ms : List Message,
    Tracks (encodeMessages P ms) fun L => L.sends ms
  | [] => .pure []
  | m :: ms => (encodeMessage_tracks m).bind fun b =>
      (encodeMessages_tracks ms).bind fun bs => .pure (b :: bs)

end Hessian2
