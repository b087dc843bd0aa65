import Hessian2.Builds
import Hessian2.Relocation

/-!
# Programs on different platforms

The sender and the receiver are programs of their own: their standard libraries hash in other ways, and
`NDEBUG` and `COMPATIBLE_WITH_JAVA_HESSIAN_LITE` are chosen for each of them.

* `Basic` : a string that is written alike in all builds.
* `encodeObject_entails`, `encodeItems_entails` : **an encoder that returns is followed by all encoders
  with fewer assertions, which return the same and write the same.**
* `DeliversAcross` : what one platform sends is received on another one.
* `session_across_platforms` : **sessions can be sent from every platform to every other one**, if the
  platforms agree on surrogates or nothing depends on them.
-/

namespace Hessian2

open Parsing Parsing.Parser Enc Simulation

variable {P Q : Platform}

/-! ### Strings -/

/-- There is no byte that begins a 4-byte character and no mark of a surrogate. -/
def Basic (s : Bytes) : Prop := (∀ b ∈ s, b.toNat < 0xF0) ∧ Unmarked s

instance : DecidablePred Basic := fun _ => inferInstanceAs (Decidable (_ ∧ _))

/-- A character of a basic string has at most three bytes. -/
theorem Basic.length_ne_four {s c : Bytes} (h : Basic s) (hc : IsCharacter c) (hs : c <:+: s) :
    c.length ≠ 4 := by
  obtain ⟨b, tail, rfl, hb⟩ := hc
  have hlt : b.toNat < 0xF0 := h.1 b (hs.subset List.mem_cons_self)
  intro hlength
  rw [List.length_cons] at hlength
  unfold charWidth at hb
  grind

/-- The characters of a basic string are not split. -/
theorem Basic.characters {cs : List Bytes} (h : Basic cs.flatten) (hcs : ∀ c ∈ cs, IsCharacter c) :
    ∀ c ∈ cs, c.length ≠ 4 :=
  fun c hc => h.length_ne_four (hcs c hc) (List.infix_of_mem_flatten hc)

/-- A basic string that comes back on one platform comes back on all of them. -/
theorem Basic.intact {s : Bytes} (h : Basic s) (hs : Intact P s) : Intact Q s := by
  obtain ⟨cs, hcs, rfl, hsplit⟩ := hs
  have hfour := h.characters hcs
  have hlength : cs.flatten.length < 2 ^ 32 := by
    split at hsplit
    · rw [flatMap_halves_eq_self hfour] at hsplit
      exact hsplit.1
    · exact hsplit
  refine ⟨cs, hcs, rfl, ?_⟩
  split
  · have hunpaired : Unpaired cs := by
      refine List.Pairwise.isChain (List.pairwise_of_forall_mem_list ?_)
      rintro c hc d - ⟨hhigh, -⟩
      exact not_isHighSurrogate h.2 (List.infix_of_mem_flatten hc) hhigh
    rw [flatMap_halves_eq_self hfour]
    exact ⟨hlength, fun c hc hlen => absurd hlen (hfour c hc), hunpaired,
      fun c hc hlen => absurd hlen (hfour c hc)⟩
  · exact hlength

/-- Both platforms rewrite surrogates, or none does, or there is nothing to rewrite. -/
def Platform.AgreeOn (P Q : Platform) (s : Bytes) : Prop :=
  P.javaHessianLite = Q.javaHessianLite ∨ Basic s

/-- Such a string is written alike. -/
theorem encodeString_agree {s : Bytes} (h : P.AgreeOn Q s) : encodeString P s = encodeString Q s := by
  obtain hlite | hbasic := h
  · rw [encodeString, encodeString, hlite]
  · unfold encodeString
    split
    · rfl
    · next offsets hoffsets =>
      have hnone : offsets.fourBytesCharOffsets = [] := by
        by_cases hchars : ∃ n, Characters n s
        · obtain ⟨n, hn⟩ := hchars
          obtain ⟨cs, -, hcs, rfl⟩ := Words.split_iff_words.1 hn
          rw [getUtf8StringLengthAndPerChunkOffsets_fourBytes hcs hoffsets, fourBytePositions_eq_nil]
          exact hbasic.characters hcs
        · rw [getUtf8StringLengthAndPerChunkOffsets_eq_none hchars] at hoffsets
          cases hoffsets
      simp [hnone]

/-! ### Texts -/

/-- The strings in an object, without those in what it owns. -/
def Object.texts : Object → List Bytes
  | .string data => [data]
  | .list _ typeName _ | .map _ typeName _ => typeName.toList
  | .classInstance _ definition _ => definition.type :: definition.fieldNames
  | _ => []

/-- The strings in an item. -/
def Item.texts : Item → List Bytes
  | .primitive (.string value) => [value]
  | .primitive _ => []
  | .message (.object value) => value.walk.flatMap Object.texts
  | .message (.typeRef value) => [value]
  | .message (.definition value) => value.type :: value.fieldNames

/-! ### Encoders on two platforms -/

theorem encodeTypeRef_agree {v : Bytes} (h : P.AgreeOn Q v) : encodeTypeRef P v = encodeTypeRef Q v := by
  rw [encodeTypeRef, encodeTypeRef, encodeString_agree h]

theorem encodeFieldNames_agree {names : List Bytes} (h : ∀ s ∈ names, P.AgreeOn Q s) :
    encodeFieldNames P names = encodeFieldNames Q names := by
  induction names with
  | nil => rfl
  | cons name names ih =>
    rw [List.forall_mem_cons] at h
    rw [encodeFieldNames, encodeFieldNames, encodeString_agree h.1, ih h.2]

theorem encodeRawDefinition_agree {d : RawDefinition} (h : ∀ s ∈ d.type :: d.fieldNames, P.AgreeOn Q s) :
    encodeRawDefinition P d = encodeRawDefinition Q d := by
  rw [List.forall_mem_cons] at h
  simp only [encodeRawDefinition, encodeRawDefinitionIn, encodeString_agree h.1,
    encodeFieldNames_agree h.2]

theorem Primitive.encode_agree {p : Primitive}
    (h : ∀ s ∈ (Item.primitive p).texts, P.AgreeOn Q s) : p.encode P = p.encode Q := by
  cases p with
  | string s => exact encodeString_agree (h s (by simp [Item.texts]))
  | _ => rfl

/-- An assertion that holds on one platform holds on one with fewer of them. -/
theorem abslAssert_entails (hdebug : P.ndebug → Q.ndebug) (condition : Bool) :
    Entails (abslAssert P condition) (abslAssert Q condition) := by
  unfold abslAssert
  by_cases h : condition || P.ndebug
  · have h' : condition || Q.ndebug := by
      simp only [Bool.or_eq_true] at h ⊢
      exact h.imp_right hdebug
    rw [if_pos h, if_pos h']
    exact .of_eq rfl
  · rw [if_neg h]
    exact .throw _ _

theorem encodeRef_entails (hdebug : P.ndebug → Q.ndebug) (i : ObjId) :
    Entails (encodeRef P i) (encodeRef Q i) :=
  .get_bind fun _ => (abslAssert_entails hdebug _).bind fun _ => .of_eq rfl

theorem encodeValues_entails {vs : List Object} (h : ∀ v ∈ vs, Entails (encodeObject P v) (encodeObject Q v)) :
    Entails (encodeValues P vs) (encodeValues Q vs) := by
  induction vs with
  | nil => exact .of_eq rfl
  | cons v vs ih =>
    rw [List.forall_mem_cons] at h
    exact h.1.bind fun _ => ih h.2

theorem encodeEntries_entails {es : List (Object × Object)}
    (h : ∀ e ∈ es, Entails (encodeObject P e.1) (encodeObject Q e.1) ∧
      Entails (encodeObject P e.2) (encodeObject Q e.2)) :
    Entails (encodeEntries P es) (encodeEntries Q es) := by
  induction es with
  | nil => exact .of_eq rfl
  | cons e es ih =>
    rw [List.forall_mem_cons] at h
    exact h.1.1.bind fun _ => h.1.2.bind fun _ => ih h.2

/-- **What an encoder writes for an object, one with fewer assertions writes as well.** -/
theorem encodeObject_entails (hdebug : P.ndebug → Q.ndebug) (o : Object)
    (h : ∀ s ∈ o.walk.flatMap Object.texts, P.AgreeOn Q s) :
    Entails (encodeObject P o) (encodeObject Q o) := by
  induction o using Object.induct with
  | string s => exact .of_eq (encodeString_agree (h s (by simp [Object.walk, Object.texts])))
  | ref i => exact encodeRef_entails hdebug i
  | list i t vs ih =>
    rw [Object.walk_list, List.flatMap_cons, List.forall_mem_append, List.flatMap_assoc,
      List.forall_mem_flatMap] at h
    have hvs := encodeValues_entails fun v hv => ih v hv (h.2 v hv)
    cases t with
    | none =>
      exact Entails.bind (.of_eq rfl) fun _ => Entails.bind (.of_eq rfl) fun _ =>
        Entails.bind (.of_eq rfl) fun _ => hvs.bind fun _ => .of_eq rfl
    | some t =>
      have htype := encodeTypeRef_agree (h.1 t (by simp [Object.texts]))
      exact Entails.bind (.of_eq rfl) fun _ => Entails.bind (.of_eq rfl) fun _ =>
        Entails.bind (.of_eq htype) fun _ => Entails.bind (.of_eq rfl) fun _ => hvs.bind fun _ => .of_eq rfl
  | map i t es ih =>
    rw [Object.walk_map, List.flatMap_cons, List.forall_mem_append, List.flatMap_assoc,
      List.forall_mem_flatMap] at h
    simp only [List.flatMap_append, List.forall_mem_append] at h
    have hes := encodeEntries_entails fun e he => ⟨(ih e he).1 (h.2 e he).1, (ih e he).2 (h.2 e he).2⟩
    cases t with
    | none =>
      exact Entails.bind (.of_eq rfl) fun _ => Entails.bind (.of_eq rfl) fun _ =>
        hes.bind fun _ => .of_eq rfl
    | some t =>
      have htype := encodeTypeRef_agree (h.1 t (by simp [Object.texts]))
      exact Entails.bind (.of_eq rfl) fun _ => Entails.bind (.of_eq rfl) fun _ =>
        Entails.bind (.of_eq htype) fun _ => hes.bind fun _ => .of_eq rfl
  | classInstance i d vs ih =>
    rw [Object.walk_classInstance, List.flatMap_cons, List.forall_mem_append, List.flatMap_assoc,
      List.forall_mem_flatMap] at h
    have hvs := encodeValues_entails fun v hv => ih v hv (h.2 v hv)
    exact Entails.bind (.of_eq rfl) fun _ => Entails.bind (.of_eq (encodeRawDefinition_agree h.1)) fun _ =>
      hvs.bind fun _ => .of_eq rfl
  | _ => exact .of_eq rfl

theorem encodeItem_entails (hdebug : P.ndebug → Q.ndebug) {i : Item} (h : ∀ s ∈ i.texts, P.AgreeOn Q s) :
    Entails (encodeItem P i) (encodeItem Q i) := by
  cases i with
  | primitive p => exact .of_eq (Primitive.encode_agree h)
  | message m =>
    cases m with
    | object o => exact encodeObject_entails hdebug o h
    | typeRef v => exact .of_eq (encodeTypeRef_agree (h v (by simp [Item.texts])))
    | definition d => exact .of_eq (encodeRawDefinition_agree h)

theorem encodeItems_entails (hdebug : P.ndebug → Q.ndebug) {items : List Item}
    (h : ∀ s ∈ items.flatMap Item.texts, P.AgreeOn Q s) :
    Entails (encodeItems P items) (encodeItems Q items) := by
  induction items with
  | nil => exact .of_eq rfl
  | cons i items ih =>
    rw [List.flatMap_cons, List.forall_mem_append] at h
    exact (encodeItem_entails hdebug h.1).bind fun _ => (ih h.2).bind fun _ => .of_eq rfl

/-- Encoders that both return have done the same. -/
theorem encodeItems_agree {items : List Item} (h : ∀ s ∈ items.flatMap Item.texts, P.AgreeOn Q s)
    {e : Encoder} {r r' : List Bool × Encoder} (hP : encodeItems P items e = .ok r)
    (hQ : encodeItems Q items e = .ok r') : r = r' := by
  by_cases hdebug : P.ndebug → Q.ndebug
  · exact Except.ok.inj ((encodeItems_entails hdebug h hP).symm.trans hQ)
  · have hsymm : ∀ s ∈ items.flatMap Item.texts, Q.AgreeOn P s := fun s hs => (h s hs).imp_left Eq.symm
    have hdebug' : Q.ndebug → P.ndebug := by tauto
    exact Except.ok.inj (hP.symm.trans (encodeItems_entails hdebug' hsymm hQ))

/-! ### Sessions on two platforms -/

/-- A string that comes back on one of the platforms comes back on the other one. -/
theorem Platform.AgreeOn.intact {s : Bytes} (h : P.AgreeOn Q s) (hs : Intact P s) : Intact Q s := by
  obtain hlite | hbasic := h
  · rw [Intact, hlite] at hs
    exact hs
  · exact hbasic.intact hs

theorem RawDefinition.Intact.agree {d : RawDefinition} (h : ∀ s ∈ d.type :: d.fieldNames, P.AgreeOn Q s)
    (hd : d.Intact P) : d.Intact Q := by
  rw [List.forall_mem_cons] at h
  exact ⟨h.1.intact hd.type, fun s hs => (h.2 s hs).intact (hd.fieldNames s hs), hd.length⟩

theorem Object.Portable.agree {x : Object} (h : ∀ s ∈ x.texts, P.AgreeOn Q s) (hx : x.Portable P) :
    x.Portable Q := by
  cases x with
  | string s => exact (h s List.mem_cons_self).intact hx
  | list i t vs => exact ⟨fun s hs => (h s (by simp [Object.texts, hs])).intact (hx.1 s hs), hx.2⟩
  | map i t es => exact fun s hs => (h s (by simp [Object.texts, hs])).intact (hx s hs)
  | classInstance i d vs => exact ⟨RawDefinition.Intact.agree h hx.1, hx.2⟩
  | _ => exact hx

theorem Message.Portable.agree {m : Message} (h : ∀ s ∈ (Item.message m).texts, P.AgreeOn Q s)
    (hm : m.Portable P) : m.Portable Q := by
  cases m with
  | object o =>
    rw [Item.texts, List.forall_mem_flatMap] at h
    exact fun x hx => Object.Portable.agree (h x hx) (hm x hx)
  | typeRef v => exact (h v List.mem_cons_self).intact hm
  | definition d => exact RawDefinition.Intact.agree h hm

theorem Primitive.Portable.agree {p : Primitive} (h : ∀ s ∈ (Item.primitive p).texts, P.AgreeOn Q s)
    (hp : p.Portable P) : p.Portable Q := by
  cases p with
  | string s => exact (h s List.mem_cons_self).intact hp
  | _ => exact hp

/-- A session on one platform is a session on the other one. -/
theorem Session.agree {items : List Item} (h : Session P items)
    (htexts : ∀ s ∈ items.flatMap Item.texts, P.AgreeOn Q s) : Session Q items := by
  rw [List.forall_mem_flatMap] at htexts
  refine { h with primitives := fun p hp => ?_, messages := fun m hm => ?_ }
  · exact (h.primitives p hp).agree (htexts _ hp)
  · obtain ⟨i, hi, him⟩ := List.mem_filterMap.1 hm
    cases i with
    | primitive p => cases him
    | message m' =>
      obtain rfl : m' = m := Option.some.inj him
      exact (h.messages _ hm).agree (htexts _ hi)

/-- The calls of an encoder on the platform `P` return `true`, the matching calls of a decoder on the
platform `Q` read all that was written and return what was sent, with every container and every reference
to it moved to an address of its own, and both sides have the same names, and as many containers. -/
def DeliversAcross (P Q : Platform) (items : List Item) (t : Tables) : Prop :=
  ∃ e returned s, ∃ f : ObjId → ObjId,
    encodeItems P items .empty = .ok (items.map fun _ => true, e) ∧
    decodeItems Q items ⟨.ofList e.output, t⟩ = .ok returned s ∧
    s.cursor.offset = e.output.length ∧
    List.Forall₂ (fun i r => r ≠ [] ∧ ∀ v ∈ r, v = Item.arrived f i) items returned ∧
    (∀ i ∈ items.flatMap Item.containers, ∀ j ∈ items.flatMap Item.containers, f i = f j → i = j) ∧
    s.aux.typesRef = e.typesRef.keys ∧ s.aux.defRef = e.defRef ∧
    s.aux.valuesRef.length = e.valuesRef.size

/-- What is written alike is received. -/
theorem Session.delivers_across {items : List Item} (h : Session P items)
    (htexts : ∀ s ∈ items.flatMap Item.texts, P.AgreeOn Q s) {t : Tables} (ht : t.New) :
    DeliversAcross P Q items t := by
  obtain ⟨e, -, -, -, hsent, -⟩ := h.delivers (t := .empty) ⟨0, rfl⟩
  obtain ⟨e', returned, s, f, hsent', hreturned⟩ := (h.agree htexts).delivers ht
  have hsame : e = e' := congrArg Prod.snd (encodeItems_agree htexts hsent hsent')
  subst hsame
  exact ⟨e, returned, s, f, hsent, hreturned⟩

/-! ### 4-byte characters -/

section Twins

variable {lite ndebug : Bool}

theorem Primitive.decode_twins (p : Primitive) :
    BuildTwins P lite (p.decode P) (p.decode (P.build lite ndebug)) := by
  cases p with
  | bool v => exact decodeBool_twins.bind fun _ => .pure _
  | int64 v | uint32 v => exact decodeInt64_twins.bind fun _ => .pure _
  | double v => exact decodeDouble_twins.bind fun _ => .pure _
  | string v => exact decodeString_twins.bind fun _ => .pure _
  | binary v => exact decodeBytes_twins.bind fun _ => .pure _
  | duration unit v => exact (readDate_twins unit).bind fun _ => .pure _
  | _ => exact decodeInt32_twins.bind fun _ => .pure _

theorem decodeMessage_twins (m : Message) :
    BuildTwins P lite (decodeMessage P m) (decodeMessage (P.build lite ndebug) m) := by
  cases m with
  | object o => exact decodeObject_twins.bind fun _ => .pure _
  | typeRef v => exact decodeTypeRef_twins.bind fun _ => .pure _
  | definition d =>
    exact .ahead fun _ => decodeDefinition_twins.bind fun _ =>
      .ite (fun _ => decodeDefinition_twins.bind fun _ => .pure _) fun _ => .pure _

theorem decodeItems_twins (items : List Item) :
    BuildTwins P lite (decodeItems P items) (decodeItems (P.build lite ndebug) items) := by
  induction items with
  | nil => exact .pure []
  | cons i items ih =>
    have hitem : BuildTwins P lite (decodeItem P i) (decodeItem (P.build lite ndebug) i) := by
      cases i with
      | primitive p => exact p.decode_twins.bind fun _ => .pure _
      | message m => exact (decodeMessage_twins m).bind fun _ => .pure _
    exact hitem.bind fun _ => ih.bind fun _ => .pure _

end Twins

/-- Nothing that is written on `P` is read otherwise on `Q`: the strings are written alike, or they are
written as they are and nothing looks like a surrogate. -/
def Platform.Reaches (P Q : Platform) (items : List Item) : Prop :=
  (∀ s ∈ items.flatMap Item.texts, P.AgreeOn Q s) ∨ P.javaHessianLite = false ∧
    ∀ r, encodeItems P items .empty = .ok r → Unmarked r.2.output

/-- **Every platform can talk to every other one.**  What is sent in a session on one platform is
received on another one, which may hash in other ways and be built with or without assertions, if both
are built with `COMPATIBLE_WITH_JAVA_HESSIAN_LITE`, or both without it, or the strings are basic, or the
sender is built without it and writes no mark of a surrogate. -/
theorem session_across_platforms (P Q : Platform) (items : List Item) (h : Session P items)
    (hreach : P.Reaches Q items) (t : Tables) (ht : t.New) : DeliversAcross P Q items t := by
  obtain htexts | ⟨hplain, hunmarked⟩ := hreach
  · exact h.delivers_across htexts ht
  · -- a plain receiver reads what was sent, and the receiver reads the same from this buffer
    obtain ⟨e, returned, s, f, hsent, hread, hreturned⟩ :=
      h.delivers_across (Q := Q.plain) (fun _ _ => .inl hplain) ht
    have htwins : BuildTwins Q.plain Q.javaHessianLite (decodeItems Q.plain items)
        (decodeItems (Q.plain.build Q.javaHessianLite Q.ndebug) items) := decodeItems_twins items
    have hsame := htwins.same (s := ⟨.ofList e.output, t⟩) (.inr (hunmarked _ hsent))
    have hbuild : Q.plain.build Q.javaHessianLite Q.ndebug = Q := rfl
    rw [hbuild] at hsame
    exact ⟨e, returned, s, f, hsent, hsame.symm.trans hread, hreturned⟩

/-- A plain build sends a 4-byte character, a list and a reference to the list; the receiver rewrites
surrogates and has no assertions. -/
theorem session_across_platforms_smile : DeliversAcross .simple (Platform.simple.build true true)
    [.primitive (.string [0xF0, 0x9F, 0x98, 0x80]), .message (.object (.untypedList 9 [.string [0x61]])),
      .message (.object (.ref 9))] .empty := by
  refine session_across_platforms .simple _ _ ⟨?_, ?_, ?_, by decide, ?_, ⟨by decide, by decide, by decide⟩⟩
    (.inr ⟨rfl, ?_⟩) .empty ⟨0, rfl⟩
  · intro p hp
    simp only [List.mem_cons, Item.primitive.injEq, reduceCtorEq, List.not_mem_nil, or_false] at hp
    subst hp
    have hwidth : charWidth 0xF0 = [(0x9F : UInt8), 0x98, 0x80].length + 1 := by decide
    have hchar : Characters 1 [0xF0, 0x9F, 0x98, 0x80] := .cons hwidth .nil
    exact .of_characters rfl hchar (by decide)
  · have hlist : ∀ x ∈ (Object.untypedList 9 [.string [0x61]]).walk, x.Portable .simple := by
      simp only [Object.walk, Object.walkValues, List.append_nil, List.forall_mem_cons]
      exact ⟨⟨fun _ h => (by cases h), by decide⟩, .letter rfl (by decide),
        fun _ h => absurd h List.not_mem_nil⟩
    have href : ∀ x ∈ (Object.ref 9).walk, x.Portable .simple := by simp [Object.walk, Object.Portable]
    exact List.forall_mem_cons.2 ⟨hlist, List.forall_mem_singleton.2 href⟩
  · simp only [messagesOf, List.filterMap_cons, Item.message?, List.filterMap_nil, List.flatMap_cons,
      Message.parts, Object.walk, Object.walkValues, List.flatMap_nil, List.append_nil,
      List.cons_append, List.nil_append, List.forall_mem_cons]
    exact ⟨⟨trivial, trivial⟩, ⟨trivial, trivial⟩, ⟨trivial, trivial⟩, fun _ h => absurd h List.not_mem_nil⟩
  · refine ⟨?_, ?_, ?_, trivial⟩ <;> rintro i ⟨⟩
    decide
  · intro r hr
    cases hr
    decide

end Hessian2
