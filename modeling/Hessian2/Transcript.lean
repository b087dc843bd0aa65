import Hessian2.Conversation

/-!
# Names in the output

Every use of a type name or of a definition leaves its own bytes in the output: all strings of the
name, or its number.

* `Use`, `Message.uses` : the uses of names in a message, in the order in which they are encoded.
* `Piece` : a part of the output.
* `SentOnce` : every name is sent in full where it is used for the first time, and by its number
  afterwards.
* `Enc.Spells` : a function that writes the bytes of a number of uses.
* `encodeMessages_spells` : **every conversation is written like this.**
-/

namespace Hessian2

open Parsing Enc

variable {α β : Type} {P : Platform}

/-! ### Uses of names -/

/-- A use of a type name or of a definition. -/
inductive Use where
  | type (name : Bytes)
  | definition (value : RawDefinition)
  deriving DecidableEq

namespace Object

/-- The name that is used for an object, without what it owns. -/
def use? : Object → Option Use
  | .list _ t _ | .map _ t _ => t.map .type
  | .classInstance _ d _ => some (.definition d)
  | _ => none

end Object

/-- The uses of names in a message, in the order in which they are encoded. -/
def Message.uses : Message → List Use
  | object value => value.walk.filterMap Object.use?
  | typeRef value => [.type value]
  | definition value => [.definition value]

/-- What the function writes when it is called first. -/
def Enc.written (m : Enc α) : Bytes :=
  match m .empty with
  | .ok (_, e) => e.output
  | .error _ => []

namespace Use

/-- The bytes of a name when it is sent in full. -/
def inFull (P : Platform) : Use → Bytes
  | type name => written (encodeString P name)
  | definition value => [0x43] ++ written (encodeString P value.type) ++
      written (encodeInt32 (.ofNat value.fieldNames.length)) ++
        written (encodeFieldNames P value.fieldNames)

/-- The bytes of the number of a name. -/
def index : Use → ℕ → Bytes
  | type _, k => written (encodeInt32 (UInt16.ofNat k).toInt16.toInt32)
  | definition _, k => written (encodeDefRef (UInt16.ofNat k).toInt16)

/-- The bytes of a name where it is used for the first time.  The number follows a definition. -/
def first (P : Platform) : Use → ℕ → Bytes
  | type name, _ => inFull P (type name)
  | definition value, k => inFull P (definition value) ++ index (definition value) k

end Use

/-- The number of a name. -/
def Encoder.number? (e : Encoder) : Use → Option ℕ
  | .type name => e.typesRef.number? name
  | .definition value => e.defRef.idxOf? value

/-- A part of the output: the bytes of a use, or other bytes. -/
inductive Piece where
  | use (value : Use) (bytes : Bytes)
  | other (bytes : Bytes)

namespace Piece

def bytes : Piece → Bytes
  | use _ bytes => bytes
  | other bytes => bytes

def use? : Piece → Option Use
  | use value _ => some value
  | other _ => none

end Piece

/-- The output of the encoder consists of the bytes of the uses and of other bytes.  Every name is
sent in full where it is used for the first time, and by its number wherever it is used again. -/
def SentOnce (P : Platform) (uses : List Use) (e : Encoder) : Prop :=
  ∃ pieces : List Piece, e.output = pieces.flatMap Piece.bytes ∧
    pieces.filterMap Piece.use? = uses ∧
    ∀ before use bytes after, pieces = before ++ .use use bytes :: after →
      ∃ k, e.number? use = some k ∧
        bytes = if use ∈ before.filterMap Piece.use? then use.index k else use.first P k

/-! ### Names on the way -/

namespace Ledger

/-- Enter a name. -/
def use (L : Ledger) : Use → Ledger
  | .type name => ⟨L.types.enter name, L.defs, L.values⟩
  | .definition value => ⟨L.types, L.defs.enter value, L.values⟩

/-- Enter names one after the other. -/
def uses (L : Ledger) (us : List Use) : Ledger := us.foldl use L

@[simp] theorem uses_nil (L : Ledger) : L.uses [] = L := rfl

@[simp] theorem uses_cons (L : Ledger) (u : Use) (us : List Use) :
    L.uses (u :: us) = (L.use u).uses us := rfl

theorem uses_append (L : Ledger) (us vs : List Use) : L.uses (us ++ vs) = (L.uses us).uses vs :=
  List.foldl_append

/-- The number of a name. -/
def number? (L : Ledger) : Use → Option ℕ
  | .type name => L.types.number? name
  | .definition value => L.defs.number? value

/-- The encoder has the names of the ledger. -/
structure Names (L : Ledger) (e : Encoder) : Prop where
  types : e.typesRef = L.types
  defs : e.defRef = L.defs.keys

/-- The numbers of the names fit. -/
structure NamesFit (L : Ledger) : Prop where
  types : L.types.size ≤ 2 ^ 15
  defs : L.defs.size ≤ 2 ^ 15

theorem Names.number? {L : Ledger} {e : Encoder} (h : L.Names e) (u : Use) :
    e.number? u = L.number? u := by
  cases u with
  | type name => rw [Encoder.number?, h.types]; rfl
  | definition value => rw [Encoder.number?, h.defs]; rfl

theorem prefix_use (L : Ledger) (u : Use) : L.Prefix (L.use u) := by
  cases u with
  | type name => exact ⟨L.types.prefix_enter name, List.prefix_rfl, List.prefix_rfl⟩
  | definition value => exact ⟨List.prefix_rfl, L.defs.prefix_enter value, List.prefix_rfl⟩

theorem prefix_uses (L : Ledger) (us : List Use) : L.Prefix (L.uses us) := by
  induction us generalizing L with
  | nil => exact .refl L
  | cons u us ih => exact (L.prefix_use u).trans (ih (L.use u))

theorem Prefix.number? {L L' : Ledger} (h : L.Prefix L') {u : Use} {k : ℕ}
    (hk : L.number? u = some k) : L'.number? u = some k := by
  cases u with
  | type name => exact KeyTable.number?_of_prefix h.types hk
  | definition value => exact KeyTable.number?_of_prefix h.defs hk

theorem Prefix.namesFit {L L' : Ledger} (h : L.Prefix L') (hfit : L'.NamesFit) : L.NamesFit :=
  ⟨h.types.length_le.trans hfit.types, h.defs.length_le.trans hfit.defs⟩

/-- The names that have numbers are those that were used. -/
theorem isSome_number?_use (L : Ledger) (u v : Use) :
    ((L.use u).number? v).isSome ↔ (L.number? v).isSome ∨ v = u := by
  cases u <;> cases v <;>
    simp [use, number?, KeyTable.isSome_number?]

theorem isSome_number?_uses {us : List Use} {v : Use} : ∀ {L : Ledger},
    ((L.uses us).number? v).isSome ↔ (L.number? v).isSome ∨ v ∈ us := by
  induction us with
  | nil => simp
  | cons u us ih =>
    intro L
    rw [uses_cons, ih, isSome_number?_use, List.mem_cons, or_assoc]

end Ledger

/-- The bytes of a use of a name by an encoder that has the names of the ledger. -/
def Use.Spelt (P : Platform) (L : Ledger) (u : Use) (bytes : Bytes) : Prop :=
  (L.use u).NamesFit → ∃ k, (L.use u).number? u = some k ∧
    bytes = if (L.number? u).isSome then u.index k else u.first P k

/-- The pieces are what uses of names leave in the output. -/
def Spelt (P : Platform) : Ledger → List Piece → Prop
  | _, [] => True
  | L, .other _ :: ps => Spelt P L ps
  | L, .use u bytes :: ps => u.Spelt P L bytes ∧ Spelt P (L.use u) ps

theorem spelt_append {ps qs : List Piece} : ∀ {L : Ledger}, Spelt P L (ps ++ qs) ↔
    Spelt P L ps ∧ Spelt P (L.uses (ps.filterMap Piece.use?)) qs := by
  induction ps with
  | nil => simp [Spelt]
  | cons p ps ih =>
    intro L
    cases p with
    | use u bytes =>
      rw [List.cons_append, Spelt, Spelt, ih, and_assoc]
      rfl
    | other bytes => exact ih

/-- What an encoder has written that has the names of the ledger at the end. -/
theorem Spelt.sentOnce {ps : List Piece} {e : Encoder} (h : Spelt P .empty ps)
    (hnames : (Ledger.empty.uses (ps.filterMap Piece.use?)).Names e)
    (hfit : (Ledger.empty.uses (ps.filterMap Piece.use?)).NamesFit)
    (houtput : e.output = ps.flatMap Piece.bytes) :
    SentOnce P (ps.filterMap Piece.use?) e := by
  refine ⟨ps, houtput, rfl, ?_⟩
  rintro before u bytes after rfl
  rw [spelt_append] at h
  have hgrows : ((Ledger.empty.uses (before.filterMap Piece.use?)).use u).Prefix
      (Ledger.empty.uses ((before ++ .use u bytes :: after).filterMap Piece.use?)) := by
    rw [List.filterMap_append, Ledger.uses_append]
    exact Ledger.prefix_uses _ (after.filterMap Piece.use?)
  obtain ⟨k, hk, hbytes⟩ := h.2.1 (hgrows.namesFit hfit)
  refine ⟨k, (hnames.number? u).trans (hgrows.number? hk), hbytes.trans (if_congr ?_ rfl rfl)⟩
  rw [Ledger.isSome_number?_uses]
  cases u <;> simp [Ledger.number?, Ledger.empty, KeyTable.number?]

/-! ### The encoder -/

namespace Enc

/-- Whenever the function returns, it has entered the names that are used, and written their
bytes. -/
def Spells (P : Platform) (m : Enc α) (us : List Use) : Prop :=
  ∀ ⦃L e a e'⦄, L.Names e → m e = .ok (a, e') → (L.uses us).Names e' ∧
    ∃ ps, e'.output = e.output ++ ps.flatMap Piece.bytes ∧ ps.filterMap Piece.use? = us ∧
      Spelt P L ps

namespace Spells

theorem bind {m : Enc α} {f : α → Enc β} {us vs : List Use} (hm : Spells P m us)
    (hf : ∀ a, Spells P (f a) vs) : Spells P (m >>= f) (us ++ vs) := by
  intro L e b e'' h hr
  obtain ⟨a, e', h₁, h₂⟩ := bind_eq_ok.1 hr
  obtain ⟨hnames, ps, hps, rfl, hspelt⟩ := hm h h₁
  obtain ⟨hnames', qs, hqs, rfl, hspelt'⟩ := hf a hnames h₂
  refine ⟨Ledger.uses_append L _ _ ▸ hnames', ps ++ qs, ?_, List.filterMap_append,
    spelt_append.2 ⟨hspelt, hspelt'⟩⟩
  rw [hqs, hps, List.flatMap_append, List.append_assoc]

/-- The first function uses no names. -/
theorem behind {m : Enc α} {f : α → Enc β} {us : List Use} (hm : Spells P m [])
    (hf : ∀ a, Spells P (f a) us) : Spells P (m >>= f) us := hm.bind hf

/-- The second function uses no names. -/
theorem ahead {m : Enc α} {f : α → Enc β} {us : List Use} (hm : Spells P m us)
    (hf : ∀ a, Spells P (f a) []) : Spells P (m >>= f) us := List.append_nil us ▸ hm.bind hf

theorem other {m : Enc α} (hm : ∀ ⦃e a e'⦄, m e = .ok (a, e') → e'.typesRef = e.typesRef ∧
    e'.defRef = e.defRef ∧ ∃ bs, e'.output = e.output ++ bs) : Spells P m [] := by
  intro L e a e' h hr
  obtain ⟨htypes, hdefs, bs, houtput⟩ := hm hr
  refine ⟨⟨htypes.trans h.types, hdefs.trans h.defs⟩, [.other bs], ?_, rfl, trivial⟩
  rw [houtput, List.flatMap_singleton]
  rfl

theorem pure (a : α) : Spells P (pure a) [] := by
  refine .other fun e b e' hr => ?_
  cases hr
  exact ⟨rfl, rfl, [], (List.append_nil _).symm⟩

theorem of_extend {m : Enc α} (hm : ∀ ⦃e a e'⦄, m e = .ok (a, e') → ∃ bs ss, e' = e.extend bs ss) :
    Spells P m [] := by
  refine .other fun e a e' hr => ?_
  obtain ⟨bs, ss, rfl⟩ := hm hr
  exact ⟨rfl, rfl, bs, rfl⟩

theorem rawWrite (bs : Bytes) : Spells P (rawWrite bs) [] := by
  refine .other fun e a e' hr => ?_
  cases hr
  exact ⟨rfl, rfl, bs, rfl⟩

theorem writes {m : Enc Bool} (hm : Writes m) : Spells P m [] := by
  obtain ⟨bs, hbs⟩ := hm
  refine .of_extend fun e a e' hr => ⟨bs, [], ?_⟩
  rw [hbs, Encoder.write_eq_extend] at hr
  cases hr
  rfl

theorem string (s : Bytes) : Spells P (encodeString P s) [] := by
  obtain ⟨bs, hbs⟩ := encodeString_extends P s
  refine .of_extend fun e a e' hr => ⟨bs, refusals P [s], ?_⟩
  rw [hbs] at hr
  cases hr
  rfl

end Spells

end Enc

theorem written_of_writes {m : Enc α} {a : α} {bs : Bytes} (h : ∀ e, m e = .ok (a, e.write bs)) :
    written m = bs := by
  rw [written, h]
  rfl

theorem written_of_extends {m : Enc α} {a : α} {bs : Bytes} {ss : List Bytes}
    (h : ∀ e, m e = .ok (a, e.extend bs ss)) : written m = bs := by
  rw [written, h]
  rfl

/-- What is written for a use behind what is there already. -/
theorem spells_use {m : Enc α} {u : Use} (h : ∀ ⦃L e a e'⦄, L.Names e → m e = .ok (a, e') →
    (L.use u).Names e' ∧ ∃ bytes, e'.output = e.output ++ bytes ∧ u.Spelt P L bytes) :
    Spells P m [u] := by
  intro L e a e' hL hr
  obtain ⟨hnames, bytes, houtput, hspelt⟩ := h hL hr
  refine ⟨hnames, [.use u bytes], ?_, rfl, hspelt, trivial⟩
  rw [houtput, List.flatMap_singleton]
  rfl

theorem encodeTypeRef_spells (v : Bytes) : Spells P (encodeTypeRef P v) [.type v] := by
  refine spells_use fun L e b e' h hr => ?_
  have hget {k : ℕ} (hk : L.types.number? v = some k) : e.getTypeRef v = (UInt16.ofNat k).toInt16 :=
    Encoder.getTypeRef_of_some (by rw [h.types, hk])
  rw [encodeTypeRef, get_bind] at hr
  by_cases href : e.getTypeRef v = -1
  · obtain ⟨bs, hbs⟩ := encodeString_extends P v
    rw [if_pos href, modify_bind, bind_apply_ok (hbs _)] at hr
    cases hr
    refine ⟨⟨congrArg (fun n : KeyTable Bytes => n.enter v) h.types, h.defs⟩, bs, rfl, fun hfit => ?_⟩
    -- a name that is known has a number, and none that fits is read as -1
    have hnew : L.types.number? v = none := by
      by_contra hsome
      obtain ⟨k, hk⟩ := Option.ne_none_iff_exists'.1 hsome
      have hlt := (KeyTable.number?_lt hk).trans_le ((L.types.size_le_size_enter v).trans hfit.types)
      rw [hget hk] at href
      exact number_ne_neg_one hlt href
    refine ⟨L.types.size, KeyTable.number?_enter_of_notMem (KeyTable.number?_eq_none.1 hnew), ?_⟩
    rw [Ledger.number?, hnew]
    exact (written_of_extends hbs).symm
  · obtain ⟨bs, hbs⟩ := encodeInt32_writes (e.getTypeRef v).toInt32
    rw [if_neg href, bind_apply_ok (hbs e)] at hr
    cases hr
    cases hk : L.types.number? v with
    | none =>
      have hmem := Encoder.mem_of_getTypeRef href
      rw [h.types] at hmem
      exact absurd hmem (KeyTable.number?_eq_none.1 hk)
    | some k =>
      have henter : L.types.enter v = L.types :=
        KeyTable.enter_of_mem (List.mem_of_getElem? (KeyTable.number?_eq_some.1 hk))
      refine ⟨⟨h.types.trans henter.symm, h.defs⟩, bs, rfl, fun _ => ⟨k, ?_, ?_⟩⟩
      · rw [Ledger.use, Ledger.number?, henter, hk]
      · rw [Ledger.number?, hk]
        rw [hget hk] at hbs
        exact (written_of_writes hbs).symm

/-- The number of a definition that has one. -/
theorem Ledger.Names.getDefRef {L : Ledger} {e : Encoder} (h : L.Names e)
    (hfit : L.defs.size ≤ 2 ^ 15) {d : RawDefinition} {k : ℕ} (hk : L.defs.number? d = some k) :
    e.getDefRef d = .ok (UInt16.ofNat k).toInt16 := by
  have hget := getDefRef_encoder hfit d e.output [] []
  rw [hk] at hget
  rw [← hget, Encoder.getDefRef, Encoder.getDefRef, h.defs]
  rfl

theorem encodeRawDefinition_spells (d : RawDefinition) :
    Spells P (encodeRawDefinition P d) [.definition d] := by
  refine spells_use fun L e b e' h hr => ?_
  obtain ⟨-, ⟨r, hget, hne, hr⟩ | ⟨hget, b', e₁, e₂, e₃, r, h₁, h₂, h₃, hget', hne, h₄⟩⟩ :=
    encodeRawDefinition_ok hr
  · have hmem : d ∈ L.defs.keys := h.defs ▸ Encoder.mem_of_getDefRef hget hne
    have henter := KeyTable.enter_of_mem hmem
    obtain ⟨k, hk⟩ := Option.isSome_iff_exists.1 (KeyTable.isSome_number?.2 hmem)
    obtain ⟨bs, hbs⟩ := encodeDefRef_writes r
    rw [hbs] at hr
    cases hr
    refine ⟨⟨h.types, h.defs.trans (congrArg KeyTable.keys henter).symm⟩, bs, rfl, fun hfit => ⟨k, ?_, ?_⟩⟩
    · rw [Ledger.use, Ledger.number?, henter, hk]
    · have hfit' : L.defs.size ≤ 2 ^ 15 := (L.defs.size_le_size_enter d).trans hfit.defs
      rw [Except.ok.inj (hget.symm.trans (h.getDefRef hfit' hk))] at hbs
      rw [Ledger.number?, hk]
      exact (written_of_writes hbs).symm
  -- if it were known and without a number, the call would never return
  · have hnot : d ∉ L.defs.keys := by
      intro hmem
      have hover := Encoder.overflown_of_getDefRef (h.defs ▸ hmem) hget
      rw [encodeRawDefinition, encodeRawDefinitionIn_of_overflown 2 hover] at hr
      cases hr
    obtain ⟨bs₁, hbs₁⟩ := encodeString_extends P d.type
    obtain ⟨bs₂, hbs₂⟩ := encodeInt32_writes (.ofNat d.fieldNames.length)
    obtain ⟨bs₃, hbs₃⟩ := encodeFieldNames_extends P d.fieldNames
    obtain ⟨bs₄, hbs₄⟩ := encodeDefRef_writes r
    rw [hbs₁] at h₁
    cases h₁
    rw [hbs₂] at h₂
    cases h₂
    rw [hbs₃] at h₃
    cases h₃
    rw [hbs₄] at h₄
    cases h₄
    have hkeys := KeyTable.keys_enter_of_notMem hnot
    have hdefs : e.defRef ++ [d] = (L.defs.enter d).keys := by rw [hkeys, h.defs]
    refine ⟨⟨h.types, hdefs⟩, [0x43] ++ bs₁ ++ bs₂ ++ bs₃ ++ bs₄, ?_, fun hfit => ?_⟩
    · simp [Encoder.extend, Encoder.write, Encoder.enterDef]
    · have hk := KeyTable.number?_enter_of_notMem hnot
      have hnames : (L.use (.definition d)).Names
          (((((e.write [0x43]).enterDef d).extend bs₁ (refusals P [d.type])).write bs₂).extend bs₃
            (refusals P d.fieldNames)) := ⟨h.types, hdefs⟩
      have hnumber := hget'.symm.trans (hnames.getDefRef hfit.defs hk)
      refine ⟨L.defs.size, hk, ?_⟩
      rw [Except.ok.inj hnumber] at hbs₄
      have hnone : (L.number? (.definition d)).isSome = false := by
        rw [Ledger.number?, KeyTable.number?_eq_none.2 hnot]
        rfl
      rw [hnone, Use.first, Use.inFull, Use.index, written_of_extends hbs₁, written_of_writes hbs₂,
        written_of_extends hbs₃, written_of_writes hbs₄]
      rfl

theorem abslAssert_spells (c : Bool) : Spells P (Enc.abslAssert P c) [] := by
  unfold Enc.abslAssert
  split
  · exact .pure ()
  · intro L e a e' _ hm
    cases hm

theorem encodeRef_spells (target : ObjId) : Spells P (encodeRef P target) [] := by
  intro L e b e' h hr
  have hmiss (r : Int16) :
      Spells P (modify fun e => if r = -1 then e.missNumber target else e) [] := by
    refine .other fun e a e' hr => ?_
    cases hr
    split <;> exact ⟨rfl, rfl, [], (List.append_nil _).symm⟩
  rw [encodeRef, get_bind] at hr
  exact Spells.behind (abslAssert_spells _) (fun _ => (hmiss _).behind fun _ =>
    (Spells.rawWrite _).behind fun _ => (Spells.writes (encodeInt32_writes _)).behind fun _ =>
      .pure true) h hr

theorem enterValue_spells (i : ObjId) : Spells P (enterValue i) [] := by
  refine .other fun e a e' hr => ?_
  cases hr
  exact ⟨rfl, rfl, [], (List.append_nil _).symm⟩

theorem encodeLength_spells (n : ℕ) : Spells P (encodeLength n) [] := by
  unfold encodeLength
  split
  · exact (Spells.writes (encodeInt32_writes _)).behind fun _ => .pure ()
  · exact .pure ()

theorem encodeValues_spells : ∀ {vs : List Object},
    (∀ v ∈ vs, Spells P (encodeObject P v) (v.walk.filterMap Object.use?)) →
      Spells P (encodeValues P vs) ((vs.flatMap Object.walk).filterMap Object.use?)
  | [], _ => .pure ()
  | v :: vs, h => by
    rw [List.forall_mem_cons] at h
    rw [List.flatMap_cons, List.filterMap_append]
    exact h.1.bind fun _ => encodeValues_spells h.2

theorem encodeEntries_spells : ∀ {es : List (Object × Object)},
    (∀ e ∈ es, Spells P (encodeObject P e.1) (e.1.walk.filterMap Object.use?) ∧
      Spells P (encodeObject P e.2) (e.2.walk.filterMap Object.use?)) →
      Spells P (encodeEntries P es)
        ((es.flatMap fun e => e.1.walk ++ e.2.walk).filterMap Object.use?)
  | [], _ => .pure ()
  | e :: es, h => by
    rw [List.forall_mem_cons] at h
    rw [List.flatMap_cons, List.append_assoc, List.filterMap_append, List.filterMap_append]
    exact h.1.1.bind fun _ => h.1.2.bind fun _ => encodeEntries_spells h.2

/-- `encode<Object>` writes the bytes of the names of an object in the order of `walk`. -/
theorem encodeObject_spells (o : Object) :
    Spells P (encodeObject P o) (o.walk.filterMap Object.use?) := by
  induction o using Object.induct with
  | null => exact .writes (null_carries (P := P)).writes
  | boolean b => exact .writes (bool_carries (P := P) b).writes
  | integer i => exact .writes (encodeInt32_writes i)
  | long i => exact .writes (int64_carries (P := P) i).writes
  | double d => exact .writes (double_carries (P := P) d).writes
  | date t => exact .writes (date_carries (P := P) t).writes
  | string s => exact .string s
  | binary b => exact .writes (encodeBytes_writes b)
  | ref i => exact encodeRef_spells i
  | list i t vs ih =>
    have hvs := (encodeValues_spells ih).ahead fun _ => .pure true
    rw [Object.walk_list]
    cases t with
    | none =>
      exact (enterValue_spells i).behind fun _ => (Spells.rawWrite _).behind fun _ =>
        (encodeLength_spells _).behind fun _ => hvs
    | some t =>
      exact (enterValue_spells i).behind fun _ => (Spells.rawWrite _).behind fun _ =>
        (encodeTypeRef_spells t).bind fun _ => (encodeLength_spells _).behind fun _ => hvs
  | map i t es ih =>
    have hes := (encodeEntries_spells ih).ahead fun _ => (Spells.rawWrite [0x5a]).behind fun _ =>
      .pure true
    rw [Object.walk_map]
    cases t with
    | none => exact (enterValue_spells i).behind fun _ => (Spells.rawWrite _).behind fun _ => hes
    | some t =>
      exact (enterValue_spells i).behind fun _ => (Spells.rawWrite _).behind fun _ =>
        (encodeTypeRef_spells t).bind fun _ => hes
  | classInstance i d vs ih =>
    have hvs := (encodeValues_spells ih).ahead fun _ => .pure true
    rw [Object.walk_classInstance]
    exact (enterValue_spells i).behind fun _ => (encodeRawDefinition_spells d).bind fun _ => hvs

theorem encodeMessage_spells (m : Message) : Spells P (encodeMessage P m) m.uses := by
  cases m with
  | object o => exact encodeObject_spells o
  | typeRef v => exact encodeTypeRef_spells v
  | definition d => exact encodeRawDefinition_spells d

/-- **Every conversation is written like this**: the names that are used in it, in the order in
which they are used. -/
theorem encodeMessages_spells : ∀ ms : List Message,
    Spells P (encodeMessages P ms) (ms.flatMap Message.uses)
  | [] => .pure []
  | m :: ms => (encodeMessage_spells m).bind fun b =>
      (encodeMessages_spells ms).ahead fun bs => .pure (b :: bs)

/-- The names of a conversation are sent once, as long as their numbers fit. -/
theorem encodeMessages_sentOnce {ms : List Message} {e : Encoder} {results : List Bool}
    (h : encodeMessages P ms .empty = .ok (results, e)) (htypes : e.typesRef.size ≤ 2 ^ 15)
    (hdefs : e.defRef.length ≤ 2 ^ 15) : SentOnce P (ms.flatMap Message.uses) e := by
  obtain ⟨hnames, ps, houtput, huses, hspelt⟩ := encodeMessages_spells ms (L := .empty) ⟨rfl, rfl⟩ h
  rw [← huses] at hnames ⊢
  refine hspelt.sentOnce hnames ⟨?_, ?_⟩ houtput
  · rwa [← hnames.types]
  · rwa [KeyTable.size, ← hnames.defs]

end Hessian2
