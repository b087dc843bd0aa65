import Hessian2.Relocation

/-!
# When an encoder returns

An encoder stops for two reasons: an assertion fails where a reference is written to an object without
a number, and a definition without a number is encoded for ever.

* `Ledger.passes`, `Ledger.accepts` : what is sent, and where it stops, by the tables alone.
* `encodeObject_follows`, `encodeItems_follows` : **an encoder stops where its tables do, for the same
  reason, and otherwise has the same tables.**
* `Numbered` : references come when their targets have a number other than -1.
* `Ledger.Guards` : the tables stop exactly for one of the two reasons.
* `encodeItems_returns_iff` : **which sequences of calls return.**
-/

namespace Hessian2

open Parsing Enc Simulation

variable {α : Type} {P : Platform} {L : Ledger} {e : Encoder}

/-! ### What the tables let through -/

/-- The target of a reference has a number, which is not taken for -1. -/
def referable (n : KeyTable ObjId) (i : ObjId) : Bool :=
  (n.number? i).any fun k => k % 2 ^ 16 != 65535

namespace Ledger

/-- Enter a definition, which gets a number that is not taken for -1 or none at all. -/
def define (L : Ledger) (d : RawDefinition) : Except Stop Ledger :=
  if L.defs.keys.idxOf d < 65535 then .ok (L.send (.definition d)) else .error .diverges

/-- Enter what is sent for an object, without what it owns. -/
def pass (P : Platform) (L : Ledger) : Object → Except Stop Ledger
  | .ref i => if referable L.values i || P.ndebug then .ok L else .error .assertFailed
  | .classInstance i d _ => (Ledger.mk L.types L.defs (L.values.enter i)).define d
  | x => .ok (L.note x)

/-- Enter objects one after the other. -/
def passes (P : Platform) (L : Ledger) (xs : List Object) : Except Stop Ledger :=
  xs.foldlM (pass P) L

/-- Enter what is sent with a message. -/
def accept (P : Platform) (L : Ledger) : Message → Except Stop Ledger
  | .object value => L.passes P value.walk
  | .typeRef value => .ok (L.send (.typeRef value))
  | .definition value => L.define value

/-- Enter messages one after the other. -/
def accepts (P : Platform) (L : Ledger) (ms : List Message) : Except Stop Ledger :=
  ms.foldlM (accept P) L

theorem passes_cons (x : Object) (xs : List Object) :
    L.passes P (x :: xs) = L.pass P x >>= fun L' => L'.passes P xs := List.foldlM_cons

theorem passes_append (xs ys : List Object) :
    L.passes P (xs ++ ys) = L.passes P xs >>= fun L' => L'.passes P ys := List.foldlM_append

theorem accepts_cons (m : Message) (ms : List Message) :
    L.accepts P (m :: ms) = L.accept P m >>= fun L' => L'.accepts P ms := List.foldlM_cons

end Ledger

/-! ### The encoder stops where the tables do -/

/-- The tables of the encoder are taken along, and where the tables stop the encoder stops. -/
abbrev Enc.Follows (m : Enc α) (g : Ledger → Except Stop Ledger) : Prop :=
  Shadows (fun e L => L.Describes e) m g

/-- A function that always returns. -/
theorem Enc.Tracks.follows {m : Enc α} {f : Ledger → Ledger} (h : Tracks m f)
    (hm : ∀ e, ∃ r, m e = .ok r) : Follows m fun L => .ok (f L) := by
  intro e L hd
  obtain ⟨⟨a, e'⟩, hr⟩ := hm e
  rw [hr]
  exact .ok a (h hd hr)

namespace Enc.Follows

theorem rawWrite (bs : Bytes) : Follows (rawWrite bs) .ok := (Tracks.rawWrite bs).follows fun _ => ⟨_, rfl⟩

theorem writes {m : Enc Bool} (h : Writes m) : Follows m .ok :=
  (Tracks.writes h).follows fun e => h.elim fun _ hbs => ⟨_, hbs e⟩

theorem string (s : Bytes) : Follows (encodeString P s) .ok :=
  (Tracks.string s).follows fun e => (encodeString_extends P s).elim fun _ hbs => ⟨_, hbs e⟩

theorem enterValue (i : ObjId) :
    Follows (Hessian2.enterValue i) fun L => .ok ⟨L.types, L.defs, L.values.enter i⟩ :=
  (enterValue_tracks i).follows fun _ => ⟨_, rfl⟩

theorem length (n : ℕ) : Follows (encodeLength n) .ok := by
  unfold encodeLength
  split
  · exact (writes (encodeInt32_writes _)).last fun _ => Shadows.pure ()
  · exact Shadows.pure ()

end Enc.Follows

/-- A type name is always entered. -/
theorem encodeTypeRef_follows (v : Bytes) :
    Follows (encodeTypeRef P v) fun L => .ok (L.send (.typeRef v)) := by
  refine (encodeTypeRef_tracks v).follows fun e => ?_
  rw [encodeTypeRef, get_bind]
  split
  · obtain ⟨bs, hbs⟩ := encodeString_extends P v
    rw [modify_bind, bind_apply_ok (hbs _)]
    exact ⟨_, rfl⟩
  · obtain ⟨bs, hbs⟩ := encodeInt32_writes (e.getTypeRef v).toInt32
    rw [bind_apply_ok (hbs e)]
    exact ⟨_, rfl⟩

/-! ### Definitions -/

/-- The numbers that are taken for -1. -/
theorem toInt16_eq_neg_one_iff {k : ℕ} : (UInt16.ofNat k).toInt16 = -1 ↔ k % 2 ^ 16 = 65535 := by
  have hmod : (UInt16.ofNat k).toInt16.toUInt16.toNat = k % 2 ^ 16 := by simp
  have hneg : (-1 : Int16).toUInt16.toNat = 65535 := by decide
  constructor
  · intro h
    rw [← hmod, h, hneg]
  · intro h
    rw [← hmod, ← hneg, UInt16.toNat_inj] at h
    have hsigned := congrArg UInt16.toInt16 h
    rwa [Int16.toInt16_toUInt16, Int16.toInt16_toUInt16] at hsigned

/-- The number of a definition, as long as the loop finds it. -/
theorem Encoder.getDefRef_of_idxOf {d : RawDefinition} (hd : d ∈ e.defRef)
    (h : e.defRef.idxOf d < 2 ^ 16) :
    e.getDefRef d = .ok (UInt16.ofNat (e.defRef.idxOf d)).toInt16 := by
  have hmem : d ∈ e.defRef.take (2 ^ 16) := (List.mem_take_iff_idxOf_lt hd).2 h
  obtain ⟨i, hi⟩ := Option.isSome_iff_exists.1 (List.isSome_idxOf?.2 hmem)
  have hindex : e.defRef.idxOf d = i := by
    rw [← (List.take_prefix (2 ^ 16) e.defRef).idxOf_eq_of_mem hmem, List.idxOf_eq_getD_idxOf?, hi]
    rfl
  rw [Encoder.getDefRef, hi, hindex]

/-- A definition within the first 65535 is sent by its number. -/
theorem encodeRawDefinitionIn_returns {d : RawDefinition} (hd : d ∈ e.defRef)
    (h : e.defRef.idxOf d < 65535) (depth : ℕ) :
    ∃ r, encodeRawDefinitionIn P (depth + 1) d e = .ok r := by
  have hnumber := Encoder.getDefRef_of_idxOf hd (by omega)
  have hne : (UInt16.ofNat (e.defRef.idxOf d)).toInt16 ≠ -1 := by
    rw [Ne, toInt16_eq_neg_one_iff]
    omega
  obtain ⟨bs, hbs⟩ := encodeDefRef_writes (UInt16.ofNat (e.defRef.idxOf d)).toInt16
  rw [encodeRawDefinitionIn_of_numbered hnumber hne, hbs]
  exact ⟨_, rfl⟩

/-- A definition that comes behind 65535 others has no number. -/
theorem Encoder.overflown_of_idxOf {d : RawDefinition} (h : 65535 ≤ e.defRef.idxOf d)
    (hlen : 65536 ≤ e.defRef.length) : e.Overflown d := by
  refine ⟨fun hmem => ?_, hlen⟩
  have hlt := (List.mem_take_iff_idxOf_lt (List.mem_of_mem_take hmem)).1 hmem
  omega

/-- The first call for a definition enters it, and the second one finds it or never does. -/
theorem encodeRawDefinition_follows (d : RawDefinition) :
    Follows (encodeRawDefinition P d) fun L => L.define d := by
  intro e L hd
  have hreturns (h : ∃ r, encodeRawDefinition P d e = .ok r) (hlt : L.defs.keys.idxOf d < 65535) :
      SameEnd (fun e L => Ledger.Describes L e) (encodeRawDefinition P d e) (L.define d) := by
    obtain ⟨⟨b, e'⟩, hr⟩ := h
    rw [hr, Ledger.define, if_pos hlt]
    exact .ok b (encodeRawDefinition_tracks d hd hr)
  have hdiverges (h : encodeRawDefinition P d e = .error .diverges) (hge : 65535 ≤ L.defs.keys.idxOf d) :
      SameEnd (fun e L => Ledger.Describes L e) (encodeRawDefinition P d e) (L.define d) := by
    rw [h, Ledger.define, if_neg (by omega)]
    exact .error _
  rw [← hd.defs] at hreturns hdiverges
  by_cases hmem : d ∈ e.defRef
  · have hlt := List.idxOf_lt_length_of_mem hmem
    rcases Nat.lt_or_ge (e.defRef.idxOf d) 65535 with h | h
    · exact hreturns (encodeRawDefinitionIn_returns hmem h 1) h
    · exact hdiverges (encodeRawDefinitionIn_of_overflown 2 (Encoder.overflown_of_idxOf h (by omega))) h
  · have hindex : e.defRef.idxOf d = e.defRef.length := List.idxOf_of_notMem hmem
    rcases Nat.lt_or_ge 65535 e.defRef.length with hlen | hlen
    · exact hdiverges
        (encodeRawDefinitionIn_of_overflown 2 (Encoder.overflown_of_idxOf (by omega) hlen)) (by omega)
    · have hnew : e.getDefRef d = .ok (-1) := by
        rw [Encoder.getDefRef, List.idxOf?_eq_none_iff.2 fun h => hmem (List.mem_of_mem_take h)]
        exact if_neg (by omega)
      obtain ⟨bs, ss, hnext⟩ := encodeRawDefinitionIn_extends (P := P) hnew
      -- the table in which the second call looks
      have hindex' : (e.defRef ++ [d]).idxOf d = e.defRef.length := by
        rw [List.idxOf_append_of_notMem hmem, List.idxOf_cons_self]
        rfl
      rcases Nat.lt_or_ge e.defRef.length 65535 with hlt | hge
      · obtain ⟨r, hr⟩ := encodeRawDefinitionIn_returns (P := P) (e := (e.enterDef d).extend bs ss) (d := d)
          (by simp) (by simpa [hindex'] using hlt) 0
        refine hreturns ⟨(true, r.2), ?_⟩ (by omega)
        rw [encodeRawDefinition, hnext, bind_apply_ok hr]
        rfl
      · have hover : ((e.enterDef d).extend bs ss).Overflown d := by
          refine Encoder.overflown_of_idxOf ?_ ?_
          · simpa [hindex'] using hge
          · simpa using hge
        refine hdiverges ?_ (by omega)
        rw [encodeRawDefinition, hnext]
        simp only [bind, StateT.bind, encodeRawDefinitionIn_of_overflown 1 hover, Except.bind]

/-! ### Objects, messages and items -/

theorem encodeRef_follows (i : ObjId) : Follows (encodeRef P i) fun L => L.pass P (.ref i) := by
  intro e L hd
  have hnumber : (e.getValueRef i != -1) = referable L.values i := by
    rw [Encoder.getValueRef, hd.values, referable]
    cases L.values.number? i with
    | none => rfl
    | some k =>
      rw [Option.any_some, Bool.eq_iff_iff, bne_iff_ne, bne_iff_ne, Ne, Ne, toInt16_eq_neg_one_iff]
  have hassert : encodeRef P i e = (Enc.abslAssert P (referable L.values i) >>= fun _ => do
      modify fun e' => if e.getValueRef i = -1 then e'.missNumber i else e'
      writeByte 0x51
      let _ ← encodeInt32 (e.getValueRef i).toInt32
      pure true) e := by
    rw [← hnumber]
    rfl
  rw [hassert, Enc.abslAssert]
  show SameEnd _ _ (if referable L.values i || P.ndebug then .ok L else .error Stop.assertFailed)
  split
  · have hrest := (missNumber_tracks (e.getValueRef i) i).follows fun _ => ⟨_, rfl⟩
    exact hrest.before (fun _ => (Follows.rawWrite _).before fun _ =>
      (Follows.writes (encodeInt32_writes _)).last fun _ => Shadows.pure true) hd
  · exact .error _

theorem encodeValues_follows : ∀ {vs : List Object},
    (∀ v ∈ vs, Follows (encodeObject P v) fun L => L.passes P v.walk) →
      Follows (encodeValues P vs) fun L => L.passes P (vs.flatMap Object.walk)
  | [], _ => Shadows.pure ()
  | v :: vs, h => by
    rw [List.forall_mem_cons] at h
    have hsplit := h.1.bind fun _ => encodeValues_follows h.2
    simp only [List.flatMap_cons, Ledger.passes_append]
    exact hsplit

theorem encodeEntries_follows : ∀ {es : List (Object × Object)},
    (∀ e ∈ es, (Follows (encodeObject P e.1) fun L => L.passes P e.1.walk) ∧
      Follows (encodeObject P e.2) fun L => L.passes P e.2.walk) →
      Follows (encodeEntries P es) fun L => L.passes P (es.flatMap fun e => e.1.walk ++ e.2.walk)
  | [], _ => Shadows.pure ()
  | e :: es, h => by
    rw [List.forall_mem_cons] at h
    have hsplit := h.1.1.bind fun _ => h.1.2.bind fun _ => encodeEntries_follows h.2
    simp only [List.flatMap_cons, Ledger.passes_append, bind_assoc]
    exact hsplit

/-- **`encode<Object>` stops where the tables stop, for the same reason, and otherwise takes them along.** -/
theorem encodeObject_follows (o : Object) : Follows (encodeObject P o) fun L => L.passes P o.walk := by
  have hleaf {m : Enc Bool} {x : Object} (h : Writes m) (hx : ∀ L, Ledger.passes P L x.walk = .ok L) :
      Follows m fun L => L.passes P x.walk := by
    simp only [hx]
    exact .writes h
  induction o using Object.induct with
  | null => exact hleaf (null_carries (P := P)).writes fun _ => rfl
  | boolean b => exact hleaf (bool_carries (P := P) b).writes fun _ => rfl
  | integer i => exact hleaf (encodeInt32_writes i) fun _ => rfl
  | long i => exact hleaf (int64_carries (P := P) i).writes fun _ => rfl
  | double d => exact hleaf (double_carries (P := P) d).writes fun _ => rfl
  | date t => exact hleaf (date_carries (P := P) t).writes fun _ => rfl
  | string s => exact .string s
  | binary b => exact hleaf (encodeBytes_writes b) fun _ => rfl
  | ref i =>
    have hone : (fun L => Ledger.passes P L (Object.ref i).walk) = fun L => L.pass P (.ref i) :=
      funext fun L => bind_pure (L.pass P (.ref i))
    rw [hone]
    exact encodeRef_follows i
  | list i t vs ih =>
    have hvs := encodeValues_follows ih
    simp only [Object.walk_list, Ledger.passes_cons]
    cases t with
    | none =>
      exact (Follows.enterValue i).before fun _ => (Follows.rawWrite _).before fun _ =>
        (Follows.length _).before fun _ => hvs.last fun _ => Shadows.pure true
    | some t =>
      exact (Follows.enterValue i).before fun _ => (Follows.rawWrite _).before fun _ =>
        (encodeTypeRef_follows t).before fun _ => (Follows.length _).before fun _ =>
          hvs.last fun _ => Shadows.pure true
  | map i t es ih =>
    have hes := encodeEntries_follows ih
    simp only [Object.walk_map, Ledger.passes_cons]
    have hend : Follows (rawWrite [0x5a] >>= fun _ => pure true) .ok :=
      (Follows.rawWrite _).last fun _ => Shadows.pure true
    cases t with
    | none =>
      exact (Follows.enterValue i).before fun _ => (Follows.rawWrite _).before fun _ =>
        hes.last fun _ => hend
    | some t =>
      exact (Follows.enterValue i).before fun _ => (Follows.rawWrite _).before fun _ =>
        (encodeTypeRef_follows t).before fun _ => hes.last fun _ => hend
  | classInstance i d vs ih =>
    have hvs := encodeValues_follows ih
    simp only [Object.walk_classInstance, Ledger.passes_cons]
    exact (Follows.enterValue i).before fun _ => (encodeRawDefinition_follows d).bind fun _ =>
      hvs.last fun _ => Shadows.pure true

theorem encodeMessage_follows (m : Message) : Follows (encodeMessage P m) fun L => L.accept P m := by
  cases m with
  | object o => exact encodeObject_follows o
  | typeRef v => exact encodeTypeRef_follows v
  | definition d => exact encodeRawDefinition_follows d

theorem Primitive.encode_follows (p : Primitive) : Follows (p.encode P) .ok := by
  cases p with
  | string s => exact .string s
  | binary b => exact .writes (encodeBytes_writes b)
  | bool b => exact .writes (bool_carries (P := P) b).writes
  | double d => exact .writes (double_carries (P := P) d).writes
  | int64 i => exact .writes (int64_carries (P := P) i).writes
  | uint32 i => exact .writes (int64_carries (P := P) _).writes
  | duration unit value => exact .writes (encodeDuration_same unit value)
  | int8 i | int16 i | int32 i | uint8 i | uint16 i => exact .writes (encodeInt32_writes _)

/-- **A sequence of calls stops where the tables stop, for the same reason, and otherwise takes them
along.** -/
theorem encodeItems_follows : ∀ items : List Item,
    Follows (encodeItems P items) fun L => L.accepts P (messagesOf items)
  | [] => Shadows.pure []
  | .primitive p :: items =>
    p.encode_follows.before fun _ => (encodeItems_follows items).last fun _ => Shadows.pure _
  | .message m :: items => by
    have hsplit := (encodeMessage_follows (P := P) m).bind fun b =>
      (encodeItems_follows items).last fun bs => Shadows.pure (b :: bs)
    have hcons : messagesOf (.message m :: items) = m :: messagesOf items := rfl
    simp only [hcons, Ledger.accepts_cons]
    exact hsplit

/-! ### Which sequences return -/

/-- The references in the objects come when their targets have a number that is not taken for -1. -/
def Numbered : KeyTable ObjId → List Object → Prop
  | _, [] => True
  | n, x :: xs => (∀ i, x.target? = some i → referable n i = true) ∧ Numbered (n.enterAll x.self?.toList) xs

theorem numbered_append {n : KeyTable ObjId} {xs ys : List Object} : Numbered n (xs ++ ys) ↔
    Numbered n xs ∧ Numbered (n.enterAll (xs.filterMap Object.self?)) ys := by
  induction xs generalizing n with
  | nil => simp [Numbered, KeyTable.enterAll]
  | cons x xs ih =>
    have hcons : n.enterAll ((x :: xs).filterMap Object.self?) =
        (n.enterAll x.self?.toList).enterAll (xs.filterMap Object.self?) := by
      rw [← KeyTable.enterAll_append]
      cases hx : x.self? with
      | none => rw [List.filterMap_cons_none hx]; rfl
      | some a => rw [List.filterMap_cons_some hx]; rfl
    rw [List.cons_append, Numbered, Numbered, ih, hcons, and_assoc]

namespace Ledger

/-- `g` enters what `f` enters, and returns exactly if there are not too many definitions in the end and,
in a build with assertions, the references are in order.  The assertion fails for references only, and
the endless run is one for definitions. -/
structure Guards (P : Platform) (g : Ledger → Except Stop Ledger) (f : Ledger → Ledger)
    (R : Ledger → Prop) : Prop where
  eq : ∀ {L L'}, g L = .ok L' → L' = f L
  size_le : ∀ L, L.defs.size ≤ (f L).defs.size
  returns_iff : ∀ {L}, L.defs.size ≤ 65535 →
    ((∃ L', g L = .ok L') ↔ (f L).defs.size ≤ 65535 ∧ (P.ndebug = true ∨ R L))
  asserts : ∀ {L}, g L = .error .assertFailed → P.ndebug = false ∧ ¬ R L
  diverges : ∀ {L}, L.defs.size ≤ 65535 → g L = .error .diverges → 65535 < (f L).defs.size

namespace Guards

variable {g h : Ledger → Except Stop Ledger} {f f' : Ledger → Ledger} {R R' : Ledger → Prop}

/-- What is neither a definition nor a reference. -/
theorem free (hf : ∀ L, (f L).defs = L.defs) (hR : ∀ L, R L) : Guards P (fun L => .ok (f L)) f R where
  eq hr := (Except.ok.inj hr).symm
  size_le L := (hf L).symm ▸ Nat.le_refl _
  returns_iff {L} hsize := ⟨fun _ => ⟨(hf L).symm ▸ hsize, .inr (hR L)⟩, fun _ => ⟨_, rfl⟩⟩
  asserts h := by cases h
  diverges _ h := by cases h

theorem bind (hg : Guards P g f R) (hh : Guards P h f' R') :
    Guards P (fun L => g L >>= h) (fun L => f' (f L)) fun L => R L ∧ R' (f L) where
  eq {L L'} hr := by
    obtain ⟨L₁, h₁, L₂, h₂⟩ := bind_returns_iff.1 ⟨L', hr⟩
    rw [h₁] at hr
    rw [← hg.eq h₁]
    exact hh.eq hr
  size_le L := (hg.size_le L).trans (hh.size_le (f L))
  returns_iff {L} hsize := by
    rw [bind_returns_iff]
    constructor
    · rintro ⟨L₁, h₁, h₂⟩
      obtain rfl := hg.eq h₁
      obtain ⟨hsize₁, hone⟩ := (hg.returns_iff hsize).1 ⟨_, h₁⟩
      obtain ⟨hall, hrest⟩ := (hh.returns_iff hsize₁).1 h₂
      exact ⟨hall, hone.elim .inl fun hone => hrest.imp_right fun hrest => ⟨hone, hrest⟩⟩
    · rintro ⟨hall, href⟩
      have hsize₁ := (hh.size_le (f L)).trans hall
      obtain ⟨L₁, h₁⟩ := (hg.returns_iff hsize).2 ⟨hsize₁, href.imp_right And.left⟩
      obtain rfl := hg.eq h₁
      exact ⟨_, h₁, (hh.returns_iff hsize₁).2 ⟨hall, href.imp_right And.right⟩⟩
  asserts {L} hstop := by
    rcases bind_stops_iff.1 hstop with hfirst | ⟨L₁, h₁, hsecond⟩
    · exact (hg.asserts hfirst).imp_right fun hone hboth => hone hboth.1
    · obtain rfl := hg.eq h₁
      exact (hh.asserts hsecond).imp_right fun hrest hboth => hrest hboth.2
  diverges {L} hsize hstop := by
    rcases bind_stops_iff.1 hstop with hfirst | ⟨L₁, h₁, hsecond⟩
    · exact (hg.diverges hsize hfirst).trans_le (hh.size_le (f L))
    · obtain rfl := hg.eq h₁
      exact hh.diverges ((hg.returns_iff hsize).1 ⟨_, h₁⟩).1 hsecond

end Guards

/-- A definition has a number as long as there are not too many definitions. -/
theorem define_guards (d : RawDefinition) :
    Guards P (fun L => L.define d) (fun L => L.send (.definition d)) fun _ => True := by
  have hlt {L : Ledger} (hsize : L.defs.size ≤ 65535) :
      L.defs.keys.idxOf d < 65535 ↔ (L.send (.definition d)).defs.size ≤ 65535 := by
    have henter : (L.send (.definition d)).defs = L.defs.enter d := rfl
    rw [henter]
    by_cases hd : d ∈ L.defs.keys
    · have hindex := List.idxOf_lt_length_of_mem hd
      rw [KeyTable.enter_of_mem hd]
      exact ⟨fun _ => hsize, fun _ => hindex.trans_le hsize⟩
    · rw [KeyTable.size_enter_of_notMem hd, List.idxOf_of_notMem hd]
      exact Iff.rfl
  refine ⟨fun {L L'} hr => ?_, fun L => (L.defs.prefix_enter d).length_le, fun {L} hsize => ?_,
    fun {L} hr => ?_, fun {L} hsize hr => ?_⟩
  · rw [define] at hr
    split at hr
    · exact (Except.ok.inj hr).symm
    · cases hr
  · rw [and_iff_left (.inr trivial), ← hlt hsize, define]
    split
    · next hd => exact ⟨fun _ => hd, fun _ => ⟨_, rfl⟩⟩
    · next hd => exact ⟨fun ⟨_, hr⟩ => (by cases hr), fun hd' => absurd hd' hd⟩
  · rw [define] at hr
    split at hr <;> cases hr
  · rw [define] at hr
    split at hr
    · cases hr
    · next hd => exact not_le.1 (mt (hlt hsize).2 hd)

/-- A reference can be written if its target has a number or nothing is asserted. -/
theorem ref_guards (i : ObjId) :
    Guards P (fun L => L.pass P (.ref i)) (fun L => L.note (.ref i)) fun L => referable L.values i = true := by
  have hpass (L : Ledger) : L.pass P (.ref i) =
      if referable L.values i || P.ndebug then .ok L else .error .assertFailed := rfl
  refine ⟨fun {L L'} hr => ?_, fun _ => Nat.le_refl _, fun {L} hsize => ?_, fun {L} hr => ?_,
    fun {L} _ hr => ?_⟩
  · rw [hpass] at hr
    split at hr
    · exact (Except.ok.inj hr).symm
    · cases hr
  · have hnote : (L.note (.ref i)).defs.size ≤ 65535 := hsize
    rw [hpass, and_iff_right hnote, or_comm, ← Bool.or_eq_true]
    split
    · next hi => exact ⟨fun _ => hi, fun _ => ⟨_, rfl⟩⟩
    · next hi => exact ⟨fun ⟨_, hr⟩ => (by cases hr), fun hi' => absurd hi' hi⟩
  · rw [hpass] at hr
    split at hr
    · cases hr
    · next hi =>
      rw [Bool.or_eq_true, not_or] at hi
      exact ⟨Bool.eq_false_of_not_eq_true hi.2, hi.1⟩
  · rw [hpass] at hr
    split at hr <;> cases hr

theorem pass_guards (x : Object) : Guards P (fun L => L.pass P x) (fun L => L.note x)
    fun L => ∀ i, x.target? = some i → referable L.values i = true := by
  have hleaf {x : Object} (hdefs : ∀ L : Ledger, (L.note x).defs = L.defs) (hx : x.target? = none) :
      Guards P (fun L => .ok (L.note x)) (fun L => L.note x)
        fun L => ∀ i, x.target? = some i → referable L.values i = true :=
    .free hdefs fun L i hi => absurd (hx.symm.trans hi) nofun
  cases x with
  | ref i =>
    have htarget (L : Ledger) : (∀ j, some i = some j → referable L.values j = true) ↔
        referable L.values i = true := by simp
    simp only [Object.target?, htarget]
    exact ref_guards i
  | classInstance i d vs =>
    have henter : Guards P (fun L => .ok ⟨L.types, L.defs, L.values.enter i⟩)
        (fun L => ⟨L.types, L.defs, L.values.enter i⟩) fun _ => True := .free (fun _ => rfl) fun _ => trivial
    have hboth := henter.bind (define_guards (P := P) d)
    have hnone (L : Ledger) : (∀ j, (Object.classInstance i d vs).target? = some j →
        referable L.values j = true) ↔ True ∧ True :=
      ⟨fun _ => ⟨trivial, trivial⟩, fun _ _ hj => by cases hj⟩
    simp only [hnone]
    exact hboth
  | _ => exact hleaf (fun _ => rfl) rfl

/-- Objects are let through exactly as long as there are not too many definitions and, where references
are checked, all of them can be written. -/
theorem passes_guards : ∀ xs : List Object,
    Guards P (fun L => L.passes P xs) (fun L => L.notes xs) fun L => Numbered L.values xs
  | [] => .free (fun _ => rfl) fun _ => trivial
  | x :: xs => by
    have hboth := (pass_guards (P := P) x).bind (passes_guards xs)
    simp only [passes_cons]
    exact hboth

theorem accept_guards (m : Message) :
    Guards P (fun L => L.accept P m) (fun L => L.send m) fun L => Numbered L.values m.parts := by
  cases m with
  | object o =>
    simp only [send_object]
    exact passes_guards o.walk
  | typeRef v => exact .free (fun _ => rfl) fun _ => trivial
  | definition d => exact define_guards d

theorem accepts_guards : ∀ ms : List Message, Guards P (fun L => L.accepts P ms) (fun L => L.sends ms)
    fun L => Numbered L.values (ms.flatMap Message.parts)
  | [] => .free (fun _ => rfl) fun _ => trivial
  | m :: ms => by
    have hvalues (L : Ledger) : L.values.enterAll (m.parts.filterMap Object.self?) = (L.send m).values := by
      cases m <;> rfl
    have hboth := (accept_guards (P := P) m).bind (accepts_guards ms)
    simp only [accepts_cons, List.flatMap_cons, numbered_append, hvalues]
    exact hboth

end Ledger

/-- **A sequence of calls returns exactly if there are at most 65535 different definitions among what is
sent and, in a build with assertions, every reference comes when its target has a number, which is not
65535 modulo 65536.**  A sequence that ends in the assertion has a reference for which it fails, and one
that does not end has too many definitions. -/
theorem encodeItems_returns_iff (P : Platform) (items : List Item) :
    ((∃ r, encodeItems P items .empty = .ok r) ↔
      (KeyTable.empty.enterAll ((messagesOf items).flatMap Message.definitions)).size ≤ 65535 ∧
        (P.ndebug = true ∨ Numbered .empty ((messagesOf items).flatMap Message.parts))) ∧
    (encodeItems P items .empty = .error .assertFailed →
      P.ndebug = false ∧ ¬ Numbered .empty ((messagesOf items).flatMap Message.parts)) ∧
    (encodeItems P items .empty = .error .diverges →
      65535 < (KeyTable.empty.enterAll ((messagesOf items).flatMap Message.definitions)).size) := by
  have hsame := encodeItems_follows (P := P) items Ledger.describes_empty
  have hguards := Ledger.accepts_guards (P := P) (messagesOf items)
  have hdefs : (Ledger.empty.sends (messagesOf items)).defs =
      KeyTable.empty.enterAll ((messagesOf items).flatMap Message.definitions) := by
    rw [Ledger.sends_eq]
    rfl
  rw [hsame.returns_iff, hsame.stops_iff, hsame.stops_iff, ← hdefs]
  exact ⟨hguards.returns_iff (Nat.zero_le _), hguards.asserts, hguards.diverges (Nat.zero_le _)⟩

end Hessian2
