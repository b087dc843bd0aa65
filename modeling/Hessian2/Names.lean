import Hessian2.Ledger
import Hessian2.ObjectForms
import Hessian2.StringOutput

/-!
# Sending names

A type name or a definition is sent in full where the ledger does not have it, and by its number
where it does; the decoder reads it back and extends its tables in the same way.

* `Sent` : a string that comes back as it was sent.
* `typeRef_travels`, `definition_travels` : names.
* `ref_travels` : references.
-/

namespace Hessian2

open Parsing Parsing.Parser Enc

variable {P : Platform}

/-- The string is accepted, and read back as it was sent. -/
def Sent (P : Platform) (s : Bytes) : Prop :=
  Carries (encodeString P s) (decodeString P) s StringLead

/-! ### Types -/

theorem getTypeRef_encoder {L : Ledger} {v : Bytes} (out : Bytes) (refused : List Bytes)
    (unnumbered : List ObjId) : (L.encoder out refused unnumbered).getTypeRef v =
      match L.types.number? v with
      | some k => (UInt16.ofNat k).toInt16
      | none => -1 := rfl

/-- The forms of a type name. -/
theorem decodeTypeRefBy_string {c : UInt8} (hc : StringLead c) : decodeTypeRefBy P c =
    decodeString P >>= fun typeStr =>
      modifyAux (fun t => { t with typesRef := t.typesRef ++ [typeStr] }) >>= fun _ =>
        pure typeStr := by
  refine if_pos ?_
  simp only [UInt8.le_iff_toNat_le, ← UInt8.toNat_inj, UInt8.reduceToNat]
  exact hc

theorem decodeTypeRefBy_int {c : UInt8} (hc : IntLead c) : decodeTypeRefBy P c =
    decodeInt32 P >>= fun ref => Dec.lookup fun t => t.typesRef[ref.toUInt32.toNat]? := by
  refine if_neg ?_
  simp only [UInt8.le_iff_toNat_le, ← UInt8.toNat_inj, UInt8.reduceToNat]
  unfold IntLead at hc
  omega

/-- The number of a type name travels. -/
theorem typeRef_number_travels {L : Ledger} {v : Bytes} {k : ℕ} (hn : L.types.number? v = some k)
    (hk : k < 2 ^ 15) : ∃ c cs, Emits (encodeTypeRef P v) L true (c :: cs) L ∧
      ∀ (t : Tables) a, t.typesRef[k]? = some a → Reads (decodeTypeRef P) t (c :: cs) a t := by
  obtain ⟨c, cs, hc, hw, hr⟩ := int32_carries (P := P) (UInt16.ofNat k).toInt16.toInt32
  refine ⟨c, cs, fun out refused unnumbered => ?_, fun t a ht => ?_⟩
  · rw [encodeTypeRef, get_bind, getTypeRef_encoder, hn]
    dsimp only
    rw [if_neg (number_ne_neg_one hk), bind_apply_ok (hw _), Ledger.write_encoder]
    rfl
  · rw [decodeTypeRef_eq]
    refine .ahead ?_
    rw [decodeTypeRefBy_int hc]
    refine (hr t).bind_nil (Dec.lookup_reads ?_)
    rw [toNat_number hk, ht]

/-- A type name travels in full or as its number, and takes both sides to the same table. -/
theorem typeRef_travels {L : Ledger} {v : Bytes} (hv : Sent P v)
    (hfits : (L.types.enter v).size ≤ 2 ^ 15) :
    ∃ c cs, Emits (encodeTypeRef P v) L true (c :: cs) ⟨L.types.enter v, L.defs, L.values⟩ ∧
      ∀ t : Tables, t.typesRef = L.types.keys →
        Reads (decodeTypeRef P) t (c :: cs) v { t with typesRef := (L.types.enter v).keys } := by
  cases hn : L.types.number? v with
  | some k =>
    have hkey := KeyTable.number?_eq_some.1 hn
    rw [KeyTable.enter_of_mem (List.mem_of_getElem? hkey)] at hfits ⊢
    obtain ⟨c, cs, hw, hr⟩ :=
      typeRef_number_travels (P := P) hn ((KeyTable.number?_lt hn).trans_le hfits)
    refine ⟨c, cs, hw, fun t ht => ?_⟩
    rw [← ht] at hkey ⊢
    exact hr t v hkey
  | none =>
    have hkeys := KeyTable.keys_enter_of_notMem (KeyTable.number?_eq_none.1 hn)
    obtain ⟨c, cs, hc, hw, hr⟩ := hv
    refine ⟨c, cs, fun out refused unnumbered => ?_, fun t ht => ?_⟩
    · rw [encodeTypeRef, get_bind, getTypeRef_encoder, hn]
      dsimp only
      rw [if_pos rfl, modify_bind, bind_apply_ok (hw _)]
      rfl
    · rw [decodeTypeRef_eq]
      refine .ahead ?_
      rw [decodeTypeRefBy_string hc]
      rw [hkeys, ← ht]
      exact (hr t).bind_nil ((reads_modifyAux _ t).bind_nil (reads_pure v _))

/-! ### Definitions -/

/-- The lead bytes of an instance. -/
def InstanceLead (b : UInt8) : Prop := (0x60 ≤ b.toNat ∧ b.toNat ≤ 0x6f) ∨ b.toNat = 0x4f

theorem getDefRef_encoder {L : Ledger} (hfits : L.defs.size ≤ 2 ^ 15) (d : RawDefinition)
    (out : Bytes) (refused : List Bytes) (unnumbered : List ObjId) :
    (L.encoder out refused unnumbered).getDefRef d =
      .ok (match L.defs.number? d with
        | some k => (UInt16.ofNat k).toInt16
        | none => -1) := by
  have hlen : L.defs.keys.length ≤ 2 ^ 15 := hfits
  have htake : L.defs.keys.take (2 ^ 16) = L.defs.keys := List.take_of_length_le (by omega)
  have hdefs : (L.encoder out refused unnumbered).defRef = L.defs.keys := rfl
  rw [Encoder.getDefRef, hdefs, htake, ← KeyTable.number?]
  cases L.defs.number? d with
  | some k => rfl
  | none => exact if_neg (by omega)

/-- The number of a definition travels. -/
theorem defRef_travels {k : ℕ} (hk : k < 2 ^ 15) :
    ∃ c cs, InstanceLead c ∧
      (∀ e, encodeDefRef (UInt16.ofNat k).toInt16 e = .ok (true, e.write (c :: cs))) ∧
      ∀ (t : Tables) d, t.defRef[k]? = some d → Reads (decodeDefinition P) t (c :: cs) d t := by
  have hint := toInt_number hk
  -- the number is in the lead byte, or it is written behind it
  by_cases hsmall : k ≤ 15
  · have hle : (UInt16.ofNat k).toInt16 ≤ 15 := by
      rw [Int16.le_iff_toInt_le, hint]
      exact Int.ofNat_le.2 hsmall
    have hb := toNat_byteOf (0x60 + k)
    refine ⟨byteOf (0x60 + k), [], .inl (by omega), fun e => ?_, fun t d ht => ?_⟩
    · rw [encodeDefRef, if_pos hle, hint]
      rfl
    · rw [decodeDefinition_eq]
      refine (reads_next _ t).bind ?_
      have hform : decodeDefinitionBy P (byteOf (0x60 + k)) =
          Dec.lookup fun t => t.defRef[(byteOf (0x60 + k)).toNat - 0x60]? := by
        rw [decodeDefinitionBy, decodeDefinitionByWith, if_neg, if_neg, if_pos]
        · simp only [UInt8.le_iff_toNat_le, UInt8.reduceToNat]
          omega
        · simp only [← UInt8.toNat_inj, UInt8.reduceToNat]
          omega
        · simp only [← UInt8.toNat_inj, UInt8.reduceToNat]
          omega
      rw [hform]
      have hnat : (byteOf (0x60 + k)).toNat - 0x60 = k := by omega
      exact Dec.lookup_reads (by rw [hnat, ht])
  · have hle : ¬(UInt16.ofNat k).toInt16 ≤ 15 := by
      rw [Int16.le_iff_toInt_le, hint]
      have h15 : (15 : Int16).toInt = 15 := rfl
      omega
    obtain ⟨c, cs, -, hw, hr⟩ := int32_carries (P := P) (UInt16.ofNat k).toInt16.toInt32
    refine ⟨0x4f, c :: cs, .inr rfl, fun e => ?_, fun t d ht => ?_⟩
    · rw [encodeDefRef, if_neg hle, writeByte_bind, bind_apply_ok (hw _), Encoder.write_write]
      rfl
    · rw [decodeDefinition_eq]
      refine (reads_next (0x4f : UInt8) t).bind ?_
      refine (hr t).bind_nil (Dec.lookup_reads ?_)
      rw [toNat_number hk, ht]

/-- The names of the fields travel. -/
theorem fieldNames_travel : ∀ {names : List Bytes}, (∀ s ∈ names, Sent P s) → ∃ bs,
    (∀ e, encodeFieldNames P names e = .ok ((), e.write bs)) ∧
      ∀ t : Tables, Reads (times (decodeString P) names.length) t bs names t
  | [], _ => ⟨[], fun e => by rw [encodeFieldNames, Encoder.write_nil]; rfl, fun t => reads_pure _ t⟩
  | name :: names, h => by
    rw [List.forall_mem_cons] at h
    obtain ⟨⟨c, cs, -, hw, hr⟩, h⟩ := h
    obtain ⟨bs, hws, hrs⟩ := fieldNames_travel h
    refine ⟨(c :: cs) ++ bs, fun e => ?_, fun t => ?_⟩
    · rw [encodeFieldNames, bind_apply_ok (hw e), hws, Encoder.write_write]
    · exact (hr t).bind ((hrs t).bind_nil (reads_pure (name :: names) t))

/-- The strings of a definition come back as they were sent, and the number of its fields is an
`int32_t`. -/
structure RawDefinition.Sent (P : Platform) (d : RawDefinition) : Prop where
  type : Hessian2.Sent P d.type
  fieldNames : ∀ s ∈ d.fieldNames, Hessian2.Sent P s
  length : d.fieldNames.length < 2 ^ 31

/-- The number of a definition in the table travels. -/
theorem definition_number_travels {L : Ledger} {d : RawDefinition} {k : ℕ}
    (hfits : L.defs.size ≤ 2 ^ 15) (hk : L.defs.number? d = some k) :
    ∃ c cs, InstanceLead c ∧ Emits (encodeRawDefinition P d) L true (c :: cs) L ∧
      ∀ (t : Tables) a, t.defRef[k]? = some a → Reads (decodeDefinition P) t (c :: cs) a t := by
  have hk15 : k < 2 ^ 15 := (KeyTable.number?_lt hk).trans_le hfits
  obtain ⟨c, cs, hc, hw, hr⟩ := defRef_travels (P := P) hk15
  refine ⟨c, cs, hc, fun out refused unnumbered => ?_, hr⟩
  have hget := getDefRef_encoder hfits d out refused unnumbered
  rw [hk] at hget
  rw [encodeRawDefinition_of_numbered hget (number_ne_neg_one hk15), hw]
  rfl

/-- A definition travels in full before its first number, and takes both sides to the same table. -/
theorem definition_travels {L : Ledger} {d : RawDefinition} (hd : d.Sent P)
    (hfits : (L.defs.enter d).size ≤ 2 ^ 15) :
    ∃ full c cs, InstanceLead c ∧
      Emits (encodeRawDefinition P d) L true (full ++ c :: cs)
        ⟨L.types, L.defs.enter d, L.values⟩ ∧
      (∀ t : Tables, t.defRef = (L.defs.enter d).keys →
        Reads (decodeDefinition P) t (c :: cs) d t) ∧
      ((full = [] ∧ L.defs.enter d = L.defs) ∨ ∃ fs, full = 0x43 :: fs ∧
        ∀ t : Tables, t.defRef = L.defs.keys →
          Reads (decodeDefinition P) t full d { t with defRef := (L.defs.enter d).keys }) := by
  have hsize : L.defs.size ≤ 2 ^ 15 := (L.defs.size_le_size_enter d).trans hfits
  -- the number that is sent at the end
  obtain ⟨k, hk⟩ : ∃ k, (L.defs.enter d).number? d = some k :=
    Option.ne_none_iff_exists'.1 fun h => KeyTable.number?_eq_none.1 h (by simp)
  have hk15 : k < 2 ^ 15 := (KeyTable.number?_lt hk).trans_le hfits
  obtain ⟨c, cs, hc, hw, hr⟩ := defRef_travels (P := P) hk15
  by_cases hmem : d ∈ L.defs.keys
  · have henter := KeyTable.enter_of_mem hmem
    rw [henter] at hk ⊢
    obtain ⟨c, cs, hc, hw, hr⟩ := definition_number_travels (P := P) hsize hk
    refine ⟨[], c, cs, hc, hw, fun t ht => hr t d ?_, .inl ⟨rfl, rfl⟩⟩
    rw [ht]
    exact KeyTable.number?_eq_some.1 hk
  · have hread (t : Tables) (ht : t.defRef = (L.defs.enter d).keys) :
        Reads (decodeDefinition P) t (c :: cs) d t :=
      hr t d (by rw [ht]; exact KeyTable.number?_eq_some.1 hk)
    have hkeys := KeyTable.keys_enter_of_notMem hmem
    obtain ⟨s, ss, -, hws, hrs⟩ := hd.type
    obtain ⟨n, ns, -, hwn, hrn⟩ := int32_carries (P := P) (.ofNat d.fieldNames.length)
    obtain ⟨fs, hwf, hrf⟩ := fieldNames_travel hd.fieldNames
    refine ⟨[0x43] ++ ((s :: ss) ++ ((n :: ns) ++ fs)), c, cs, hc, fun out refused unnumbered => ?_,
      hread, .inr ⟨_, rfl, fun t ht => ?_⟩⟩
    · have hnew := getDefRef_encoder hsize d out refused unnumbered
      rw [KeyTable.number?_eq_none.2 hmem] at hnew
      have hold := getDefRef_encoder (L := ⟨L.types, L.defs.enter d, L.values⟩) hfits d
        (out ++ ([0x43] ++ ((s :: ss) ++ ((n :: ns) ++ fs)))) refused unnumbered
      simp only [hk] at hold
      have hstate : ((L.encoder out refused unnumbered).write [byteOf 67]).enterDef d =
          (Ledger.mk L.types (L.defs.enter d) L.values).encoder (out ++ [0x43]) refused unnumbered := by
        simp only [Encoder.write, Encoder.enterDef, Ledger.encoder, hkeys]
        rfl
      rw [encodeRawDefinition, encodeRawDefinitionIn_of_new hnew, writeByte_bind, modify_bind, hstate,
        bind_apply_ok (hws _), bind_apply_ok (hwn _), bind_apply_ok (hwf _)]
      simp only [Ledger.write_encoder, List.append_assoc]
      rw [bind_apply_ok (by
        rw [encodeRawDefinitionIn_of_numbered hold (number_ne_neg_one hk15), hw])]
      simp only [Ledger.write_encoder, List.append_assoc]
      rfl
    · rw [decodeDefinition_eq]
      refine (reads_next (0x43 : UInt8) t).bind ?_
      have hlen : (Int32.ofNat d.fieldNames.length).toInt = d.fieldNames.length := by
        rw [Int32.toInt_ofNat_of_lt hd.length]
      have hreserve : Reads (reserve ample (.ofNat d.fieldNames.length)) t [] () t := by
        rw [reserve_ample, if_neg (by omega)]
        exact reads_pure () t
      have hnames : Reads (times (decodeString P) (Int32.ofNat d.fieldNames.length).toInt.toNat) t fs
          d.fieldNames t := by
        rw [hlen, Int.toNat_natCast]
        exact hrf t
      rw [hkeys, ← ht]
      refine (hrs t).bind ((hrn t).bind (Reads.bind hreserve ?_))
      exact hnames.bind_nil ((reads_modifyAux _ t).bind_nil (reads_pure d _))

/-! ### References -/

theorem getValueRef_encoder {L : Ledger} {i : ObjId} (out : Bytes) (refused : List Bytes)
    (unnumbered : List ObjId) : (L.encoder out refused unnumbered).getValueRef i =
      match L.values.number? i with
      | some k => (UInt16.ofNat k).toInt16
      | none => -1 := rfl

/-- The number of a container travels. -/
theorem ref_number_travels {L : Ledger} {i : ObjId} {k : ℕ} (hn : L.values.number? i = some k)
    (hk : k < 2 ^ 15) : ∃ c cs, Emits (encodeRef P i) L true (0x51 :: c :: cs) L ∧
      ∀ (t : Tables) (r : ObjId), t.valuesRef[k]? = some r →
        Reads (refForm P) t (0x51 :: c :: cs) (.ref r)
          { t with events := t.events ++ [.reference r] } := by
  obtain ⟨c, cs, -, hw, hr⟩ := int32_carries (P := P) (UInt16.ofNat k).toInt16.toInt32
  refine ⟨c, cs, fun out refused unnumbered => ?_, fun t r ht => ?_⟩
  · have hassert : abslAssert P ((UInt16.ofNat k).toInt16 != -1) = pure () := by
      rw [abslAssert, bne_iff_ne.2 (number_ne_neg_one hk)]
      rfl
    rw [encodeRef, get_bind, getValueRef_encoder, hn]
    dsimp only
    rw [hassert, pure_bind, modify_bind, if_neg (number_ne_neg_one hk), writeByte_bind,
      bind_apply_ok (hw _), Enc.pure_apply]
    simp only [Ledger.write_encoder, List.append_assoc]
    rfl
  · refine (reads_next (0x51 : UInt8) t).bind ?_
    refine (hr t).bind_nil ((Dec.lookup_reads ?_).bind_nil ((reads_modifyAux _ t).bind_nil
      (reads_pure (Object.ref r) _)))
    rw [toNat_number hk]
    exact ht

/-- A reference travels as the number of its target. -/
theorem ref_travels {L : Ledger} {i : ObjId} (hfits : L.values.size ≤ 2 ^ 15)
    (hi : i ∈ L.values.keys) : ∃ c cs, Emits (encodeRef P i) L true (0x51 :: c :: cs) L ∧
      ∀ (t : Tables) (r : ObjId), t.valuesRef[L.number i]? = some r →
        Reads (refForm P) t (0x51 :: c :: cs) (.ref r)
          { t with events := t.events ++ [.reference r] } := by
  obtain ⟨k, hk⟩ := Option.ne_none_iff_exists'.1 fun h => KeyTable.number?_eq_none.1 h hi
  have hnumber : L.number i = k := by rw [Ledger.number, hk]; rfl
  rw [hnumber]
  exact ref_number_travels hk ((KeyTable.number?_lt hk).trans_le hfits)

end Hessian2
