import Hessian2.Conversation

/-!
# Reference numbers

`getTypeRef`, `getDefRef` and `getValueRef` return an `int16_t`, and -1 for what has no number.

* `position` : the position of an entry, or -1.
* `Exact` : the lookups give the positions in the ledger, and the references that are written stand
  for them.
* `numbers_exact_iff` : **the numbers are exact exactly as long as no table has more than 2¹⁵
  entries.**
-/

namespace Hessian2

open Parsing Parsing.Parser Enc

variable {P : Platform}

/-- The position of an entry; -1 for what is not in the table. -/
def position : Option ℕ → ℤ
  | some k => k
  | none => -1

/-- The lookups return positions, and what is written for an entry is read as the entry at its
position, whatever table the reader has. -/
structure Exact (P : Platform) (L : Ledger) (e : Encoder) : Prop where
  typeRef : ∀ v, (e.getTypeRef v).toInt = position (L.types.number? v)
  defRef : ∀ d, ∃ r, e.getDefRef d = .ok r ∧ r.toInt = position (L.defs.number? d)
  valueRef : ∀ i, (e.getValueRef i).toInt = position (L.values.number? i)
  typeBytes : ∀ v k, L.types.number? v = some k →
    ∃ bs, encodeTypeRef P v e = .ok (true, e.write bs) ∧
      ∀ (t : Tables) a, t.typesRef[k]? = some a → Reads (decodeTypeRef P) t bs a t
  defBytes : ∀ d k, L.defs.number? d = some k →
    ∃ bs, encodeRawDefinition P d e = .ok (true, e.write bs) ∧
      ∀ (t : Tables) a, t.defRef[k]? = some a → Reads (decodeDefinition P) t bs a t
  valueBytes : ∀ i k, L.values.number? i = some k →
    ∃ bs, encodeRef P i e = .ok (true, e.write bs) ∧
      ∀ (t : Tables) a, t.valuesRef[k]? = some a →
        Reads (decodeRef P) t bs (.ref a) { t with events := t.events ++ [.reference a] }

/-- A lookup that returns positions as an `int16_t` knows 2¹⁵ of them. -/
theorem size_le_of_exact {α : Type} [DecidableEq α] {table : KeyTable α} {get : α → Int16}
    (h : ∀ a, (get a).toInt = position (table.number? a)) : table.size ≤ 2 ^ 15 := by
  by_contra hlt
  have hlt' : 2 ^ 15 < table.keys.length := by
    rw [KeyTable.size] at hlt
    omega
  have hk : table.number? (table.keys.get ⟨2 ^ 15, hlt'⟩) = some (2 ^ 15) := by
    rw [KeyTable.number?_eq_some]
    exact List.getElem?_eq_getElem hlt'
  have hint := h (table.keys.get ⟨2 ^ 15, hlt'⟩)
  rw [hk] at hint
  have hmax := (get (table.keys.get ⟨2 ^ 15, hlt'⟩)).toInt_lt
  simp only [position] at hint
  omega

theorem Exact.fits {L : Ledger} {e : Encoder} (h : Exact P L e) : L.Fits where
  types := size_le_of_exact h.typeRef
  defs := by
    choose get hget hint using h.defRef
    exact size_le_of_exact hint
  values := size_le_of_exact h.valueRef

/-- A number of a table that fits, as the code computes it. -/
theorem toInt_eq_position {α : Type} [DecidableEq α] {table : KeyTable α} (h : table.size ≤ 2 ^ 15)
    (a : α) : (match table.number? a with
      | some k => (UInt16.ofNat k).toInt16
      | none => -1).toInt = position (table.number? a) := by
  cases hn : table.number? a with
  | some k => exact toInt_number ((KeyTable.number?_lt hn).trans_le h)
  | none => rfl

/-- Within the bounds everything is exact. -/
theorem exact_of_fits {L : Ledger} {e : Encoder} (hd : L.Describes e) (h : L.Fits) :
    Exact P L e where
  typeRef v := by
    rw [hd.eq_encoder, getTypeRef_encoder]
    exact toInt_eq_position h.types v
  defRef d := by
    rw [hd.eq_encoder, getDefRef_encoder h.defs]
    exact ⟨_, rfl, toInt_eq_position h.defs d⟩
  valueRef i := by
    have hvalues : e.getValueRef i = match L.values.number? i with
        | some k => (UInt16.ofNat k).toInt16
        | none => -1 := by
      rw [hd.eq_encoder]
      exact getValueRef_encoder _ _ _
    rw [hvalues]
    exact toInt_eq_position h.values i
  -- the number of a name, a definition and a value, as it is written and as it is read
  typeBytes v k hk := by
    obtain ⟨c, cs, hw, hr⟩ :=
      typeRef_number_travels (P := P) hk ((KeyTable.number?_lt hk).trans_le h.types)
    refine ⟨c :: cs, ?_, hr⟩
    rw [hd.eq_encoder]
    exact hw _ _ _
  defBytes d k hk := by
    obtain ⟨c, cs, -, hw, hr⟩ := definition_number_travels (P := P) h.defs hk
    refine ⟨c :: cs, ?_, hr⟩
    rw [hd.eq_encoder]
    exact hw _ _ _
  valueBytes i k hk := by
    obtain ⟨c, cs, hw, hr⟩ :=
      ref_number_travels (P := P) hk ((KeyTable.number?_lt hk).trans_le h.values)
    refine ⟨0x51 :: c :: cs, ?_, fun t a ht => ?_⟩
    · rw [hd.eq_encoder]
      exact hw _ _ _
    · exact (hr t a ht).congr fun cur rest hu => asserted_of_cons hu

/-- **The numbers of types, definitions and containers are exact, in the lookups and on the wire,
exactly as long as no table has more than 2¹⁵ entries.** -/
theorem numbers_exact_iff (P : Platform) (ms : List Message) (e : Encoder) (results : List Bool)
    (h : encodeMessages P ms .empty = .ok (results, e)) :
    Exact P (Ledger.empty.sends ms) e ↔ (Ledger.empty.sends ms).Fits :=
  ⟨Exact.fits, exact_of_fits (encodeMessages_tracks ms Ledger.describes_empty h)⟩

/-- A type name that is used twice. -/
theorem numbers_exact_twice : ∃ e results,
    encodeMessages .simple [.typeRef [0x61], .typeRef [0x61]] .empty = .ok (results, e) ∧
      (Exact .simple (Ledger.empty.sends [.typeRef [0x61], .typeRef [0x61]]) e ↔
        (Ledger.empty.sends [.typeRef [0x61], .typeRef [0x61]]).Fits) := by
  have hrun : (encodeMessages .simple [.typeRef [0x61], .typeRef [0x61]] .empty).isOk = true := by
    decide +kernel
  cases h : encodeMessages .simple [.typeRef [0x61], .typeRef [0x61]] .empty with
  | error stop =>
    rw [h] at hrun
    cases hrun
  | ok r => exact ⟨r.2, r.1, rfl, numbers_exact_iff .simple _ r.2 r.1 h⟩

/-- Empty lists, one after the other. -/
theorem encodeMessages_empty_lists (P : Platform) : ∀ (ids : List ObjId) (e : Encoder),
    ∃ e' results, encodeMessages P (ids.map fun i => .object (.untypedList i [])) e = .ok (results, e')
  | [], e => ⟨e, [], rfl⟩
  | i :: ids, e => by
    obtain ⟨e', results, h⟩ := encodeMessages_empty_lists P ids ((e.enterValue i).write [byteOf 0x78])
    have hlist : encodeMessage P (.object (.untypedList i [])) e =
        .ok (true, (e.enterValue i).write [byteOf 0x78]) := rfl
    refine ⟨e', true :: results, ?_⟩
    rw [List.map_cons, encodeMessages, bind_apply_ok hlist, bind_apply_ok h]
    rfl

/-- With more than 2¹⁵ empty lists the numbers are not exact. -/
theorem empty_lists_not_exact {n : ℕ} (hn : 2 ^ 15 < n) : ∃ e results,
    encodeMessages P ((List.range n).map fun i => .object (.untypedList i [])) .empty =
        .ok (results, e) ∧
      ¬ Exact P (Ledger.empty.sends ((List.range n).map fun i => .object (.untypedList i []))) e := by
  obtain ⟨e, results, h⟩ := encodeMessages_empty_lists P (List.range n) .empty
  refine ⟨e, results, h, fun hexact => ?_⟩
  have hvalues : (((List.range n).map fun i => Message.object (.untypedList i [])).flatMap
      Message.containers) = List.range n := by
    rw [List.flatMap_map]
    exact List.flatMap_singleton' _
  have hnodup : ((KeyTable.empty : KeyTable ObjId).keys ++ List.range n).Nodup := List.nodup_range
  have hsize := hexact.fits.values
  rw [Ledger.sends_eq, hvalues, KeyTable.size, Ledger.empty,
    KeyTable.keys_enterAll_of_nodup hnodup, List.length_append, List.length_range] at hsize
  omega

/-- 32769 empty lists. -/
theorem numbers_not_exact : ∃ e results,
    encodeMessages .simple ((List.range 32769).map fun i => .object (.untypedList i [])) .empty =
        .ok (results, e) ∧
      ¬ Exact .simple (Ledger.empty.sends
        ((List.range 32769).map fun i => .object (.untypedList i []))) e :=
  empty_lists_not_exact (Nat.lt_succ_self _)

end Hessian2
