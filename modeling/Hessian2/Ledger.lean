import Hessian2.Growth

/-!
# What has been sent so far

Encoder and decoder keep the same account of a conversation: the type names, the definitions and
the containers that have been sent, each numbered by its first use.

* `Ledger` : the account; `Ledger.note`, `Ledger.notes` enter the objects of a message into it.
* `Ledger.Fits` : the numbers are non-negative 16-bit numbers.
* `Ledger.Backward` : references point to containers that have been sent before.
* `Ledger.encoder` : the encoder that has sent what is in the ledger.
* `Enc.Emits` : a function that writes bytes and extends the ledger.
* `Enc.Emits.bind`, `Enc.Emits.of_writes`, `Enc.Emits.modify` : the rules for the parts of a function.
-/

namespace Hessian2

open Parsing Enc

variable {α β : Type} {P : Platform}

/-! ### The account -/

namespace Object

/-- The type name that is sent for an object, without what it owns. -/
def typeName? : Object → Option Bytes
  | .list _ t _ | .map _ t _ => t
  | _ => none

/-- The definition that is sent for an object, without what it owns. -/
def definition? : Object → Option RawDefinition
  | .classInstance _ d _ => some d
  | _ => none

end Object

/-- The type names, the definitions and the containers that have been sent. -/
@[ext] structure Ledger where
  types : KeyTable Bytes
  defs : KeyTable RawDefinition
  values : KeyTable ObjId

namespace Ledger

/-- Nothing has been sent. -/
def empty : Ledger := ⟨.empty, .empty, .empty⟩

/-- Enter what is sent for an object, without what it owns. -/
def note (L : Ledger) (x : Object) : Ledger :=
  ⟨L.types.enterAll x.typeName?.toList, L.defs.enterAll x.definition?.toList,
    L.values.enterAll x.self?.toList⟩

/-- Enter objects one after the other. -/
def notes (L : Ledger) (xs : List Object) : Ledger := xs.foldl note L

@[simp] theorem notes_nil (L : Ledger) : L.notes [] = L := rfl

@[simp] theorem notes_cons (L : Ledger) (x : Object) (xs : List Object) :
    L.notes (x :: xs) = (L.note x).notes xs := rfl

theorem notes_append (L : Ledger) (xs ys : List Object) :
    L.notes (xs ++ ys) = (L.notes xs).notes ys := List.foldl_append

/-- The tables are filled independently of each other. -/
theorem notes_eq (L : Ledger) (xs : List Object) : L.notes xs =
    ⟨L.types.enterAll (xs.filterMap Object.typeName?),
      L.defs.enterAll (xs.filterMap Object.definition?),
      L.values.enterAll (xs.filterMap Object.self?)⟩ := by
  induction xs generalizing L with
  | nil => rfl
  | cons x xs ih =>
    have hcons {α : Type} [DecidableEq α] (n : KeyTable α) (g : Object → Option α) :
        (n.enterAll (g x).toList).enterAll (xs.filterMap g) = n.enterAll ((x :: xs).filterMap g) := by
      rw [← KeyTable.enterAll_append]
      cases hx : g x with
      | none => rw [List.filterMap_cons_none hx]; rfl
      | some a => rw [List.filterMap_cons_some hx]; rfl
    rw [notes_cons, ih, note]
    simp only [hcons]

/-- `L'` has all that `L` has, under the same numbers. -/
structure Prefix (L L' : Ledger) : Prop where
  types : L.types.keys <+: L'.types.keys
  defs : L.defs.keys <+: L'.defs.keys
  values : L.values.keys <+: L'.values.keys

theorem Prefix.refl (L : Ledger) : L.Prefix L :=
  ⟨List.prefix_rfl, List.prefix_rfl, List.prefix_rfl⟩

theorem Prefix.trans {L₁ L₂ L₃ : Ledger} (h : L₁.Prefix L₂) (h' : L₂.Prefix L₃) : L₁.Prefix L₃ :=
  ⟨h.types.trans h'.types, h.defs.trans h'.defs, h.values.trans h'.values⟩

theorem prefix_notes (L : Ledger) (xs : List Object) : L.Prefix (L.notes xs) := by
  rw [notes_eq]
  exact ⟨L.types.prefix_enterAll _, L.defs.prefix_enterAll _, L.values.prefix_enterAll _⟩

/-- Every number is a non-negative 16-bit number. -/
structure Fits (L : Ledger) : Prop where
  types : L.types.size ≤ 2 ^ 15
  defs : L.defs.size ≤ 2 ^ 15
  values : L.values.size ≤ 2 ^ 15

/-- The references in the objects point to containers that have been sent before. -/
def Backward : Ledger → List Object → Prop
  | _, [] => True
  | L, x :: xs => (∀ i, x.target? = some i → i ∈ L.values.keys) ∧ (L.note x).Backward xs

theorem backward_append {L : Ledger} {xs ys : List Object} :
    L.Backward (xs ++ ys) ↔ L.Backward xs ∧ (L.notes xs).Backward ys := by
  induction xs generalizing L with
  | nil => simp [Backward]
  | cons x xs ih => rw [List.cons_append, Backward, Backward, ih, notes_cons, and_assoc]

/-- The targets of the references are in the ledger in the end. -/
theorem mem_of_backward {L : Ledger} {xs : List Object} (h : L.Backward xs) {x : Object} (hx : x ∈ xs)
    {i : ObjId} (hi : x.target? = some i) : i ∈ (L.notes xs).values.keys := by
  obtain ⟨ys, zs, rfl⟩ := List.append_of_mem hx
  have hmem := (backward_append.1 h).2.1 i hi
  rw [notes_append]
  exact ((L.notes ys).prefix_notes (x :: zs)).values.subset hmem

/-- The number of a container. -/
def number (L : Ledger) (i : ObjId) : ObjId := (L.values.number? i).getD 0

theorem number_eq {L L' : Ledger} (h : L.Prefix L') {i : ObjId} (hi : i ∈ L.values.keys) :
    L'.number i = L.number i ∧ L.number i < L.values.size := by
  obtain ⟨k, hk⟩ := Option.ne_none_iff_exists'.1 fun h => KeyTable.number?_eq_none.1 h hi
  rw [number, number, hk, KeyTable.number?_of_prefix h.values hk]
  exact ⟨rfl, KeyTable.number?_lt hk⟩

theorem number_inj {L : Ledger} {i j : ObjId} (hi : i ∈ L.values.keys) (hj : j ∈ L.values.keys)
    (h : L.number i = L.number j) : i = j := by
  obtain ⟨k, hk⟩ := Option.ne_none_iff_exists'.1 fun h => KeyTable.number?_eq_none.1 h hi
  obtain ⟨m, hm⟩ := Option.ne_none_iff_exists'.1 fun h => KeyTable.number?_eq_none.1 h hj
  rw [number, number, hk, hm] at h
  obtain rfl : k = m := h
  exact KeyTable.number?_inj hk hm

/-! ### The encoder -/

/-- The encoder that has sent what is in the ledger. -/
def encoder (L : Ledger) (output : Bytes) (refused : List Bytes) (unnumbered : List ObjId) :
    Encoder := ⟨output, L.types, L.defs.keys, L.values, refused, unnumbered⟩

@[simp] theorem write_encoder (L : Ledger) (out bs : Bytes) (refused : List Bytes)
    (unnumbered : List ObjId) :
    (L.encoder out refused unnumbered).write bs = L.encoder (out ++ bs) refused unnumbered := rfl

end Ledger

namespace Enc

/-- The function returns `a`, writes `bs`, and takes the ledger from `L` to `L'`. -/
def Emits (m : Enc α) (L : Ledger) (a : α) (bs : Bytes) (L' : Ledger) : Prop :=
  ∀ out refused unnumbered, m (L.encoder out refused unnumbered) =
    .ok (a, L'.encoder (out ++ bs) refused unnumbered)

theorem Emits.bind {m : Enc α} {f : α → Enc β} {L L₁ L' : Ledger} {a : α} {b : β} {bs cs : Bytes}
    (h : Emits m L a bs L₁) (h' : Emits (f a) L₁ b cs L') :
    Emits (m >>= f) L b (bs ++ cs) L' := by
  intro out refused unnumbered
  rw [bind_apply_ok (h out refused unnumbered), h', List.append_assoc]

/-- The second function writes nothing. -/
theorem Emits.bind_nil {m : Enc α} {f : α → Enc β} {L L₁ L' : Ledger} {a : α} {b : β} {bs : Bytes}
    (h : Emits m L a bs L₁) (h' : Emits (f a) L₁ b [] L') : Emits (m >>= f) L b bs L' := by
  have hbind := h.bind h'
  rwa [List.append_nil] at hbind

theorem Emits.pure (a : α) (L : Ledger) : Emits (pure a) L a [] L := by
  intro out refused unnumbered
  rw [List.append_nil]
  rfl

theorem Emits.rawWrite (bs : Bytes) (L : Ledger) : Emits (rawWrite bs) L () bs L :=
  fun _ _ _ => rfl

theorem Emits.of_writes {m : Enc Bool} {bs : Bytes} (h : ∀ e, m e = .ok (true, e.write bs))
    (L : Ledger) : Emits m L true bs L := fun _ _ _ => h _

theorem Emits.modify {g : Encoder → Encoder} {L L' : Ledger}
    (h : ∀ out refused unnumbered, g (L.encoder out refused unnumbered) =
      L'.encoder out refused unnumbered) : Emits (modify g : Enc Unit) L () [] L' := by
  intro out refused unnumbered
  rw [modify_apply, h, List.append_nil]

end Enc

/-! ### Numbers as the code computes them -/

/-- A number that fits is what the 16-bit computations make of it. -/
theorem toInt_number {k : ℕ} (hk : k < 2 ^ 15) : (UInt16.ofNat k).toInt16.toInt = k := by
  have hlt : k < 65536 := by omega
  have hnat : (UInt16.ofNat k).toBitVec.toNat = k := by
    rw [UInt16.toNat_toBitVec, UInt16.toNat_ofNat']
    omega
  have hint : (UInt16.ofNat k).toInt16.toInt = (UInt16.ofNat k).toBitVec.toInt := rfl
  rw [hint, BitVec.toInt_eq_toNat_cond, hnat]
  split
  · rfl
  · omega

theorem number_ne_neg_one {k : ℕ} (hk : k < 2 ^ 15) : (UInt16.ofNat k).toInt16 ≠ -1 := by
  intro h
  have hint := toInt_number hk
  rw [h] at hint
  have hneg : (-1 : Int16).toInt = -1 := rfl
  omega

/-- A number that is read back stands for the same position. -/
theorem toNat_number {k : ℕ} (hk : k < 2 ^ 15) :
    (UInt16.ofNat k).toInt16.toInt32.toUInt32.toNat = k := by
  have hint : (UInt16.ofNat k).toInt16.toInt32.toInt = k := by
    rw [Int16.toInt_toInt32, toInt_number hk]
  have hnat := Int32.toInt_toBitVec (UInt16.ofNat k).toInt16.toInt32
  have huint : (UInt16.ofNat k).toInt16.toInt32.toUInt32.toNat =
      (UInt16.ofNat k).toInt16.toInt32.toBitVec.toNat := rfl
  rw [hint, BitVec.toInt_eq_toNat_cond] at hnat
  rw [huint]
  split at hnat
  · omega
  · omega

end Hessian2
