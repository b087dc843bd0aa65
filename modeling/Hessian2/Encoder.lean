import Hessian2.KeyTable
import Hessian2.Reader
import Mathlib.Tactic.Simps.Basic

/-!
# The encoder

The state of an `Encoder` and its writer.

* `Encoder` : the output and the tables `types_ref_`, `def_ref_` and `values_ref_`.  Both hash maps
  only ever take a new key with the size of the map as its value, so each is the table of its keys
  in the order of their first use.  `refused` and `unnumbered` record what could not be written,
  for the statements about it; nothing reads them.
* `Enc` : the encoding functions.
* `Encoder.getTypeRef`, `Encoder.getDefRef`, `Encoder.getValueRef` : the lookups, with the widths of
  the source.
* `Enc.writeByte`, `Enc.rawWrite`, `Enc.writeBE` : `Writer`.
-/

namespace Hessian2

/-- How an encoder stops other than by returning. -/
inductive Stop where
  /-- An `ABSL_ASSERT` that fails. -/
  | assertFailed
  /-- A loop or a recursion that does not end. -/
  | diverges
deriving DecidableEq

/-- `Encoder`. -/
structure Encoder where
  /-- What has been written. -/
  output : Bytes
  /-- `types_ref_`. -/
  typesRef : KeyTable Bytes
  /-- `def_ref_`. -/
  defRef : List RawDefinition
  /-- `values_ref_`. -/
  valuesRef : KeyTable ObjId
  /-- The strings that were refused. -/
  refused : List Bytes
  /-- The targets of the references written for objects without a number. -/
  unnumbered : List ObjId

/-- The functions of an `Encoder`. -/
abbrev Enc (α : Type) := StateT Encoder (Except Stop) α

namespace Encoder

/-- A new `Encoder`. -/
def empty : Encoder := ⟨[], .empty, [], .empty, [], []⟩

/-- `getTypeRef`. -/
def getTypeRef (e : Encoder) (search : Bytes) : Int16 :=
  match e.typesRef.number? search with
  | some i => (UInt16.ofNat i).toInt16
  | none => -1

theorem getTypeRef_of_some {e : Encoder} {search : Bytes} {k : ℕ}
    (h : e.typesRef.number? search = some k) : e.getTypeRef search = (UInt16.ofNat k).toInt16 := by
  rw [getTypeRef, h]

/-- A type name with a number other than -1 is in the table. -/
theorem mem_of_getTypeRef {e : Encoder} {search : Bytes} (h : e.getTypeRef search ≠ -1) :
    search ∈ e.typesRef.keys := by
  by_contra hn
  rw [getTypeRef, KeyTable.number?_eq_none.2 hn] at h
  exact h rfl

/-- `getDefRef`.  The loop counter is a `uint16_t`, so the loop sees the first 65536 definitions and
does not end when there are that many and none of them matches. -/
def getDefRef (e : Encoder) (definition : RawDefinition) : Except Stop Int16 :=
  match (e.defRef.take (2 ^ 16)).idxOf? definition with
  | some i => .ok (UInt16.ofNat i).toInt16
  | none => if 2 ^ 16 ≤ e.defRef.length then .error .diverges else .ok (-1)

/-- `getValueRef`. -/
def getValueRef (e : Encoder) (o : ObjId) : Int16 :=
  match e.valuesRef.number? o with
  | some i => (UInt16.ofNat i).toInt16
  | none => -1

/-- The encoder with `bs` written. -/
@[simps] def write (e : Encoder) (bs : Bytes) : Encoder := { e with output := e.output ++ bs }

/-- `types_ref_.emplace(value, types_ref_.size())`. -/
@[simps] def enterType (e : Encoder) (value : Bytes) : Encoder :=
  { e with typesRef := e.typesRef.enter value }

/-- `def_ref_.push_back`. -/
@[simps] def enterDef (e : Encoder) (value : RawDefinition) : Encoder :=
  { e with defRef := e.defRef ++ [value] }

/-- `values_ref_.emplace(&value, values_ref_.size())`. -/
@[simps] def enterValue (e : Encoder) (value : ObjId) : Encoder :=
  { e with valuesRef := e.valuesRef.enter value }

/-- The encoder with a string noted as refused. -/
@[simps] def refuse (e : Encoder) (data : Bytes) : Encoder :=
  { e with refused := e.refused ++ [data] }

/-- The encoder with bytes written and strings refused. -/
@[simps] def extend (e : Encoder) (bs : Bytes) (ss : List Bytes) : Encoder :=
  { e with output := e.output ++ bs, refused := e.refused ++ ss }

/-- The encoder with a target noted as without a number. -/
@[simps] def missNumber (e : Encoder) (target : ObjId) : Encoder :=
  { e with unnumbered := e.unnumbered ++ [target] }

@[simp] theorem write_nil (e : Encoder) : e.write [] = e := by simp [write]

@[simp] theorem write_write (e : Encoder) (bs bs' : Bytes) :
    (e.write bs).write bs' = e.write (bs ++ bs') := by simp [write]

theorem write_eq_extend (e : Encoder) (bs : Bytes) : e.write bs = e.extend bs [] := by
  simp [write, extend]

theorem refuse_eq_extend (e : Encoder) (data : Bytes) : e.refuse data = e.extend [] [data] := by
  simp [refuse, extend]

@[simp] theorem extend_extend (e : Encoder) (bs bs' : Bytes) (ss ss' : List Bytes) :
    (e.extend bs ss).extend bs' ss' = e.extend (bs ++ bs') (ss ++ ss') := by simp [extend]

end Encoder

/-- The `size` lowest bytes of `n`, the least significant first. -/
def bytesOf : ℕ → ℕ → Bytes
  | 0, _ => []
  | size + 1, n => .ofNat n :: bytesOf size (n / 256)

/-- `toEndian<BigEndian>` of a value of type `T`, as bytes. -/
def bigEndianBytes (T : IntegralType) (value : ℤ) : Bytes :=
  (bytesOf T.size (value % 2 ^ (8 * T.size)).toNat).reverse

/-- `static_cast<uint8_t>`. -/
def byteOf (value : ℤ) : UInt8 := .ofNat (value % 256).toNat

namespace Enc

variable {α β : Type} (P : Platform)

/-- `ABSL_ASSERT`. -/
def abslAssert (condition : Bool) : Enc Unit :=
  if condition || P.ndebug then pure () else throw .assertFailed

/-- `rawWrite`. -/
def rawWrite (data : Bytes) : Enc Unit := modify fun e => e.write data

/-- `writeByte`. -/
def writeByte (value : ℤ) : Enc Unit := rawWrite [byteOf value]

/-- `writeBE<T>`. -/
def writeBE (T : IntegralType) (value : ℤ) : Enc Unit := rawWrite (bigEndianBytes T value)

@[simp] theorem rawWrite_apply (bs : Bytes) (e : Encoder) :
    rawWrite bs e = .ok ((), e.write bs) := rfl

@[simp] theorem writeByte_apply (value : ℤ) (e : Encoder) :
    writeByte value e = .ok ((), e.write [byteOf value]) := rfl

@[simp] theorem writeBE_apply (T : IntegralType) (value : ℤ) (e : Encoder) :
    writeBE T value e = .ok ((), e.write (bigEndianBytes T value)) := rfl

@[simp] theorem pure_apply (a : α) (e : Encoder) : (pure a : Enc α) e = .ok (a, e) := rfl

@[simp] theorem rawWrite_bind (bs : Bytes) (f : Unit → Enc β) (e : Encoder) :
    (rawWrite bs >>= f) e = f () (e.write bs) := rfl

@[simp] theorem writeByte_bind (value : ℤ) (f : Unit → Enc β) (e : Encoder) :
    (writeByte value >>= f) e = f () (e.write [byteOf value]) := rfl

@[simp] theorem writeBE_bind (T : IntegralType) (value : ℤ) (f : Unit → Enc β) (e : Encoder) :
    (writeBE T value >>= f) e = f () (e.write (bigEndianBytes T value)) := rfl

@[simp] theorem get_bind (f : Encoder → Enc β) (e : Encoder) : (get >>= f) e = f e e := rfl

@[simp] theorem modify_apply (g : Encoder → Encoder) (e : Encoder) :
    (modify g : Enc Unit) e = .ok ((), g e) := rfl

@[simp] theorem modify_bind (g : Encoder → Encoder) (f : Unit → Enc β) (e : Encoder) :
    (modify g >>= f) e = f () (g e) := rfl

theorem lift_bind (m : Except Stop α) (f : α → Enc β) (e : Encoder) :
    (liftM m >>= f : Enc β) e = m.bind fun a => f a e := by
  cases m <;> rfl

theorem bind_apply_ok {m : Enc α} {f : α → Enc β} {e e' : Encoder} {a : α}
    (h : m e = .ok (a, e')) : (m >>= f) e = f a e' := by
  simp [bind, StateT.bind, h, Except.bind]

theorem bind_eq_ok {m : Enc α} {f : α → Enc β} {e : Encoder} {r : β × Encoder} :
    (m >>= f) e = .ok r ↔ ∃ a e', m e = .ok (a, e') ∧ f a e' = .ok r := by
  cases h : m e with
  | ok p =>
    obtain ⟨a, e'⟩ := p
    rw [bind_apply_ok h]
    simp
  | error s => simp [bind, StateT.bind, h, Except.bind]

end Enc

/-! ### Integers as bytes -/

@[simp] theorem length_bytesOf : ∀ size n, (bytesOf size n).length = size
  | 0, _ => rfl
  | size + 1, n => by rw [bytesOf, List.length_cons, length_bytesOf]

@[simp] theorem length_bigEndianBytes (T : IntegralType) (value : ℤ) :
    (bigEndianBytes T value).length = T.size := by simp [bigEndianBytes]

theorem littleEndian_bytesOf : ∀ size n, littleEndian (bytesOf size n) = n % 2 ^ (8 * size)
  | 0, n => by simp [bytesOf, littleEndian, Nat.mod_one]
  | size + 1, n => by
    rw [bytesOf, littleEndian, littleEndian_bytesOf size, UInt8.toNat_ofNat']
    have h : 2 ^ (8 * (size + 1)) = 256 * 2 ^ (8 * size) := by rw [Nat.mul_add, pow_add]; ring
    rw [h, Nat.mod_mul]

/-- The big-endian bytes of a number, read back as a value of type `T`. -/
theorem ofBits_bigEndianBytes_eq_cast (T : IntegralType) (value : ℤ) :
    T.ofBits (bigEndian (bigEndianBytes T value)) = T.cast value := by
  have hlt := IntegralType.toNat_emod_lt value (8 * T.size)
  rw [bigEndian, bigEndianBytes, List.reverse_reverse, littleEndian_bytesOf, Nat.mod_eq_of_lt hlt]
  rfl

/-- A value of type `T` is its big-endian bytes read back. -/
theorem ofBits_bigEndianBytes {T : IntegralType} (hT : 0 < T.size) {value : ℤ}
    (h : T.Holds value) : T.ofBits (bigEndian (bigEndianBytes T value)) = value := by
  rw [ofBits_bigEndianBytes_eq_cast, IntegralType.cast_eq hT h]

theorem byteOf_toNat (b : UInt8) : byteOf b.toNat = b := by
  have h : ((b.toNat : ℤ) % 256).toNat = b.toNat := by have := b.toNat_lt; omega
  rw [byteOf, h, UInt8.ofNat_toNat]

theorem toNat_byteOf (z : ℤ) : ((byteOf z).toNat : ℤ) = z % 256 := by
  rw [byteOf, UInt8.toNat_ofNat']
  omega

end Hessian2
