import Hessian2.Decoder
import Hessian2.Encoder

/-!
# Codecs

What it means that an encoding function and a decoding function belong together.

* `Carries` : the bytes written for a value are read back as this value, whatever follows them and
  whatever the tables of the decoder are.
-/

namespace Hessian2

open Parsing Parsing.Parser

variable {α : Type}

/-- `encode` writes bytes with a lead byte in `L`, the same in every state, and `decode` reads `v`
back from them. -/
def Carries (encode : Enc Bool) (decode : Dec α) (v : α) (L : UInt8 → Prop) : Prop :=
  ∃ b bs, L b ∧ (∀ e, encode e = .ok (true, e.write (b :: bs))) ∧ ∀ t, Reads decode t (b :: bs) v t

theorem Carries.congr {encode : Enc Bool} {decode decode' : Dec α} {v : α} {L : UInt8 → Prop}
    (h : Carries encode decode v L) (hd : decode' = decode) : Carries encode decode' v L := hd ▸ h

/-- Bytes carry one value. -/
theorem Carries.unique {encode : Enc Bool} {decode : Dec α} {v w : α}
    {L L' : UInt8 → Prop} (hv : Carries encode decode v L) (hw : Carries encode decode w L') :
    v = w := by
  obtain ⟨b, bs, -, hwrite, hread⟩ := hv
  obtain ⟨b', bs', -, hwrite', hread'⟩ := hw
  have hbytes := (hwrite .empty).symm.trans (hwrite' .empty)
  simp only [Encoder.write, Encoder.empty, List.nil_append, Except.ok.injEq, Prod.mk.injEq,
    Encoder.mk.injEq, true_and, and_true] at hbytes
  have hv' := hread .empty (.ofList (b :: bs)) [] (List.append_nil _).symm
  have hw' := hread' .empty (.ofList (b :: bs)) [] (by rw [hbytes, List.append_nil]; rfl)
  rw [hv'] at hw'
  injection hw'

/-- A lead byte, then a form that the lead byte announces. -/
theorem reads_form {form : UInt8 → Dec α} {b : UInt8} {bs : Bytes} {v : α} {t : Tables}
    (h : Reads (form b) t bs v t) : Reads (next >>= form) t (b :: bs) v t :=
  (reads_next b t).bind h

/-- The bytes of a fixed width, and the value they stand for. -/
theorem reads_take_map (f : Bytes → α) {bs : Bytes} {n : ℕ} (hn : bs.length = n) {v : α}
    (hv : f bs = v) (t : Tables) : Reads (take n >>= fun bs => pure (f bs) : Dec α) t bs v t := by
  subst hn hv
  have h := Reads.bind (f := fun bs => (pure (f bs) : Dec α)) (reads_take bs t)
    (reads_pure (f bs) t)
  rwa [List.append_nil] at h

end Hessian2
