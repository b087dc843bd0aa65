import Hessian2.Parsing.Ends
import Hessian2.Parsing.Evolves
import Hessian2.Progress

/-!
# What a decoder leaves alone

Values without containers leave everything as it is besides the position in the input; types and
definitions only enter themselves into their tables.

* `Dec.Numbers` : only the tables of names may change.
* `decodeTypeRef_numbers`, `decodeDefinition_numbers` : the codecs of names.
-/

namespace Hessian2

open Parsing Parsing.Parser

variable {α : Type} {P : Platform}

/-! ### Leaves, however they end -/

section Leaves

variable {R : Tables → Tables → Prop} [IsPreorder Tables R]

theorem evolves_take (n : ℕ) (f : Bytes → α) :
    Evolves R (take n >>= fun bs => pure (f bs) : Dec α) := (Evolves.take n).bind fun _ => .pure _

theorem decodeInt32_evolves : Evolves R (decodeInt32 P) := by
  rw [decodeInt32_eq]
  refine Evolves.next.bind fun code => ?_
  unfold int32Form
  refine .ite (fun _ => .pure _) fun _ => .ite (fun _ => evolves_take 1 _) fun _ => ?_
  exact .ite (fun _ => evolves_take 2 _) fun _ => .ite (fun _ => evolves_take 4 _) fun _ => .failure

theorem decodeInt64_evolves : Evolves R (decodeInt64 P) := by
  rw [decodeInt64_eq]
  refine Evolves.next.bind fun code => ?_
  unfold int64Form
  refine .ite (fun _ => .pure _) fun _ => .ite (fun _ => evolves_take 1 _) fun _ => ?_
  refine .ite (fun _ => evolves_take 2 _) fun _ => .ite (fun _ => evolves_take 4 _) fun _ => ?_
  exact .ite (fun _ => evolves_take 8 _) fun _ => .failure

theorem decodeDouble_evolves : Evolves R (decodeDouble P) := by
  rw [decodeDouble_eq]
  refine Evolves.next.bind fun code => ?_
  unfold doubleForm
  refine .ite (fun _ => .pure _) fun _ => .ite (fun _ => .pure _) fun _ => ?_
  refine .ite (fun _ => evolves_take 1 _) fun _ => .ite (fun _ => evolves_take 2 _) fun _ => ?_
  exact .ite (fun _ => evolves_take 4 _) fun _ => .ite (fun _ => evolves_take 8 _) fun _ => .failure

theorem readDate_evolves (T : DurationType) : Evolves R (readDate P T) := by
  rw [readDate_eq]
  refine Evolves.next.bind fun code => ?_
  exact .ite (fun _ => evolves_take 4 _) fun _ => .ite (fun _ => evolves_take 8 _) fun _ => .failure

theorem decodeBytes_evolves : Evolves R (decodeBytes P) := by
  refine .iter (fun output => ?_) _
  have chunk (length : ℕ) (isLastChunk : Bool) : Evolves R (chunkData output length isLastChunk) :=
    .ite (fun _ => .pure _) fun _ => evolves_take _ _
  rw [decodeBytesStep_eq]
  refine Evolves.next.bind fun code => ?_
  unfold bytesForm
  refine .ite (fun _ => chunk _ _) fun _ => .ite (fun _ => .bind .next fun _ => chunk _ _) fun _ => ?_
  refine .ite (fun _ => .bind (.take 2) fun _ => chunk _ _) fun _ => ?_
  exact .ite (fun _ => .bind (.take 2) fun _ => chunk _ _) fun _ => .failure

theorem finalReadUtf8String_evolves (output : Bytes) (hasSurrogate : Bool) (length : ℕ) :
    Evolves R (finalReadUtf8String P output hasSurrogate length) := by
  refine .iter (fun s => ?_) _
  rw [finalReadStep_eq]
  refine .ite (fun _ => .bind (.take _) fun data => ?_) fun _ => .pure _
  rcases getUtf8StringLength data with _ | ⟨utf8Length, rawBytesLength, surrogate⟩
  · exact .failure
  · exact .ite (fun _ => evolves_take _ _) fun _ => .pure _

theorem decodeString_evolves : Evolves R (decodeString P) := by
  have hloop : Evolves R (decodeStringWithReader P) := by
    refine .iter (fun out => ?_) _
    have chunk (length : ℕ) (isLastChunk : Bool) :
        Evolves R (readChunkString P out length isLastChunk) :=
      .bind (finalReadUtf8String_evolves _ _ _) fun _ => .pure _
    rw [decodeStringStep_eq]
    refine Evolves.next.bind fun code => ?_
    unfold chunkForm
    refine .ite (fun _ => chunk _ _) fun _ => .ite (fun _ => .bind .next fun _ => chunk _ _) fun _ => ?_
    refine .ite (fun _ => .bind (.take 2) fun _ => chunk _ _) fun _ => ?_
    exact .ite (fun _ => .bind (.take 2) fun _ => chunk _ _) fun _ => .failure
  refine .bind hloop fun out => ?_
  exact .ite (fun _ => .ite (fun _ => .failure) fun _ => .pure _) fun _ => .pure _

theorem decodeBool_evolves
    (herror : ∀ t pos code, R t { t with errorPos := pos, errorCode := code }) :
    Evolves R (decodeBool P) := by
  rw [decodeBool_eq]
  refine .onFail (Evolves.next.bind fun code => ?_) fun h => IsTrans.trans _ _ _ h (herror _ _ _)
  exact .ite (fun _ => .pure _) fun _ => .ite (fun _ => .pure _) fun _ => .failure

theorem lookup_evolves (f : Tables → Option α) : Evolves R (Dec.lookup f) := by
  refine Evolves.aux.bind fun t => ?_
  cases f t with
  | none => exact .failure
  | some a => exact .pure a

theorem decodeTypeRef_evolves (htypes : ∀ t types, R t { t with typesRef := types }) :
    Evolves R (decodeTypeRef P) := by
  rw [decodeTypeRef_eq]
  refine .ahead fun code => .ite (fun _ => ?_) fun _ => ?_
  · exact decodeString_evolves.bind fun type =>
      (Evolves.modifyAux fun t => htypes t _).bind fun _ => .pure _
  · exact decodeInt32_evolves.bind fun ref => lookup_evolves _

theorem reserve_evolves (allocates : Allocator) (n : Int32) : Evolves R (reserve allocates n) :=
  .ite (fun _ => .stop _) fun _ => .ite (fun _ => .pure _) fun _ => .stop _

theorem decodeDefinition_evolves (hdefs : ∀ t defs, R t { t with defRef := defs }) :
    Evolves R (decodeDefinition P) := by
  rw [decodeDefinition_eq]
  refine Evolves.next.bind fun code => ?_
  unfold decodeDefinitionBy decodeDefinitionByWith
  refine .ite (fun _ => ?_) fun _ => .ite (fun _ => ?_) fun _ => .ite (fun _ => lookup_evolves _)
    fun _ => .failure
  · refine decodeString_evolves.bind fun type => decodeInt32_evolves.bind fun fieldLen => ?_
    refine (reserve_evolves ample fieldLen).bind fun _ =>
      (decodeString_evolves.times _).bind fun names => ?_
    exact (Evolves.modifyAux fun t => hdefs t _).bind fun _ => .pure _
  · exact decodeInt32_evolves.bind fun ref => lookup_evolves _

end Leaves

/-! ### Leaves -/

/-- A leaf that leaves the state alone however it ends. -/
theorem Dec.Leaf.silent {m : Dec α} (h : Dec.Leaf m) (he : Evolves (· = ·) m) : Silent m where
  ok hm := (he.ok hm).symm
  fault hm := ((h (fun _ => False) False 0).delimited.fault hm).1

theorem decodeInt32_silent : Silent (decodeInt32 P) := decodeInt32_leaf.silent decodeInt32_evolves

theorem decodeInt64_silent : Silent (decodeInt64 P) := decodeInt64_leaf.silent decodeInt64_evolves

theorem decodeDouble_silent : Silent (decodeDouble P) :=
  decodeDouble_leaf.silent decodeDouble_evolves

theorem decodeBool_silent : Silent (decodeBool P) := by
  rw [decodeBool_eq]
  refine .onFail (Silent.next.bind fun code => ?_)
  exact .ite (fun _ => .pure _) fun _ => .ite (fun _ => .pure _) fun _ => .failure

theorem readDate_silent (T : DurationType) : Silent (readDate P T) :=
  (readDate_leaf T).silent (readDate_evolves T)

theorem decodeBytes_silent : Silent (decodeBytes P) := decodeBytes_leaf.silent decodeBytes_evolves

theorem decodeString_silent : Silent (decodeString P) :=
  decodeString_leaf.silent decodeString_evolves

/-! ### Names -/

theorem lookup_ends {B : Fault → Tables → Prop} (f : Tables → Option α) :
    Ends (fun t a t' => t' = t ∧ f t = some a) B (Dec.lookup f) := by
  refine Ends.bind (V := fun t t₁ a t' => f t = some a ∧ t' = t₁) .aux (fun t => ?_) ?_
  · cases h : f t with
    | none => exact .failure
    | some a => exact .pure fun _ => ⟨rfl, rfl⟩
  · rintro t t₀ t₁ a t' ⟨rfl, rfl⟩ ⟨ha, rfl⟩
    exact ⟨rfl, ha⟩

/-- A reference, behind its number. -/
theorem reference_ends {B : Fault → Tables → Prop} (f : Tables → Option ObjId) :
    Ends (fun t o t' => ∃ r, f t = some r ∧ o = .ref r ∧
      t' = { t with events := t.events ++ [.reference r] }) B
      (Dec.lookup f >>= fun r => Dec.record (.reference r) >>= fun _ => pure (Object.ref r)) := by
  refine Ends.bind (lookup_ends f) (V := fun r t o t' => o = .ref r ∧
    t' = { t with events := t.events ++ [.reference r] }) (fun r => ?_) ?_
  · refine Ends.bind .modifyAux (V := fun _ t o t' => o = .ref r ∧ t' = t)
      (fun _ => .pure fun _ => ⟨rfl, rfl⟩) ?_
    rintro t ⟨⟩ t₁ o t' rfl ⟨rfl, rfl⟩
    exact ⟨rfl, rfl⟩
  · rintro t r t₁ o t' ⟨rfl, hr⟩ ⟨rfl, rfl⟩
    exact ⟨r, hr, rfl, rfl⟩

/-- The tables of names are the only difference between the two states. -/
def Tables.SameButNames (t t' : Tables) : Prop :=
  t' = { t with typesRef := t'.typesRef, defRef := t'.defRef }

/-- Only the tables of names may change, and the only way to stop is an exception. -/
def Dec.Numbers (m : Dec α) : Prop :=
  Ends (fun t _ t' => t.SameButNames t') (fun e _ => e = .lengthError) m

theorem Dec.Numbers.of_silent {m : Dec α} (h : Silent m) : Dec.Numbers m := h.ends fun _ _ => rfl

theorem Dec.Numbers.bind {β : Type} {m : Dec α} {f : α → Dec β} (hm : Dec.Numbers m)
    (hf : ∀ a, Dec.Numbers (f a)) : Dec.Numbers (m >>= f) := by
  refine Ends.bind hm hf fun {t a t' b t''} h h' => ?_
  unfold Tables.SameButNames at *
  rw [h', h]

theorem lookup_numbers (f : Tables → Option α) : Dec.Numbers (Dec.lookup f) :=
  (lookup_ends f).mono (fun h => h.1 ▸ rfl) id

theorem decodeTypeRef_numbers : Dec.Numbers (decodeTypeRef P) := by
  rw [decodeTypeRef_eq]
  refine .ahead fun code => .ite (fun _ => ?_) fun _ => ?_
  · refine (Dec.Numbers.of_silent decodeString_silent).bind fun type => ?_
    exact .bind (.mono .modifyAux (fun h => h ▸ rfl) id) fun _ => .of_silent (.pure _)
  · exact (Dec.Numbers.of_silent decodeInt32_silent).bind fun ref => lookup_numbers _

theorem decodeDefinition_numbers : Dec.Numbers (decodeDefinition P) := by
  rw [decodeDefinition_eq]
  refine (Dec.Numbers.of_silent .next).bind fun code => ?_
  unfold decodeDefinitionBy decodeDefinitionByWith
  simp only [reserve_ample]
  refine .ite (fun _ => ?_) fun _ => .ite (fun _ => ?_) fun _ => .ite (fun _ => lookup_numbers _)
    fun _ => .failure
  · refine (Dec.Numbers.of_silent decodeString_silent).bind fun type =>
      (Dec.Numbers.of_silent decodeInt32_silent).bind fun fieldLen => ?_
    refine Dec.Numbers.bind (.ite (fun _ => .stop fun _ => rfl) fun _ => .pure fun _ => rfl)
      fun _ => (Dec.Numbers.of_silent (decodeString_silent.times _)).bind fun names => ?_
    exact .bind (.mono .modifyAux (fun h => h ▸ rfl) id) fun _ => .of_silent (.pure _)
  · exact (Dec.Numbers.of_silent decodeInt32_silent).bind fun ref => lookup_numbers _

end Hessian2
