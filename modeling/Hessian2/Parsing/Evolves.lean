import Hessian2.Parsing.Laws
import Mathlib.Order.Defs.Unbundled

/-!
# How the auxiliary state evolves

What holds between the auxiliary states before and after a run however the run ends: with a value,
by a refusal of the input or by a fault.

* `Outcome.final` : the state in which a run ends.
* `Evolves R m` : every run of `m` takes the auxiliary state forward along `R`.
-/

namespace Parsing

namespace Parser

variable {β σ ε ι α γ : Type}

/-- Every run moves the auxiliary state along `R`, however it ends. -/
def Evolves (R : σ → σ → Prop) (m : Parser β σ ε α) : Prop :=
  ∀ ⦃s s'⦄, (m s).final = some s' → R s.aux s'.aux

namespace Evolves

variable {R : σ → σ → Prop}

theorem ok {m : Parser β σ ε α} (h : Evolves R m) {s s' : State β σ} {a : α}
    (hm : m s = .ok a s') : R s.aux s'.aux := h (by rw [hm]; rfl)

theorem fail {m : Parser β σ ε α} (h : Evolves R m) {s s' : State β σ}
    (hm : m s = .fail s') : R s.aux s'.aux := h (by rw [hm]; rfl)

theorem mono {S : σ → σ → Prop} {m : Parser β σ ε α} (h : Evolves R m)
    (hS : ∀ {t t'}, R t t' → S t t') : Evolves S m := fun _ _ hm => hS (h hm)

theorem modifyAux {f : σ → σ} (h : ∀ t, R t (f t)) :
    Evolves R (modifyAux f : Parser β σ ε Unit) := by
  rintro s s' ⟨⟩
  exact h _

theorem ite {p : Prop} [Decidable p] {m m' : Parser β σ ε α} (h : p → Evolves R m)
    (h' : ¬p → Evolves R m') : Evolves R (if p then m else m') := by
  split
  · exact h ‹_›
  · exact h' ‹_›

theorem onFail {g : σ → State β σ → σ} {m : Parser β σ ε α} (h : Evolves R m)
    (hg : ∀ {t : σ} {s : State β σ}, R t s.aux → R t (g t s)) : Evolves R (onFail g m) := by
  intro s s' hm
  rw [Parser.onFail] at hm
  cases hs : m s with
  | fail s₁ =>
    rw [hs] at hm
    cases hm
    exact hg (h.fail hs)
  | ok a s₁ =>
    rw [hs] at hm
    exact h (by rw [hs]; exact hm)
  | fault e s₁ =>
    rw [hs] at hm
    exact h (by rw [hs]; exact hm)
  | exhausted =>
    rw [hs] at hm
    cases hm

/-- A recursion evolves as its body does when its calls to itself do. -/
theorem fix {F : (ι → Parser β σ ε α) → ι → Parser β σ ε α}
    (h : ∀ self : ι → Parser β σ ε α, (∀ i, Evolves R (self i)) → ∀ i, Evolves R (F self i))
    (i : ι) : Evolves R (fix F i) := by
  intro s s'
  refine fix_induct (F := F) (Q := fun _ s o => ∀ s', o.final = some s' → R s.aux s'.aux)
    (fun i s s' => ?_) (fun self hs i s s' hm => ?_) i s s'
  · rintro ⟨⟩
  · exact h self (fun i s s' => hs i s s') i hm

section Reflexive

variable [Std.Refl R]

theorem same {m : Parser β σ ε α} (h : ∀ ⦃s s'⦄, (m s).final = some s' → s'.aux = s.aux) :
    Evolves R m := by
  intro s s' hm
  rw [h hm]
  exact Std.Refl.refl _

theorem pure (a : α) : Evolves R (pure a : Parser β σ ε α) := .same (by rintro s s' ⟨⟩; rfl)

theorem failure : Evolves R (Parser.fail : Parser β σ ε α) := .same (by rintro s s' ⟨⟩; rfl)

theorem stop (e : ε) : Evolves R (Parser.fault e : Parser β σ ε α) := .same (by rintro s s' ⟨⟩; rfl)

theorem aux : Evolves R (aux : Parser β σ ε σ) := .same (by rintro s s' ⟨⟩; rfl)

theorem take (n : ℕ) : Evolves R (take n : Parser β σ ε (List β)) := by
  refine .same fun s s' h => ?_
  rcases Nat.lt_or_ge s.cursor.unread.length n with hn | hn
  · rw [take_of_lt hn] at h
    cases h
    rfl
  · rw [take_of_le hn] at h
    cases h
    rfl

theorem next : Evolves R (next : Parser β σ ε β) := by
  refine .same fun s s' h => ?_
  rcases hu : s.cursor.unread with _ | ⟨b, bs⟩
  · rw [next_of_nil hu] at h
    cases h
    rfl
  · rw [next_of_cons hu] at h
    cases h
    rfl

theorem ahead {k : β → Parser β σ ε α} (hk : ∀ b, Evolves R (k b)) : Evolves R (ahead k) := by
  intro s s' h
  rcases hu : s.cursor.unread with _ | ⟨b, bs⟩
  · rw [ahead_of_nil hu] at h
    cases h
    exact Std.Refl.refl _
  · rw [ahead_of_cons hu] at h
    exact hk b h

end Reflexive

variable [IsPreorder σ R]

theorem bind {m : Parser β σ ε α} {f : α → Parser β σ ε γ} (hm : Evolves R m)
    (hf : ∀ a, Evolves R (f a)) : Evolves R (m >>= f) := by
  intro s s' h
  rw [bind_apply] at h
  cases hs : m s with
  | ok a s₁ =>
    rw [hs] at h
    exact IsTrans.trans _ _ _ (hm.ok hs) (hf a h)
  | fail s₁ =>
    rw [hs] at h
    cases h
    exact hm.fail hs
  | fault e s₁ =>
    rw [hs] at h
    cases h
    exact hm (by rw [hs]; rfl)
  | exhausted =>
    rw [hs] at h
    cases h

theorem times {m : Parser β σ ε α} (h : Evolves R m) : ∀ n, Evolves R (times m n)
  | 0 => .pure _
  | n + 1 => h.bind fun _ => (times h n).bind fun _ => .pure _

theorem iter {step : ι → Parser β σ ε (ι ⊕ α)} (h : ∀ i, Evolves R (step i)) (i : ι) :
    Evolves R (iter step i) := by
  refine Evolves.fix (F := turn step) (fun self hs i => (h i).bind fun r => ?_) i
  cases r with
  | inl j => exact hs j
  | inr a => exact .pure a

end Evolves

end Parser

end Parsing
