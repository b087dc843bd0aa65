import Hessian2.Parsing.Evolves

/-!
# Parsers that run alike on some buffers

* `Twins G m m'` : on buffers with `G` the two parsers do the same, and no run leaves its buffer.
* `Twins.bind`, `Twins.ahead`, `Twins.times`, `Twins.iter`, `Twins.fix` : the rules for the parts of a
  parser.
* `Twins.attempt` : a run goes on behind a refusal.
-/

namespace Parsing

namespace Parser

variable {β σ ε ι α γ : Type}

/-- On buffers with `G` the parsers do the same, and the first one stays on its buffer. -/
structure Twins (G : List β → Prop) (m m' : Parser β σ ε α) : Prop where
  same : ∀ ⦃s⦄, G s.cursor.buffer → m s = m' s
  stays : ∀ ⦃s s'⦄, (m s).final = some s' → s'.cursor.buffer = s.cursor.buffer

/-- A run that returns what it does or that it refuses. -/
def attempt (m : Parser β σ ε α) : Parser β σ ε (Option α) := fun s =>
  match m s with
  | .ok a s' => .ok (some a) s'
  | .fail s' => .ok none s'
  | .fault e s' => .fault e s'
  | .exhausted => .exhausted

namespace Twins

variable {G : List β → Prop}

theorem of_delimited {E : ε → Prop} {m : Parser β σ ε α} (h : Delimited E m) : Twins G m m := by
  refine ⟨fun _ _ => rfl, fun s s' hs => ?_⟩
  obtain ⟨c, t⟩ := s
  cases hm : m ⟨c, t⟩ with
  | ok a s₁ =>
    rw [hm] at hs
    cases hs
    exact (h.before hm).1
  | fail s₁ =>
    rw [hm] at hs
    cases hs
    exact (h.fail hm).1
  | fault e s₁ =>
    rw [hm] at hs
    cases hs
    exact (h.fault hm).2.1.1
  | exhausted =>
    rw [hm] at hs
    cases hs

/-- The parsers are the same. -/
theorem of_eq {E : ε → Prop} {m m' : Parser β σ ε α} (h : Delimited E m) (heq : m = m') :
    Twins G m m' := heq ▸ of_delimited h

theorem ite {p : Prop} [Decidable p] {m₁ m₂ m₁' m₂' : Parser β σ ε α} (h₁ : p → Twins G m₁ m₁')
    (h₂ : ¬ p → Twins G m₂ m₂') : Twins G (if p then m₁ else m₂) (if p then m₁' else m₂') := by
  split
  · exact h₁ ‹_›
  · exact h₂ ‹_›

theorem pure (a : α) : Twins G (pure a : Parser β σ ε α) (Pure.pure a) :=
  ⟨fun _ _ => rfl, by rintro s s' ⟨⟩; rfl⟩

theorem failure : Twins G (fail : Parser β σ ε α) fail := ⟨fun _ _ => rfl, by rintro s s' ⟨⟩; rfl⟩

theorem stop (e : ε) : Twins G (fault e : Parser β σ ε α) (fault e) :=
  ⟨fun _ _ => rfl, by rintro s s' ⟨⟩; rfl⟩

theorem aux : Twins G (aux : Parser β σ ε σ) Parser.aux := ⟨fun _ _ => rfl, by rintro s s' ⟨⟩; rfl⟩

theorem modifyAux (f : σ → σ) : Twins G (modifyAux f : Parser β σ ε Unit) (Parser.modifyAux f) :=
  ⟨fun _ _ => rfl, by rintro s s' ⟨⟩; rfl⟩

theorem next : Twins G (next : Parser β σ ε β) Parser.next :=
  of_delimited (E := fun _ => False) .next

theorem bind {m m' : Parser β σ ε α} {k k' : α → Parser β σ ε γ} (hm : Twins G m m')
    (hk : ∀ a, Twins G (k a) (k' a)) : Twins G (m >>= k) (m' >>= k') := by
  constructor
  · intro s hG
    have hfirst : (m' >>= k') s = (m >>= k') s := by rw [bind_apply, bind_apply, ← hm.same hG]
    rw [hfirst]
    refine bind_congr_ok fun a s₁ hs => ?_
    have hfinal : (m s).final = some s₁ := by rw [hs]; rfl
    have hbuffer := hm.stays hfinal
    exact (hk a).same (hbuffer ▸ hG)
  · intro s s' h
    rw [bind_apply] at h
    cases hs : m s with
    | ok a s₁ =>
      have hfinal : (m s).final = some s₁ := by rw [hs]; rfl
      have hbuffer := hm.stays hfinal
      rw [hs] at h
      rw [← hbuffer]
      exact (hk a).stays h
    | fail s₁ =>
      rw [hs] at h
      exact hm.stays (by rw [hs]; exact h)
    | fault e s₁ =>
      rw [hs] at h
      exact hm.stays (by rw [hs]; exact h)
    | exhausted =>
      rw [hs] at h
      cases h

theorem ahead {k k' : β → Parser β σ ε α} (hk : ∀ b, Twins G (k b) (k' b)) :
    Twins G (ahead k) (Parser.ahead k') := by
  constructor
  · intro s hG
    rcases hu : s.cursor.unread with _ | ⟨b, bs⟩
    · rw [ahead_of_nil hu, ahead_of_nil hu]
    · rw [ahead_of_cons hu, ahead_of_cons hu]
      exact (hk b).same hG
  · intro s s' h
    rcases hu : s.cursor.unread with _ | ⟨b, bs⟩
    · rw [ahead_of_nil hu] at h
      cases h
      rfl
    · rw [ahead_of_cons hu] at h
      exact (hk b).stays h

theorem onFail {m m' : Parser β σ ε α} (g : σ → State β σ → σ) (h : Twins G m m') :
    Twins G (onFail g m) (Parser.onFail g m') := by
  constructor
  · intro s hG
    rw [Parser.onFail, Parser.onFail, h.same hG]
  · intro s s' hs
    rw [Parser.onFail] at hs
    cases hm : m s with
    | fail s₁ =>
      rw [hm] at hs
      cases hs
      have hfinal : (m s).final = some s₁ := by rw [hm]; rfl
      show s₁.cursor.buffer = s.cursor.buffer
      exact h.stays hfinal
    | ok a s₁ =>
      rw [hm] at hs
      exact h.stays (by rw [hm]; exact hs)
    | fault e s₁ =>
      rw [hm] at hs
      exact h.stays (by rw [hm]; exact hs)
    | exhausted =>
      rw [hm] at hs
      cases hs

theorem attempt {m m' : Parser β σ ε α} (h : Twins G m m') : Twins G (attempt m) (Parser.attempt m') := by
  constructor
  · intro s hG
    rw [Parser.attempt, Parser.attempt, h.same hG]
  · intro s s' hs
    rw [Parser.attempt] at hs
    refine h.stays ?_
    cases hm : m s <;> rw [hm] at hs <;> exact hs

theorem times {m m' : Parser β σ ε α} (h : Twins G m m') : ∀ n, Twins G (times m n) (Parser.times m' n)
  | 0 => .pure []
  | n + 1 => h.bind fun a => (times h n).bind fun as => .pure (a :: as)

/-- Recursions run alike if their bodies do when their calls to themselves do. -/
theorem fix {F F' : (ι → Parser β σ ε α) → ι → Parser β σ ε α}
    (h : ∀ self self', (∀ i, Twins G (self i) (self' i)) → ∀ i, Twins G (F self i) (F' self' i)) (i : ι) :
    Twins G (fix F i) (Parser.fix F' i) := by
  have hfix (n : ℕ) : ∀ i, Twins G (fixN F n i) (fixN F' n i) := by
    induction n with
    | zero => exact fun i => ⟨fun _ _ => rfl, by rintro s s' ⟨⟩⟩
    | succ n ih => exact h _ _ ih
  exact ⟨fun s hG => (hfix _ i).same hG, fun s s' hs => (hfix _ i).stays hs⟩

theorem iter {step step' : ι → Parser β σ ε (ι ⊕ α)} (h : ∀ i, Twins G (step i) (step' i)) (i : ι) :
    Twins G (iter step i) (Parser.iter step' i) := by
  refine fix (fun self self' hself i => (h i).bind fun r => ?_) i
  cases r with
  | inl j => exact hself j
  | inr a => exact .pure a

end Twins

end Parser

end Parsing
