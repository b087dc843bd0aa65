import Mathlib.Tactic.Common

/-!
# Programs in lock step

Two programs with states of their own and the same errors, run side by side.

* `Simulation.SameResult` : the same error, or the same value in related states.
* `Simulation.Simulates` : related states are taken to the same result.
* `Simulates.pure`, `Simulates.bind`, `Simulates.get_bind`, `Simulates.lift_bind`, `Simulates.modify`,
  `Simulates.throw`, `skip_right` : the rules for the parts of a program.
* `SameResult.map_eq` : what does not tell related states apart is the same.
* `Simulation.bind_returns_iff`, `Simulation.bind_stops_iff` : how a run of two steps ends.
* `Simulation.SameEnd`, `Simulation.Shadows` : the second program only has a state; `Shadows.bind`,
  `Shadows.before`, `Shadows.last` are the rules.
* `Simulation.Entails` : the second program returns what the first one returns; `Entails.bind`,
  `Entails.get_bind` are the rules.
-/

namespace Simulation

variable {σ σ' ε α β γ : Type} {R : σ → σ' → Prop}

/-- The same error, or the same value in related states. -/
inductive SameResult (R : σ → σ' → Prop) : Except ε (α × σ) → Except ε (α × σ') → Prop
  | ok (a : α) {s : σ} {s' : σ'} (h : R s s') : SameResult R (.ok (a, s)) (.ok (a, s'))
  | error (e : ε) : SameResult R (.error e) (.error e)

/-- What does not tell related states apart is the same. -/
theorem SameResult.map_eq {r : Except ε (α × σ)} {r' : Except ε (α × σ')} (h : SameResult R r r')
    {g : α × σ → γ} {g' : α × σ' → γ} (hg : ∀ a s s', R s s' → g (a, s) = g' (a, s')) :
    r.map g = r'.map g' := by
  cases h with
  | ok a hs => exact congrArg Except.ok (hg a _ _ hs)
  | error e => rfl

/-- Related states are taken to the same result. -/
def Simulates (R : σ → σ' → Prop) (m : StateT σ (Except ε) α) (m' : StateT σ' (Except ε) α) : Prop :=
  ∀ ⦃s s'⦄, R s s' → SameResult R (m s) (m' s')

namespace Simulates

theorem pure (a : α) :
    Simulates R (pure a : StateT σ (Except ε) α) (pure a : StateT σ' (Except ε) α) :=
  fun _ _ h => .ok a h

theorem bind {m : StateT σ (Except ε) α} {m' : StateT σ' (Except ε) α}
    {k : α → StateT σ (Except ε) β} {k' : α → StateT σ' (Except ε) β} (hm : Simulates R m m')
    (hk : ∀ a, Simulates R (k a) (k' a)) : Simulates R (m >>= k) (m' >>= k') := by
  intro s s' h
  have hfirst := hm h
  simp only [Bind.bind, StateT.bind, Except.bind]
  generalize m s = r, m' s' = r' at hfirst
  cases hfirst with
  | ok a h' => exact hk a h'
  | error e => exact .error e

/-- What is done may depend on the states. -/
theorem get_bind {f : σ → StateT σ (Except ε) α} {f' : σ' → StateT σ' (Except ε) α}
    (h : ∀ s s', R s s' → Simulates R (f s) (f' s')) : Simulates R (get >>= f) (get >>= f') :=
  fun s s' hs => h s s' hs hs

/-- A computation without a state is the same on both sides. -/
theorem lift_bind (m : Except ε α) {k : α → StateT σ (Except ε) β} {k' : α → StateT σ' (Except ε) β}
    (hk : ∀ a, Simulates R (k a) (k' a)) : Simulates R (liftM m >>= k) (liftM m >>= k') := by
  intro s s' h
  cases m with
  | ok a => exact hk a h
  | error e => exact .error e

theorem modify {g : σ → σ} {g' : σ' → σ'} (h : ∀ s s', R s s' → R (g s) (g' s')) :
    Simulates R (modify g : StateT σ (Except ε) Unit) (modify g' : StateT σ' (Except ε) Unit) :=
  fun s s' hs => .ok () (h s s' hs)

theorem throw (e : ε) : Simulates R (throw e : StateT σ (Except ε) α) (throw e) :=
  fun _ _ _ => .error e

end Simulates

/-- The second program does something more, which does not matter. -/
theorem skip_right {g' : σ' → σ'} (h : ∀ s s', R s s' → R s (g' s'))
    {m : StateT σ (Except ε) α} {m' : StateT σ' (Except ε) α} (hm : Simulates R m m') :
    Simulates R m (modify g' >>= fun _ => m') := fun s s' hs => hm (h s s' hs)

/-! ### Two steps -/

/-- A run of two steps returns if both do. -/
theorem bind_returns_iff {m : Except ε α} {k : α → Except ε β} :
    (∃ b, m >>= k = .ok b) ↔ ∃ a, m = .ok a ∧ ∃ b, k a = .ok b := by
  cases m with
  | ok a => exact ⟨fun h => ⟨a, rfl, h⟩, fun ⟨_, ha, h⟩ => Except.ok.inj ha ▸ h⟩
  | error s =>
    constructor
    · rintro ⟨_, h⟩
      cases h
    · rintro ⟨_, h, -⟩
      cases h

/-- A run of two steps stops in one of them. -/
theorem bind_stops_iff {m : Except ε α} {k : α → Except ε β} {e : ε} :
    m >>= k = .error e ↔ m = .error e ∨ ∃ a, m = .ok a ∧ k a = .error e := by
  cases m with
  | ok a =>
    refine ⟨fun h => .inr ⟨a, rfl, h⟩, ?_⟩
    rintro (h | ⟨_, ha, h⟩)
    · cases h
    · exact Except.ok.inj ha ▸ h
  | error s =>
    have hbind : (Except.error s : Except ε α) >>= k = .error s := rfl
    rw [hbind, Except.error.injEq, Except.error.injEq]
    refine ⟨fun h => .inl h, ?_⟩
    rintro (h | ⟨_, h, -⟩)
    · exact h
    · cases h

/-! ### A program and its shadow -/

/-- The same error, or an end in related states, whatever is returned. -/
inductive SameEnd (R : σ → σ' → Prop) : Except ε (α × σ) → Except ε σ' → Prop
  | ok (a : α) {s : σ} {s' : σ'} (h : R s s') : SameEnd R (.ok (a, s)) (.ok s')
  | error (e : ε) : SameEnd R (.error e) (.error e)

/-- One of the programs returns exactly if the other one does. -/
theorem SameEnd.returns_iff {r : Except ε (α × σ)} {r' : Except ε σ'} (h : SameEnd R r r') :
    (∃ a, r = .ok a) ↔ ∃ s', r' = .ok s' := by
  cases h with
  | ok a hs => exact ⟨fun _ => ⟨_, rfl⟩, fun _ => ⟨_, rfl⟩⟩
  | error e => constructor <;> rintro ⟨_, h⟩ <;> cases h

/-- One of the programs stops exactly if the other one does. -/
theorem SameEnd.stops_iff {r : Except ε (α × σ)} {r' : Except ε σ'} (h : SameEnd R r r') {e : ε} :
    r = .error e ↔ r' = .error e := by
  cases h with
  | ok a hs => constructor <;> rintro ⟨⟩
  | error e' => rw [Except.error.injEq, Except.error.injEq]

/-- The program does to its state what `g` does to a related one. -/
def Shadows (R : σ → σ' → Prop) (m : StateT σ (Except ε) α) (g : σ' → Except ε σ') : Prop :=
  ∀ ⦃s s'⦄, R s s' → SameEnd R (m s) (g s')

namespace Shadows

theorem pure (a : α) : Shadows R (pure a : StateT σ (Except ε) α) .ok := fun _ _ h => .ok a h

theorem bind {m : StateT σ (Except ε) α} {k : α → StateT σ (Except ε) β} {g h : σ' → Except ε σ'}
    (hm : Shadows R m g) (hk : ∀ a, Shadows R (k a) h) :
    Shadows R (m >>= k) fun s' => g s' >>= h := by
  intro s s' hs
  have hfirst := hm hs
  simp only [Bind.bind, StateT.bind, Except.bind]
  generalize m s = r, g s' = r' at hfirst
  cases hfirst with
  | ok a hs' => exact hk a hs'
  | error e => exact .error e

/-- What comes first does not stop. -/
theorem before {m : StateT σ (Except ε) α} {k : α → StateT σ (Except ε) β} {f : σ' → σ'}
    {h : σ' → Except ε σ'} (hm : Shadows R m fun s' => .ok (f s')) (hk : ∀ a, Shadows R (k a) h) :
    Shadows R (m >>= k) fun s' => h (f s') := hm.bind hk

/-- What comes last leaves the state alone. -/
theorem last {m : StateT σ (Except ε) α} {k : α → StateT σ (Except ε) β} {g : σ' → Except ε σ'}
    (hm : Shadows R m g) (hk : ∀ a, Shadows R (k a) .ok) : Shadows R (m >>= k) g := by
  have hbind := hm.bind hk
  have hpure : (fun s' => g s' >>= Except.ok) = g := funext fun s' => bind_pure (g s')
  rwa [hpure] at hbind

end Shadows

/-! ### A program that stops less often -/

/-- Where the first program returns, the second one returns the same and ends in the same state. -/
def Entails (m m' : StateT σ (Except ε) α) : Prop := ∀ ⦃s r⦄, m s = .ok r → m' s = .ok r

namespace Entails

theorem of_eq {m m' : StateT σ (Except ε) α} (h : m = m') : Entails m m' := fun _ _ hm => h ▸ hm

theorem throw (e : ε) (m : StateT σ (Except ε) α) : Entails (throw e) m :=
  fun _ _ h => nomatch (h : Except.error e = Except.ok _)

theorem bind {m m' : StateT σ (Except ε) α} {k k' : α → StateT σ (Except ε) β} (hm : Entails m m')
    (hk : ∀ a, Entails (k a) (k' a)) : Entails (m >>= k) (m' >>= k') := by
  intro s r h
  simp only [Bind.bind, StateT.bind, Except.bind] at h ⊢
  cases hfirst : m s with
  | error e =>
    rw [hfirst] at h
    cases h
  | ok first =>
    rw [hfirst] at h
    rw [hm hfirst]
    exact hk first.1 h

/-- What is done may depend on the state. -/
theorem get_bind {f f' : σ → StateT σ (Except ε) α} (h : ∀ s, Entails (f s) (f' s)) :
    Entails (get >>= f) (get >>= f') := fun s _ hf => h s hf

end Entails

end Simulation
