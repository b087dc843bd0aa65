import Hessian2.Parsing.Laws

/-!
# Budgets

What a parser keeps is paid for by the tokens it reads, however a run ends.

* `Outcome.Within` : the auxiliary state, the unread tokens and the value stay within a budget.
* `Parser.Pays φ k m w` : the tokens that `m` reads, and a credit of `k`, pay for what `m` adds to the
  auxiliary state, and a value `a` leaves a credit of `w a`.
* `Parser.Saves φ k m w` : the same without the first of the tokens.
* `Pays.bind`, `Pays.times`, `Pays.iter`, `Pays.fix` : composition.
-/

namespace Parsing

variable {β σ ε ι α γ : Type}

/-- What is kept, what is unread and what the value is worth are within the budget. -/
def Outcome.Within (φ : σ → ℕ) (budget : ℕ) (w : α → ℕ) : Outcome β σ ε α → Prop
  | .ok a s => φ s.aux + s.cursor.unread.length + w a ≤ budget
  | .fail s => φ s.aux + s.cursor.unread.length ≤ budget
  | .fault _ s => φ s.aux + s.cursor.unread.length ≤ budget
  | .exhausted => True

theorem Outcome.Within.mono {φ : σ → ℕ} {B B' : ℕ} {w w' : α → ℕ} {o : Outcome β σ ε α}
    (h : o.Within φ B w) (hB : B ≤ B') (hw : ∀ a, w' a ≤ w a) : o.Within φ B' w' := by
  cases o with
  | ok a s => exact (Nat.add_le_add_left (hw a) _).trans (Nat.le_trans h hB)
  | fail s => exact Nat.le_trans h hB
  | fault e s => exact Nat.le_trans h hB
  | exhausted => trivial

/-- A larger budget leaves more for the value. -/
theorem Outcome.Within.frame {φ : σ → ℕ} {B : ℕ} {w : α → ℕ} {o : Outcome β σ ε α}
    (h : o.Within φ B w) (c : ℕ) : o.Within φ (B + c) fun a => w a + c := by
  cases o with
  | ok a s => exact (Nat.add_assoc _ _ c).symm.le.trans (Nat.add_le_add_right h c)
  | fail s => exact Nat.le_add_right_of_le h
  | fault e s => exact Nat.le_add_right_of_le h
  | exhausted => trivial

namespace Parser

/-- What is read and a credit pay for what is kept; a value leaves a credit. -/
def Pays (φ : σ → ℕ) (k : ℕ) (m : Parser β σ ε α) (w : α → ℕ) : Prop :=
  ∀ s, (m s).Within φ (φ s.aux + s.cursor.unread.length + k) w

/-- The parser does so without the first token, if there is one. -/
def Saves (φ : σ → ℕ) (k : ℕ) (m : Parser β σ ε α) (w : α → ℕ) : Prop :=
  ∀ s, (m s).Within φ (φ s.aux + (s.cursor.unread.length - 1) + k) w

variable {φ : σ → ℕ} {k k' : ℕ} {w w' : α → ℕ} {v : γ → ℕ}

theorem Outcome.Within.andThen {B : ℕ} {o : Outcome β σ ε α} (ho : o.Within φ B w)
    {f : α → Parser β σ ε γ} (hf : ∀ a, Pays φ (w a) (f a) v) : (o.andThen f).Within φ B v := by
  cases o with
  | ok a s => exact (hf a s).mono ho fun _ => Nat.le_refl _
  | fail s => exact ho
  | fault e s => exact ho
  | exhausted => trivial

theorem Outcome.Within.onFail {B : ℕ} {m : Parser β σ ε α} {s : State β σ} (h : (m s).Within φ B w)
    {g : σ → State β σ → σ} (hg : ∀ (t : σ) (s : State β σ), φ (g t s) ≤ φ s.aux) :
    (onFail g m s).Within φ B w := by
  rw [Parser.onFail]
  cases hm : m s with
  | fail s' =>
    rw [hm] at h
    exact (Nat.add_le_add_right (hg _ _) _).trans h
  | ok a s' => rwa [hm] at h
  | fault e s' => rwa [hm] at h
  | exhausted => trivial

namespace Pays

theorem mono {m : Parser β σ ε α} (h : Pays φ k m w) (hk : k ≤ k') (hw : ∀ a, w' a ≤ w a) :
    Pays φ k' m w' := fun s => (h s).mono (Nat.add_le_add_left hk _) hw

/-- Credit that is not needed is left. -/
theorem frame {m : Parser β σ ε α} (h : Pays φ k m w) (c : ℕ) :
    Pays φ (k + c) m fun a => w a + c := fun s => by
  simpa only [Nat.add_assoc] using (h s).frame c

theorem pure {a : α} (h : w a ≤ k) : Pays φ k (Pure.pure a : Parser β σ ε α) w :=
  fun _ => Nat.add_le_add_left h _

theorem failure : Pays φ k (Parser.fail : Parser β σ ε α) w := fun _ => Nat.le_add_right _ _

theorem stop (e : ε) : Pays φ k (Parser.fault e : Parser β σ ε α) w := fun _ => Nat.le_add_right _ _

theorem bind {m : Parser β σ ε α} {f : α → Parser β σ ε γ} (hm : Pays φ k m w)
    (hf : ∀ a, Pays φ (w a) (f a) v) : Pays φ k (m >>= f) v := fun s => by
  rw [bind_apply]
  exact Outcome.Within.andThen (hm s) hf

/-- A parser that is paid for by what it reads, and then one with the same credit. -/
theorem andThen {m : Parser β σ ε α} {f : α → Parser β σ ε γ} (hm : Pays φ 0 m w)
    (hf : ∀ a, Pays φ (w a + k) (f a) v) : Pays φ k (m >>= f) v :=
  bind ((hm.frame k).mono (Nat.zero_add k).le fun _ => Nat.le_refl _) hf

theorem ite {p : Prop} [Decidable p] {m m' : Parser β σ ε α} (h : p → Pays φ k m w)
    (h' : ¬p → Pays φ k m' w) : Pays φ k (if p then m else m') w := by
  split
  · exact h ‹_›
  · exact h' ‹_›

theorem aux : Pays φ k (Parser.aux : Parser β σ ε σ) fun _ => k := fun _ => Nat.le_refl _

/-- What is added to the auxiliary state is paid from the credit. -/
theorem modifyAux {f : σ → σ} (h : ∀ t, φ (f t) + k' ≤ φ t + k) :
    Pays φ k (Parser.modifyAux f : Parser β σ ε Unit) fun _ => k' := fun s => by
  have := h s.aux
  simp only [modifyAux_apply, Outcome.Within]
  omega

/-- What is read can be kept. -/
theorem take (n : ℕ) : Pays φ 0 (Parser.take n : Parser β σ ε (List β)) List.length := fun s => by
  rcases Nat.lt_or_ge s.cursor.unread.length n with hn | hn
  · rw [take_of_lt hn]
    exact Nat.le_refl _
  · rw [take_of_le hn]
    simp [Outcome.Within]
    omega

theorem next : Pays φ 0 (Parser.next : Parser β σ ε β) fun _ => 1 := fun s => by
  rcases hu : s.cursor.unread with _ | ⟨b, bs⟩
  · rw [next_of_nil hu]
    simp [Outcome.Within, hu]
  · rw [next_of_cons hu]
    simp only [Outcome.Within, Cursor.unread_advance, hu, List.drop_succ_cons, List.drop_zero,
      List.length_cons]
    omega

theorem onFail {g : σ → State β σ → σ} {m : Parser β σ ε α} (h : Pays φ k m w)
    (hg : ∀ (t : σ) (s : State β σ), φ (g t s) ≤ φ s.aux) : Pays φ k (Parser.onFail g m) w :=
  fun s => Outcome.Within.onFail (h s) hg

theorem times {m : Parser β σ ε α} (h : Pays φ 0 m w) : ∀ n,
    Pays φ 0 (times m n) fun as => (as.map w).sum
  | 0 => pure (Nat.le_refl _)
  | n + 1 => h.bind fun a => (times h n).andThen fun as => pure (by simp [Nat.add_comm])

/-- A recursion pays as its body does when its calls to itself do. -/
theorem fix {F : (ι → Parser β σ ε α) → ι → Parser β σ ε α} {k : ι → ℕ}
    (h : ∀ self : ι → Parser β σ ε α, (∀ i, Pays φ (k i) (self i) w) → ∀ i, Pays φ (k i) (F self i) w)
    (i : ι) : Pays φ (k i) (Parser.fix F i) w := fun s =>
  fix_induct (F := F)
    (Q := fun i s o => o.Within φ (φ s.aux + s.cursor.unread.length + k i) w)
    (fun _ _ => trivial) (fun self hs i s => h self (fun i s => hs i s) i s) i s

theorem iter {step : ι → Parser β σ ε (ι ⊕ α)} {k : ι → ℕ}
    (h : ∀ i, Pays φ (k i) (step i) (Sum.elim k w)) (i : ι) : Pays φ (k i) (Parser.iter step i) w :=
  Pays.fix (F := turn step) (fun self hs i => (h i).bind fun r => by
    cases r with
    | inl j => exact hs j
    | inr a => exact pure (Nat.le_refl _)) i

theorem saves {m : Parser β σ ε α} (h : Pays φ k m w) : Saves φ (k + 1) m w := fun s =>
  (h s).mono (by omega) fun _ => Nat.le_refl _

/-- With the look at the first token it need not pay for that one. -/
theorem ahead {f : β → Parser β σ ε α} (hf : ∀ b, Saves φ (k + 1) (f b) w) :
    Pays φ k (Parser.ahead f) w := fun s => by
  rcases hu : s.cursor.unread with _ | ⟨b, bs⟩
  · rw [ahead_of_nil hu]
    simp [Outcome.Within, hu]
  · rw [ahead_of_cons hu]
    exact (hf b s).mono (by simp [hu]; omega) fun _ => Nat.le_refl _

end Pays

namespace Saves

theorem next {f : β → Parser β σ ε α} (hf : ∀ b, Pays φ k (f b) w) :
    Saves φ k (Parser.next >>= f) w := fun s => by
  rcases hu : s.cursor.unread with _ | ⟨b, bs⟩
  · rw [bind_apply, next_of_nil hu]
    simp [Outcome.Within, hu]
  · rw [bind_apply, next_of_cons hu, Outcome.ok_andThen]
    refine (hf b _).mono ?_ fun _ => Nat.le_refl _
    simp [hu]

theorem ahead {f : β → Parser β σ ε α} (hf : ∀ b, Saves φ k (f b) w) :
    Saves φ k (Parser.ahead f) w := fun s => by
  rcases hu : s.cursor.unread with _ | ⟨b, bs⟩
  · rw [ahead_of_nil hu]
    simp [Outcome.Within, hu]
  · rw [ahead_of_cons hu, ← hu]
    exact hf b s

theorem bind {m : Parser β σ ε α} {f : α → Parser β σ ε γ} (hm : Saves φ k m w)
    (hf : ∀ a, Pays φ (w a) (f a) v) : Saves φ k (m >>= f) v := fun s => by
  rw [bind_apply]
  exact Outcome.Within.andThen (hm s) hf

/-- Behind a parser that does not read. -/
theorem after {m : Parser β σ ε α} {f : α → Parser β σ ε γ}
    (hm : ∀ s, ∃ a t, m s = .ok a ⟨s.cursor, t⟩ ∧ φ t + k' ≤ φ s.aux + k)
    (hf : ∀ a, Saves φ k' (f a) v) : Saves φ k (m >>= f) v := fun s => by
  obtain ⟨a, t, h, ht⟩ := hm s
  rw [bind_apply, h, Outcome.ok_andThen]
  refine (hf a ⟨s.cursor, t⟩).mono ?_ fun _ => Nat.le_refl _
  dsimp only
  omega

theorem onFail {g : σ → State β σ → σ} {m : Parser β σ ε α} (h : Saves φ k m w)
    (hg : ∀ (t : σ) (s : State β σ), φ (g t s) ≤ φ s.aux) : Saves φ k (Parser.onFail g m) w :=
  fun s => Outcome.Within.onFail (h s) hg

end Saves

end Parser

end Parsing
