import Hessian2.Parsing.Laws

/-!
# Tame parsers

The three judgements about how a parser runs, carried through a parser in one go: what it reads is
delimited, what it reads has a price, and it does the same as another parser on short inputs.

* `Tame E T N m m' w` : `m` is delimited with faults in `E`, a value `a` of `m` uses up at least
  `w a` tokens, and `m` and `m'` agree on fewer than `N` unread tokens.
* `Tame.Body` : the body of a recursion that, when its calls to itself are tame, is tame on inputs
  one token longer.  `Tame.Body.fix_eq` and `Tame.Body.fix` are its recursion equation and the
  three judgements for the whole recursion.
-/

namespace Parsing

namespace Parser

variable {β σ ε ι α γ : Type}

/-- `m` is delimited, has the price `w`, and agrees with `m'` below `N` unread tokens. -/
structure Tame (E : ε → Prop) (T : Prop) (N : ℕ) (m m' : Parser β σ ε α) (w : α → ℕ) : Prop where
  delimited : Delimited E m
  costs : Costs m w
  agree : Agree T N m m'

namespace Tame

variable {E : ε → Prop} {T : Prop} {N : ℕ}

theorem mono {m m' : Parser β σ ε α} {w w' : α → ℕ} {M : ℕ} (h : Tame E T N m m' w) (hM : M ≤ N)
    (hw : ∀ a, w' a ≤ w a) : Tame E T M m m' w' :=
  ⟨h.delimited, h.costs.mono hw, h.agree.mono hM⟩

/-- A value that costs something leaves less to read. -/
theorem length_lt {m m' : Parser β σ ε α} (h : Tame E T N m m' fun _ => 1) {s s' : State β σ} {a : α}
    (hm : m s = .ok a s') : s'.cursor.unread.length < s.cursor.unread.length := by
  have hcost := h.costs hm
  have hbefore := (h.delimited.before hm).1
  have hle := s'.cursor.offset_le
  rw [Cursor.length_unread, Cursor.length_unread, hbefore]
  rw [hbefore] at hle
  omega

/-- Forget the price. -/
theorem free {m m' : Parser β σ ε α} {w : α → ℕ} (h : Tame E T N m m' w) :
    Tame E T N m m' fun _ => 0 := h.mono (Nat.le_refl _) fun _ => Nat.zero_le _

theorem pure (a : α) : Tame E T N (pure a : Parser β σ ε α) (Pure.pure a) fun _ => 0 :=
  ⟨.pure a, .pure a, .pure a⟩

/-- A value that is free. -/
theorem value {a : α} {w : α → ℕ} (h : w a = 0) :
    Tame E T N (Pure.pure a : Parser β σ ε α) (Pure.pure a) w := by
  refine ⟨.pure a, fun s b s' hs => ?_, .pure a⟩
  cases hs
  exact Nat.le_of_eq (by rw [h]; rfl)

theorem failure (w : α → ℕ) : Tame E T N (fail : Parser β σ ε α) fail w :=
  ⟨.failure, .failure w, .failure⟩

theorem stop {e : ε} (he : E e) (w : α → ℕ) :
    Tame E T N (fault e : Parser β σ ε α) (fault e) w :=
  ⟨.stop he, .stop e w, .refl fun _ => by simp⟩

theorem aux : Tame E T N (aux : Parser β σ ε σ) Parser.aux fun _ => 0 :=
  ⟨.aux, .of_delimited (E := E) .aux, .refl fun _ => by simp⟩

theorem modifyAux (f : σ → σ) :
    Tame E T N (modifyAux f : Parser β σ ε Unit) (Parser.modifyAux f) fun _ => 0 :=
  ⟨.modifyAux f, .of_delimited (E := E) (.modifyAux f), .refl fun _ => by simp⟩

theorem take (n : ℕ) :
    Tame E T N (take n : Parser β σ ε (List β)) (Parser.take n) fun _ => n := by
  refine ⟨.take n, .take n, .refl fun s => ?_⟩
  rcases Nat.lt_or_ge s.cursor.unread.length n with h | h
  · simp [take_of_lt h]
  · simp [take_of_le h]

theorem next : Tame E T N (next : Parser β σ ε β) Parser.next fun _ => 1 := by
  refine ⟨.next, .next, .refl fun s => ?_⟩
  rcases h : s.cursor.unread with _ | ⟨b, bs⟩
  · simp [next_of_nil h]
  · simp [next_of_cons h]

theorem ahead {k k' : β → Parser β σ ε α} {w : α → ℕ} (hw : ∀ a, 1 ≤ w a)
    (h : ∀ b, Tame E T N (k b) (k' b) w) : Tame E T N (ahead k) (Parser.ahead k') w :=
  ⟨.ahead (fun b => (h b).delimited) fun b => (h b).costs.mono hw, .ahead fun b => (h b).costs,
    .ahead fun b => (h b).agree⟩

theorem onFail {m m' : Parser β σ ε α} {w : α → ℕ} (g : σ → State β σ → σ) (h : Tame E T N m m' w) :
    Tame E T N (onFail g m) (Parser.onFail g m') w :=
  ⟨.onFail g h.delimited, .onFail g h.costs, .onFail g h.agree⟩

theorem ite {p : Prop} [Decidable p] {m₁ m₂ m₁' m₂' : Parser β σ ε α} {w : α → ℕ}
    (h₁ : p → Tame E T N m₁ m₁' w) (h₂ : ¬ p → Tame E T N m₂ m₂' w) :
    Tame E T N (if p then m₁ else m₂) (if p then m₁' else m₂') w := by
  split
  · exact h₁ ‹_›
  · exact h₂ ‹_›

/-- What the first parser uses up is missing from the input of the second. -/
theorem bind {m m' : Parser β σ ε α} {f f' : α → Parser β σ ε γ} {w : α → ℕ} {v : α → γ → ℕ}
    {u : γ → ℕ} (hm : Tame E T N m m' w) (hf : ∀ a, Tame E T (N - w a) (f a) (f' a) (v a))
    (hu : ∀ a b, u b ≤ w a + v a b) : Tame E T N (m >>= f) (m' >>= f') u :=
  ⟨.bind hm.delimited fun a => (hf a).delimited, .bind hm.costs (fun a => (hf a).costs) hu,
    hm.agree.bind hm.delimited hm.costs fun a => (hf a).agree⟩

/-- The first parser pays for both. -/
theorem prepaid {m m' : Parser β σ ε α} {f f' : α → Parser β σ ε γ} {w : α → ℕ} {u : γ → ℕ}
    (hm : Tame E T N m m' w) (hf : ∀ a, Tame E T (N - w a) (f a) (f' a) fun _ => 0)
    (hu : ∀ a b, u b ≤ w a) : Tame E T N (m >>= f) (m' >>= f') u := hm.bind hf hu

/-- The second parser pays for both. -/
theorem seq {m m' : Parser β σ ε α} {f f' : α → Parser β σ ε γ} {w : α → ℕ} {u : γ → ℕ}
    (hm : Tame E T N m m' w) (hf : ∀ a, Tame E T N (f a) (f' a) u) :
    Tame E T N (m >>= f) (m' >>= f') u :=
  hm.free.bind (v := fun _ => u) hf fun _ _ => Nat.le_add_left _ _

theorem map {m m' : Parser β σ ε α} {w : α → ℕ} {u : γ → ℕ} (hm : Tame E T N m m' w) (f : α → γ)
    (hu : ∀ a, u (f a) ≤ w a) :
    Tame E T N (m >>= fun a => Pure.pure (f a)) (m' >>= fun a => Pure.pure (f a)) u := by
  refine ⟨.bind hm.delimited fun a => .pure _, fun s b s' h => ?_,
    hm.agree.bind' hm.delimited fun a => .pure _⟩
  obtain ⟨a, s₁, h₁, h₂⟩ := bind_eq_ok.1 h
  cases h₂
  exact Nat.le_trans (Nat.add_le_add_left (hu a) _) (hm.costs h₁)

/-- A price may be raised where no value has to pay it. -/
theorem reprice {m m' : Parser β σ ε α} {w u : α → ℕ} (hm : Tame E T N m m' w)
    (hu : ∀ s a s', m s = .ok a s' → u a ≤ w a) : Tame E T N m m' u :=
  ⟨hm.delimited, fun s a s' h => Nat.le_trans (Nat.add_le_add_left (hu s a s' h) _) (hm.costs h),
    hm.agree⟩

/-- Note a value in the auxiliary state. -/
theorem record {m m' : Parser β σ ε α} {w : α → ℕ} (hm : Tame E T N m m' w) (g : α → σ → σ) :
    Tame E T N (m >>= fun a => Parser.modifyAux (g a) >>= fun _ => Pure.pure a)
      (m' >>= fun a => Parser.modifyAux (g a) >>= fun _ => Pure.pure a) w := by
  have hnote (a : α) (M : ℕ) : Tame E T M
      (Parser.modifyAux (g a) >>= fun _ => Pure.pure a : Parser β σ ε α)
      (Parser.modifyAux (g a) >>= fun _ => Pure.pure a) fun _ => 0 :=
    (Tame.modifyAux _).seq fun _ => .pure a
  refine ⟨.bind hm.delimited fun a => (hnote a 0).delimited, fun s b s' h => ?_,
    hm.agree.bind' hm.delimited fun a => (hnote a _).agree⟩
  obtain ⟨a, s₁, h₁, h₂⟩ := bind_eq_ok.1 h
  cases h₂
  exact (hm.costs h₁ : s.cursor.offset + w b ≤ s₁.cursor.offset)

theorem times {m m' : Parser β σ ε α} {w : α → ℕ} (hm : Tame E T N m m' w) (n : ℕ) :
    Tame E T N (times m n) (Parser.times m' n) fun as => (as.map w).sum :=
  ⟨.times hm.delimited n, .times hm.costs n, .times hm.agree hm.delimited n⟩

/-- A loop with a potential: a turn from `i` to `j` costs at least `p j - p i`. -/
theorem iter {step step' : ι → Parser β σ ε (ι ⊕ α)} {p : ι → ℕ} {q : α → ℕ}
    (h : ∀ i, Tame E T N (step i) (step' i)
      (Sum.elim (fun j => max 1 (p j - p i)) fun a => q a - p i)) (i : ι) :
    Tame E T N (iter step i) (Parser.iter step' i) fun a => q a - p i := by
  have hd : ∀ i, Delimited E (step i) := fun i => (h i).delimited
  have hp : Progresses step := fun i => (h i).costs.mono fun r => by
    cases r with
    | inl j => exact Nat.le_max_left _ _
    | inr a => exact Nat.zero_le _
  refine ⟨.iter hd hp i, ?_, .iter hd hp (fun i => (h i).agree) i⟩
  refine Costs.fix (F := turn step) (w := fun i a => q a - p i) (fun self hs i => ?_) i
  refine (h i).costs.bind (v := fun r a => r.elim (fun j => q a - p j) fun b => q a - q b)
    (fun r => ?_) fun r a => ?_
  · cases r with
    | inl j => exact hs j
    | inr b =>
      intro s a s' ha
      cases ha
      simp
  · cases r with
    | inl j => simp only [Sum.elim_inl]; omega
    | inr b => simp only [Sum.elim_inr]; omega

/-- A loop without a potential. -/
theorem iter' {step step' : ι → Parser β σ ε (ι ⊕ α)} {k : ℕ}
    (h : ∀ i, Tame E T N (step i) (step' i) (Sum.elim (fun _ => 1) fun _ => k)) (i : ι) :
    Tame E T N (Parser.iter step i) (Parser.iter step' i) fun _ => k :=
  iter (p := fun _ => 0) (q := fun _ => k)
    (fun i => (h i).mono (Nat.le_refl N) fun r => by cases r <;> simp) i

theorem iter_eq {step : ι → Parser β σ ε (ι ⊕ α)} {k : ℕ}
    (h : ∀ i, Tame E T N (step i) (step i) (Sum.elim (fun _ => 1) fun _ => k)) (i : ι) :
    Parser.iter step i = step i >>= Sum.elim (Parser.iter step) Pure.pure :=
  Parser.iter_eq (fun i => (h i).delimited) (fun i => (h i).costs.mono fun r => by
    cases r with
    | inl j => exact Nat.le_refl 1
    | inr a => exact Nat.zero_le k) i

/-! ### Recursion -/

variable {F : (ι → Parser β σ ε α) → ι → Parser β σ ε α} {w : ι → α → ℕ}

/-- Calls to itself that are tame on inputs shorter than `N` make the body tame on inputs one token
longer. -/
def Body (E : ε → Prop) (w : ι → α → ℕ) (F : (ι → Parser β σ ε α) → ι → Parser β σ ε α) : Prop :=
  ∀ T N self self', (∀ i, Tame E T N (self i) (self' i) (w i)) →
    ∀ i, Tame E T (N + 1) (F self i) (F self' i) (w i)

theorem Body.keepsPriced (h : Body E w F) : KeepsPriced E w F := by
  intro self hs i
  have ht := h False 0 self self (fun j => ⟨(hs j).1, (hs j).2, .of_false _⟩) i
  exact ⟨ht.delimited, ht.costs⟩

theorem Body.guarded (h : Body E w F) (T : Prop) (M : ℕ) : Guarded E w T M F F :=
  fun N _ self self' hs ha i => (h T N self self' (fun j => ⟨(hs j).1, (hs j).2, ha j⟩) i).agree

/-- **The recursion equation** of a tame body. -/
theorem Body.fix_eq (h : Body E w F) : fix F = F (fix F) :=
  Parser.fix_eq (fun M => h.guarded False M) h.keepsPriced

/-- **A recursion with a tame body is tame** on inputs of every length, and never exhausted. -/
theorem Body.fix (h : Body E w F) (i : ι) : Tame E True N (fix F i) (Parser.fix F i) (w i) where
  delimited := .fix (fun M => h.guarded False M) h.keepsPriced i
  costs := fun _ _ _ hs => (h.keepsPriced.fixN _ i).2 hs
  agree := (h.guarded True N).fix_agree h.keepsPriced i

end Tame

end Parser

end Parsing
