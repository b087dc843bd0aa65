import Hessian2.Parsing.Laws

/-!
# How a run ends

Partial correctness of a parser, as seen by its auxiliary state.

* `Ends R B m` : a value of `m` is related to the auxiliary states before and after it by `R`, and
  a fault to the auxiliary state after it by `B`.
* `Silent m` : `m` leaves the auxiliary state as it is.
* `Returns Q m` : the values of `m` satisfy `Q`, whatever the auxiliary states.
* `Ends.fix`, `Ends.iter` : recursions and loops.
-/

namespace Parsing

namespace Parser

variable {β σ ε ι α γ : Type}

/-- Values satisfy `R` and faults satisfy `B`. -/
structure Ends (R : σ → α → σ → Prop) (B : ε → σ → Prop) (m : Parser β σ ε α) : Prop where
  ok : ∀ {s a s'}, m s = .ok a s' → R s.aux a s'.aux
  fault : ∀ {s e s'}, m s = .fault e s' → B e s'.aux

/-- The parser changes nothing besides its position, and does not stop. -/
def Silent (m : Parser β σ ε α) : Prop := Ends (fun t _ t' => t' = t) (fun _ _ => False) m

namespace Ends

variable {R S : σ → α → σ → Prop} {B : ε → σ → Prop}

theorem mono {B' : ε → σ → Prop} {m : Parser β σ ε α} (h : Ends R B m)
    (hR : ∀ {t a t'}, R t a t' → S t a t') (hB : ∀ {e t}, B e t → B' e t) : Ends S B' m :=
  ⟨fun hm => hR (h.ok hm), fun hm => hB (h.fault hm)⟩

theorem pure {a : α} (h : ∀ t, R t a t) : Ends R B (pure a : Parser β σ ε α) where
  ok := by
    rintro s b s' ⟨⟩
    exact h _
  fault := by
    rintro s e s' ⟨⟩

theorem failure : Ends R B (Parser.fail : Parser β σ ε α) where
  ok := by rintro s b s' ⟨⟩
  fault := by rintro s e s' ⟨⟩

theorem stop {e : ε} (h : ∀ t, B e t) : Ends R B (Parser.fault e : Parser β σ ε α) where
  ok := by rintro s b s' ⟨⟩
  fault := by
    rintro s e' s' ⟨⟩
    exact h _

theorem aux : Ends (fun t a t' => a = t ∧ t' = t) B (aux : Parser β σ ε σ) where
  ok := by
    rintro s b s' ⟨⟩
    exact ⟨rfl, rfl⟩
  fault := by rintro s e s' ⟨⟩

theorem modifyAux {f : σ → σ} :
    Ends (fun t _ t' => t' = f t) B (modifyAux f : Parser β σ ε Unit) where
  ok := by
    rintro s b s' ⟨⟩
    rfl
  fault := by rintro s e s' ⟨⟩

theorem bind {U : σ → γ → σ → Prop} {V : α → σ → γ → σ → Prop} {m : Parser β σ ε α}
    {f : α → Parser β σ ε γ} (hm : Ends R B m) (hf : ∀ a, Ends (V a) B (f a))
    (h : ∀ {t a t' b t''}, R t a t' → V a t' b t'' → U t b t'') : Ends U B (m >>= f) where
  ok hr := by
    obtain ⟨a, s', h₁, h₂⟩ := bind_eq_ok.1 hr
    exact h (hm.ok h₁) ((hf a).ok h₂)
  fault {s e s'} hr := by
    rw [bind_apply] at hr
    cases hs : m s with
    | ok a s₁ =>
      rw [hs] at hr
      exact (hf a).fault hr
    | fail s₁ =>
      rw [hs] at hr
      cases hr
    | fault e₁ s₁ =>
      rw [hs] at hr
      cases hr
      exact hm.fault hs
    | exhausted =>
      rw [hs] at hr
      cases hr

theorem ite {p : Prop} [Decidable p] {m m' : Parser β σ ε α} (h : p → Ends R B m)
    (h' : ¬p → Ends R B m') : Ends R B (if p then m else m') := by
  split
  · exact h ‹_›
  · exact h' ‹_›

theorem ahead {k : β → Parser β σ ε α} (hk : ∀ b, Ends R B (k b)) : Ends R B (ahead k) where
  ok {s a s'} hr := by
    rcases hu : s.cursor.unread with _ | ⟨b, bs⟩
    · rw [ahead_of_nil hu] at hr
      cases hr
    · rw [ahead_of_cons hu] at hr
      exact (hk b).ok hr
  fault {s e s'} hr := by
    rcases hu : s.cursor.unread with _ | ⟨b, bs⟩
    · rw [ahead_of_nil hu] at hr
      cases hr
    · rw [ahead_of_cons hu] at hr
      exact (hk b).fault hr

theorem onFail {g : σ → State β σ → σ} {m : Parser β σ ε α} (h : Ends R B m) :
    Ends R B (onFail g m) where
  ok hr := h.ok ((onFail_eq_iff (by rintro s ⟨⟩)).1 hr)
  fault hr := h.fault ((onFail_eq_iff (by rintro s ⟨⟩)).1 hr)

/-- A counted loop, from what it does before its first turn and after a turn. -/
theorem times {Q : σ → List α → σ → Prop} {m : Parser β σ ε α} (h : Ends R B m)
    (hnil : ∀ t, Q t [] t) (hcons : ∀ {t a t' as t''}, R t a t' → Q t' as t'' → Q t (a :: as) t'') :
    ∀ n, Ends Q B (times m n)
  | 0 => .pure hnil
  | n + 1 => h.bind (fun a => (times h hnil hcons n).bind (V := fun as t b t' => t' = t ∧ b = a :: as)
      (U := fun t b t' => ∃ as, b = a :: as ∧ Q t as t') (fun as => .pure fun t => ⟨rfl, rfl⟩)
      fun hq hv => ⟨_, hv.2, hv.1 ▸ hq⟩) fun hr hq => by
        obtain ⟨as, rfl, hq⟩ := hq
        exact hcons hr hq

/-- A recursion ends as its body does when its calls to itself do. -/
theorem fix {R : ι → σ → α → σ → Prop} {F : (ι → Parser β σ ε α) → ι → Parser β σ ε α}
    (h : ∀ self : ι → Parser β σ ε α, (∀ i, Ends (R i) B (self i)) → ∀ i, Ends (R i) B (F self i))
    (i : ι) : Ends (R i) B (fix F i) := by
  have key (s : State β σ) : (∀ a s', Parser.fix F i s = .ok a s' → R i s.aux a s'.aux) ∧
      ∀ e s', Parser.fix F i s = .fault e s' → B e s'.aux := by
    refine fix_induct (F := F) (Q := fun i s o => (∀ a s', o = .ok a s' → R i s.aux a s'.aux) ∧
      ∀ e s', o = .fault e s' → B e s'.aux) (fun i s => ?_) (fun self hs i s => ?_) i s
    · exact ⟨by rintro a s' ⟨⟩, by rintro e s' ⟨⟩⟩
    · have hb := h self (fun i => ⟨fun h => (hs i _).1 _ _ h, fun h => (hs i _).2 _ _ h⟩) i
      exact ⟨fun _ _ h => hb.ok h, fun _ _ h => hb.fault h⟩
  exact ⟨fun h => (key _).1 _ _ h, fun h => (key _).2 _ _ h⟩

/-- A loop: what a turn that ends it satisfies, and a turn that does not carries back. -/
theorem iter {Q : ι → σ → α → σ → Prop} {V : ι → σ → ι ⊕ α → σ → Prop}
    {step : ι → Parser β σ ε (ι ⊕ α)} (h : ∀ i, Ends (V i) B (step i))
    (hl : ∀ {i t j t' a t''}, V i t (.inl j) t' → Q j t' a t'' → Q i t a t'')
    (hr : ∀ {i t a t'}, V i t (.inr a) t' → Q i t a t') (i : ι) :
    Ends (Q i) B (Parser.iter step i) := by
  refine Ends.fix (F := turn step) (R := Q) (fun self hs i => ?_) i
  refine (h i).bind (V := fun r t b t' => r.elim (fun j => Q j t b t') fun a => t' = t ∧ b = a)
    (fun r => ?_) fun {t r t' b t''} hv hb => ?_
  · cases r with
    | inl j => exact hs j
    | inr a => exact .pure fun t => ⟨rfl, rfl⟩
  · cases r with
    | inl j => exact hl hv hb
    | inr a =>
      obtain ⟨rfl, rfl⟩ := hb
      exact hr hv

end Ends

namespace Silent

theorem ends {R : σ → α → σ → Prop} {B : ε → σ → Prop} {m : Parser β σ ε α} (h : Silent m)
    (hR : ∀ t a, R t a t) : Ends R B m :=
  h.mono (fun ht => ht ▸ hR _ _) False.elim

theorem pure (a : α) : Silent (pure a : Parser β σ ε α) := Ends.pure fun _ => rfl

theorem failure : Silent (Parser.fail : Parser β σ ε α) := Ends.failure

theorem take (n : ℕ) : Silent (take n : Parser β σ ε (List β)) where
  ok {s a s'} h := by
    rcases Nat.lt_or_ge s.cursor.unread.length n with hn | hn
    · rw [take_of_lt hn] at h
      cases h
    · rw [take_of_le hn] at h
      cases h
      rfl
  fault {s e s'} h := by
    rcases Nat.lt_or_ge s.cursor.unread.length n with hn | hn
    · rw [take_of_lt hn] at h
      cases h
    · rw [take_of_le hn] at h
      cases h

theorem next : Silent (next : Parser β σ ε β) where
  ok {s a s'} h := by
    rcases hu : s.cursor.unread with _ | ⟨b, bs⟩
    · rw [next_of_nil hu] at h
      cases h
    · rw [next_of_cons hu] at h
      cases h
      rfl
  fault {s e s'} h := by
    rcases hu : s.cursor.unread with _ | ⟨b, bs⟩
    · rw [next_of_nil hu] at h
      cases h
    · rw [next_of_cons hu] at h
      cases h

theorem bind {m : Parser β σ ε α} {f : α → Parser β σ ε γ} (hm : Silent m)
    (hf : ∀ a, Silent (f a)) : Silent (m >>= f) :=
  Ends.bind hm hf fun h h' => h'.trans h

theorem ite {p : Prop} [Decidable p] {m m' : Parser β σ ε α} (h : p → Silent m)
    (h' : ¬p → Silent m') : Silent (if p then m else m') := Ends.ite h h'

theorem ahead {k : β → Parser β σ ε α} (hk : ∀ b, Silent (k b)) : Silent (ahead k) := Ends.ahead hk

theorem onFail {g : σ → State β σ → σ} {m : Parser β σ ε α} (h : Silent m) : Silent (onFail g m) :=
  Ends.onFail h

/-- A value made of what a silent parser read. -/
theorem map {B : ε → σ → Prop} {m : Parser β σ ε α} (h : Silent m) (f : α → γ) :
    Ends (fun t b t' => t' = t ∧ ∃ a, b = f a) B (m >>= fun a => Pure.pure (f a)) :=
  Ends.bind (h.ends (R := fun t _ t' => t' = t) fun _ _ => rfl)
    (V := fun a t b t' => t' = t ∧ b = f a) (fun _ => .pure fun _ => ⟨rfl, rfl⟩)
    fun h h' => ⟨h'.1.trans h, _, h'.2⟩

theorem iter {step : ι → Parser β σ ε (ι ⊕ α)} (h : ∀ i, Silent (step i)) (i : ι) :
    Silent (Parser.iter step i) :=
  Ends.iter h (fun h h' => h'.trans h) id i

theorem times {m : Parser β σ ε α} (h : Silent m) (n : ℕ) : Silent (Parser.times m n) :=
  Ends.times h (fun _ => rfl) (fun h h' => h'.trans h) n

end Silent

/-- Values satisfy `Q`. -/
def Returns (Q : α → Prop) (m : Parser β σ ε α) : Prop :=
  Ends (fun _ a _ => Q a) (fun _ _ => True) m

namespace Returns

variable {Q : α → Prop} {R : γ → Prop}

theorem any (m : Parser β σ ε α) : Returns (fun _ => True) m := ⟨fun _ => trivial, fun _ => trivial⟩

theorem mono {Q' : α → Prop} {m : Parser β σ ε α} (h : Returns Q m) (hQ : ∀ a, Q a → Q' a) :
    Returns Q' m := Ends.mono h (fun {_ a _} ha => hQ a ha) id

theorem pure {a : α} (h : Q a) : Returns Q (pure a : Parser β σ ε α) := Ends.pure fun _ => h

theorem failure : Returns Q (Parser.fail : Parser β σ ε α) := Ends.failure

theorem bind {m : Parser β σ ε α} {f : α → Parser β σ ε γ} (hm : Returns Q m)
    (hf : ∀ a, Q a → Returns R (f a)) : Returns R (m >>= f) :=
  Ends.bind hm (V := fun a _ b _ => Q a → R b)
    (fun a => ⟨fun h ha => (hf a ha).ok h, fun _ => trivial⟩) fun ha hb => hb ha

/-- The last value counts. -/
theorem after {m : Parser β σ ε α} {f : α → Parser β σ ε γ} (hf : ∀ a, Returns R (f a)) :
    Returns R (m >>= f) := (any m).bind fun a _ => hf a

theorem ite {p : Prop} [Decidable p] {m m' : Parser β σ ε α} (h : p → Returns Q m)
    (h' : ¬p → Returns Q m') : Returns Q (if p then m else m') := Ends.ite h h'

theorem ahead {k : β → Parser β σ ε α} (hk : ∀ b, Returns Q (k b)) : Returns Q (ahead k) :=
  Ends.ahead hk

theorem onFail {g : σ → State β σ → σ} {m : Parser β σ ε α} (h : Returns Q m) :
    Returns Q (onFail g m) := Ends.onFail h

theorem times {m : Parser β σ ε α} (h : Returns Q m) (n : ℕ) :
    Returns (fun as => as.length = n ∧ ∀ a ∈ as, Q a) (Parser.times m n) := by
  induction n with
  | zero => exact pure ⟨rfl, fun a ha => absurd ha List.not_mem_nil⟩
  | succ n ih =>
    refine h.bind fun a ha => ih.bind fun as has => pure ⟨?_, List.forall_mem_cons.2 ⟨ha, has.2⟩⟩
    rw [List.length_cons, has.1]

theorem fix {Q : ι → α → Prop} {F : (ι → Parser β σ ε α) → ι → Parser β σ ε α}
    (h : ∀ self : ι → Parser β σ ε α, (∀ i, Returns (Q i) (self i)) → ∀ i, Returns (Q i) (F self i))
    (i : ι) : Returns (Q i) (Parser.fix F i) := Ends.fix (R := fun i _ a _ => Q i a) h i

/-- A loop whose turns keep an invariant `I` of the loop state. -/
theorem iter {I : ι → Prop} {step : ι → Parser β σ ε (ι ⊕ α)}
    (h : ∀ i, I i → Returns (fun r => Sum.elim I Q r) (step i)) {i : ι} (hi : I i) :
    Returns Q (Parser.iter step i) := by
  have hloop : Returns (fun a => I i → Q a) (Parser.iter step i) := by
    refine Ends.iter (Q := fun i _ a _ => I i → Q a)
      (V := fun i _ r _ => I i → Sum.elim I Q r) (fun i => ⟨fun hr hi => (h i hi).ok hr, fun _ => trivial⟩)
      (fun hl hq hi => hq (hl hi)) (fun hr hi => hr hi) i
  exact ⟨fun hr => hloop.ok hr hi, fun _ => trivial⟩

end Returns

end Parser

end Parsing
