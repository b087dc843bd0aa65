import Hessian2.Parsing.Basic
import Mathlib.Tactic.Common

/-!
# Laws of parsers

The judgements about parsers that a verification of a format needs, each with the rules that
build it up along the structure of a parser:

* `Parser.Reads m t bs a t'` : from auxiliary state `t`, `m` reads exactly the tokens `bs`,
  whatever follows them, with value `a` and auxiliary state `t'`; `Parser.ReadsUpTo E` excuses
  the faults in `E`.
* `Parser.Delimited E m` : every run of `m` that ends in a value is such a reading, so its
  result never depends on what follows; faults are persistent and all in `E`; the cursor only
  moves forward.
* `Parser.Costs m w` : a value `a` uses up at least `w a` tokens.
* `Parser.Agree T N m m'` : `m` and `m'` do the same on fewer than `N` unread tokens, and, if
  `T`, are not exhausted there.

A recursion is `Parser.Guarded` when it calls itself only on shorter inputs.  Then the bound in
`Parser.fix` is never met: `Parser.fix_eq` is the recursion equation, and the judgements above
hold of `Parser.fix F` once `F` preserves them.
-/

namespace Parsing

namespace Parser

variable {β σ ε ι α γ : Type}

/-! ### Exact readings -/

/-- From `t`, `m` reads exactly `bs`, whatever follows. -/
def Reads (m : Parser β σ ε α) (t : σ) (bs : List β) (a : α) (t' : σ) : Prop :=
  ∀ (c : Cursor β) (rest : List β) (h : c.unread = bs ++ rest),
    m ⟨c, t⟩ = .ok a ⟨c.advance bs.length (by simp [h]), t'⟩

/-- From `t`, `m` reads exactly `bs`, unless it stops with a fault in `E`. -/
def ReadsUpTo (E : ε → Prop) (m : Parser β σ ε α) (t : σ) (bs : List β) (a : α) (t' : σ) :
    Prop :=
  ∀ (c : Cursor β) (rest : List β) (h : c.unread = bs ++ rest),
    m ⟨c, t⟩ = .ok a ⟨c.advance bs.length (by simp [h]), t'⟩ ∨
      ∃ e s', E e ∧ m ⟨c, t⟩ = .fault e s'

/-- From `t`, `m` stops with `e` on every input that starts with `bs`. -/
def Raises (m : Parser β σ ε α) (t : σ) (bs : List β) (e : ε) : Prop :=
  ∀ (c : Cursor β) (rest : List β), c.unread = bs ++ rest → ∃ s', m ⟨c, t⟩ = .fault e s'

/-- From `t`, `m` is exhausted on every input that starts with `bs`. -/
def Exhausts (m : Parser β σ ε α) (t : σ) (bs : List β) : Prop :=
  ∀ (c : Cursor β) (rest : List β), c.unread = bs ++ rest → m ⟨c, t⟩ = .exhausted

theorem unread_advance_append {c : Cursor β} {bs rest : List β} (h : c.unread = bs ++ rest) :
    (c.advance bs.length (Cursor.length_le_unread h)).unread = rest := by
  simp [h]

theorem Reads.upTo {E : ε → Prop} {m : Parser β σ ε α} {t t' : σ} {bs : List β} {a : α}
    (h : Reads m t bs a t') : ReadsUpTo E m t bs a t' := fun c rest hc => .inl (h c rest hc)

theorem ReadsUpTo.reads {E : ε → Prop} {m : Parser β σ ε α} {t t' : σ} {bs : List β} {a : α}
    (h : ReadsUpTo E m t bs a t') (hE : ∀ e, ¬ E e) : Reads m t bs a t' := fun c rest hc =>
  (h c rest hc).resolve_right fun ⟨e, _, he, _⟩ => hE e he

theorem ReadsUpTo.bind {E : ε → Prop} {m : Parser β σ ε α} {f : α → Parser β σ ε γ}
    {t t' t'' : σ} {bs bs' : List β} {a : α} {b : γ} (h : ReadsUpTo E m t bs a t')
    (h' : ReadsUpTo E (f a) t' bs' b t'') : ReadsUpTo E (m >>= f) t (bs ++ bs') b t'' := by
  intro c rest hc
  have hc₁ : c.unread = bs ++ (bs' ++ rest) := by simpa using hc
  rw [bind_apply]
  rcases h c _ hc₁ with hm | ⟨e, s', he, hm⟩
  · rw [hm, Outcome.ok_andThen]
    rcases h' _ rest (unread_advance_append hc₁) with hf | ⟨e, s', he, hf⟩
    · left
      rw [hf]
      simp only [Cursor.advance_advance, List.length_append]
    · exact .inr ⟨e, s', he, hf⟩
  · rw [hm]
    exact .inr ⟨e, s', he, rfl⟩

theorem Reads.bind {m : Parser β σ ε α} {f : α → Parser β σ ε γ} {t t' t'' : σ}
    {bs bs' : List β} {a : α} {b : γ} (h : Reads m t bs a t') (h' : Reads (f a) t' bs' b t'') :
    Reads (m >>= f) t (bs ++ bs') b t'' :=
  (ReadsUpTo.bind (E := fun _ => False) h.upTo h'.upTo).reads fun _ => not_false

/-- The second parser reads nothing more. -/
theorem ReadsUpTo.bind_nil {E : ε → Prop} {m : Parser β σ ε α} {f : α → Parser β σ ε γ}
    {t t' t'' : σ} {bs : List β} {a : α} {b : γ} (h : ReadsUpTo E m t bs a t')
    (h' : ReadsUpTo E (f a) t' [] b t'') : ReadsUpTo E (m >>= f) t bs b t'' := by
  have hread := h.bind h'
  rwa [List.append_nil] at hread

theorem Reads.bind_nil {m : Parser β σ ε α} {f : α → Parser β σ ε γ} {t t' t'' : σ}
    {bs : List β} {a : α} {b : γ} (h : Reads m t bs a t') (h' : Reads (f a) t' [] b t'') :
    Reads (m >>= f) t bs b t'' := by
  have hread := h.bind h'
  rwa [List.append_nil] at hread

theorem reads_pure (a : α) (t : σ) : Reads (pure a : Parser β σ ε α) t [] a t :=
  fun _ _ _ => rfl

theorem reads_aux (t : σ) : Reads (aux : Parser β σ ε σ) t [] t t := fun _ _ _ => rfl

theorem reads_modifyAux (f : σ → σ) (t : σ) :
    Reads (modifyAux f : Parser β σ ε Unit) t [] () (f t) := fun _ _ _ => rfl

theorem reads_take (bs : List β) (t : σ) :
    Reads (take bs.length : Parser β σ ε (List β)) t bs bs t := by
  intro c rest hc
  rw [take_of_le (by simp [hc])]
  simp [hc]

theorem reads_next (b : β) (t : σ) : Reads (next : Parser β σ ε β) t [b] b t :=
  fun _ _ hc => next_of_cons hc

theorem ReadsUpTo.ahead {E : ε → Prop} {k : β → Parser β σ ε α} {t t' : σ} {b : β} {bs : List β}
    {a : α} (h : ReadsUpTo E (k b) t (b :: bs) a t') :
    ReadsUpTo E (Parser.ahead k) t (b :: bs) a t' := by
  intro c rest hc
  rw [ahead_of_cons hc]
  exact h c rest hc

theorem Reads.ahead {k : β → Parser β σ ε α} {t t' : σ} {b : β} {bs : List β} {a : α}
    (h : Reads (k b) t (b :: bs) a t') : Reads (Parser.ahead k) t (b :: bs) a t' :=
  (ReadsUpTo.ahead (E := fun _ => False) h.upTo).reads fun _ => not_false

theorem ReadsUpTo.onFail {E : ε → Prop} {g : σ → State β σ → σ} {m : Parser β σ ε α} {t t' : σ}
    {bs : List β} {a : α} (h : ReadsUpTo E m t bs a t') :
    ReadsUpTo E (Parser.onFail g m) t bs a t' := by
  intro c rest hc
  rcases h c rest hc with hm | ⟨e, s', he, hm⟩
  · exact .inl ((onFail_eq_iff (by simp)).2 hm)
  · exact .inr ⟨e, s', he, (onFail_eq_iff (by simp)).2 hm⟩

/-- A parser that agrees with `m'` on every input starting with `bs` reads what `m'` reads. -/
theorem ReadsUpTo.congr {E : ε → Prop} {m m' : Parser β σ ε α} {t t' : σ} {bs : List β} {a : α}
    (h : ReadsUpTo E m' t bs a t')
    (hm : ∀ (c : Cursor β) (rest : List β), c.unread = bs ++ rest → m ⟨c, t⟩ = m' ⟨c, t⟩) :
    ReadsUpTo E m t bs a t' := by
  intro c rest hc
  rw [hm c rest hc]
  exact h c rest hc

theorem Reads.congr {m m' : Parser β σ ε α} {t t' : σ} {bs : List β} {a : α}
    (h : Reads m' t bs a t')
    (hm : ∀ (c : Cursor β) (rest : List β), c.unread = bs ++ rest → m ⟨c, t⟩ = m' ⟨c, t⟩) :
    Reads m t bs a t' :=
  (ReadsUpTo.congr (E := fun _ => False) h.upTo hm).reads fun _ => not_false

theorem Raises.bind_left {m : Parser β σ ε α} {t : σ} {bs : List β} {e : ε}
    (h : Raises m t bs e) (f : α → Parser β σ ε γ) : Raises (m >>= f) t bs e := by
  intro c rest hc
  obtain ⟨s', hs⟩ := h c rest hc
  exact ⟨s', by rw [bind_apply, hs]; rfl⟩

theorem Raises.bind_right {m : Parser β σ ε α} {f : α → Parser β σ ε γ} {t t' : σ}
    {bs bs' : List β} {a : α} {e : ε} (h : Reads m t bs a t') (h' : Raises (f a) t' bs' e) :
    Raises (m >>= f) t (bs ++ bs') e := by
  intro c rest hc
  have hc₁ : c.unread = bs ++ (bs' ++ rest) := by simpa using hc
  obtain ⟨s', hs⟩ := h' _ rest (unread_advance_append hc₁)
  exact ⟨s', by rw [bind_apply, h c _ hc₁]; exact hs⟩

theorem Exhausts.bind_right {m : Parser β σ ε α} {f : α → Parser β σ ε γ} {t t' : σ}
    {bs bs' : List β} {a : α} (h : Reads m t bs a t') (h' : Exhausts (f a) t' bs') :
    Exhausts (m >>= f) t (bs ++ bs') := by
  intro c rest hc
  have hc₁ : c.unread = bs ++ (bs' ++ rest) := by simpa using hc
  rw [bind_apply, h c _ hc₁]
  exact h' _ rest (unread_advance_append hc₁)

/-! ### Delimited parsers -/

/-- Values do not depend on what follows them, faults are in `E` and persist when the input
grows, and the cursor only moves forward. -/
structure Delimited (E : ε → Prop) (m : Parser β σ ε α) : Prop where
  ok : ∀ {c : Cursor β} {t : σ} {a : α} {s' : State β σ}, m ⟨c, t⟩ = .ok a s' →
    ∃ bs rest, c.unread = bs ++ rest ∧ Reads m t bs a s'.aux
  fail : ∀ {c : Cursor β} {t : σ} {s' : State β σ}, m ⟨c, t⟩ = .fail s' → c.Before s'.cursor
  fault : ∀ {c : Cursor β} {t : σ} {e : ε} {s' : State β σ}, m ⟨c, t⟩ = .fault e s' →
    E e ∧ c.Before s'.cursor ∧ Raises m t c.unread e
  exhausted : ∀ {c : Cursor β} {t : σ}, m ⟨c, t⟩ = .exhausted → Exhausts m t c.unread

namespace Delimited

variable {E : ε → Prop}

/-- The state after a value is the old one moved over the tokens read. -/
theorem ok_state {m : Parser β σ ε α} (h : Delimited E m) {c : Cursor β} {t : σ} {a : α}
    {s' : State β σ} (hm : m ⟨c, t⟩ = .ok a s') :
    ∃ (bs rest : List β) (hc : c.unread = bs ++ rest), Reads m t bs a s'.aux ∧
      s' = ⟨c.advance bs.length (Cursor.length_le_unread hc), s'.aux⟩ := by
  obtain ⟨bs, rest, hc, hr⟩ := h.ok hm
  refine ⟨bs, rest, hc, hr, ?_⟩
  have := hr c rest hc
  rw [hm] at this
  injection this

theorem before {m : Parser β σ ε α} (h : Delimited E m) {s s' : State β σ} {a : α}
    (hm : m s = .ok a s') : s.cursor.Before s'.cursor := by
  obtain ⟨bs, rest, hc, -, hs⟩ := h.ok_state (c := s.cursor) (t := s.aux) hm
  rw [hs]
  exact Cursor.before_advance _ _ (by simp [hc])

theorem pure (a : α) : Delimited E (pure a : Parser β σ ε α) where
  ok := by
    intro c t b s' h
    cases h
    exact ⟨[], c.unread, rfl, reads_pure _ _⟩
  fail := by intro c t s' h; cases h
  fault := by intro c t e s' h; cases h
  exhausted := by intro c t h; cases h

theorem failure : Delimited E (Parser.fail : Parser β σ ε α) where
  ok := by intro c t b s' h; cases h
  fail := by intro c t s' h; cases h; exact .refl _
  fault := by intro c t e s' h; cases h
  exhausted := by intro c t h; cases h

theorem stop {e : ε} (he : E e) : Delimited E (Parser.fault e : Parser β σ ε α) where
  ok := by intro c t b s' h; cases h
  fail := by intro c t s' h; cases h
  fault := by intro c t e s' h; cases h; exact ⟨he, .refl _, fun c _ _ => ⟨⟨c, t⟩, rfl⟩⟩
  exhausted := by intro c t h; cases h

/-- A parser that leaves the input alone and always ends in a value. -/
theorem of_aux {m : Parser β σ ε α} (g : σ → α × σ)
    (h : ∀ c t, m ⟨c, t⟩ = .ok (g t).1 ⟨c, (g t).2⟩) : Delimited E m where
  ok := by
    intro c t b s' hm
    rw [h] at hm
    cases hm
    exact ⟨[], c.unread, rfl, fun c _ _ => h c t⟩
  fail := by intro c t s' hm; rw [h] at hm; cases hm
  fault := by intro c t e s' hm; rw [h] at hm; cases hm
  exhausted := by intro c t hm; rw [h] at hm; cases hm

theorem aux : Delimited E (Parser.aux : Parser β σ ε σ) := of_aux (fun t => (t, t)) fun _ _ => rfl

theorem modifyAux (f : σ → σ) : Delimited E (Parser.modifyAux f : Parser β σ ε Unit) :=
  of_aux (fun t => ((), f t)) fun _ _ => rfl

theorem bind {m : Parser β σ ε α} {f : α → Parser β σ ε γ} (hm : Delimited E m)
    (hf : ∀ a, Delimited E (f a)) : Delimited E (m >>= f) where
  ok := by
    intro c t b s'' h
    obtain ⟨a, s', h₁, h₂⟩ := bind_eq_ok.1 h
    obtain ⟨bs, rest, hc, hr, hs⟩ := hm.ok_state h₁
    rw [hs] at h₂
    obtain ⟨bs', rest', hc', hr'⟩ := (hf a).ok h₂
    rw [unread_advance_append hc] at hc'
    exact ⟨bs ++ bs', rest', by rw [hc, hc', List.append_assoc], hr.bind hr'⟩
  fail := by
    intro c t s'' h
    rw [bind_apply] at h
    cases h₁ : m ⟨c, t⟩ with
    | ok a s' =>
      rw [h₁] at h
      exact (hm.before h₁).trans ((hf a).fail (c := s'.cursor) (t := s'.aux) h)
    | fail s' => rw [h₁] at h; cases h; exact hm.fail h₁
    | fault e s' => rw [h₁] at h; cases h
    | exhausted => rw [h₁] at h; cases h
  fault := by
    intro c t e s'' h
    rw [bind_apply] at h
    cases h₁ : m ⟨c, t⟩ with
    | ok a s' =>
      rw [h₁, Outcome.ok_andThen] at h
      obtain ⟨bs, rest, hc, hr, hs⟩ := hm.ok_state h₁
      obtain ⟨he, hb, hr'⟩ := (hf a).fault (c := s'.cursor) (t := s'.aux) h
      refine ⟨he, (hm.before h₁).trans hb, ?_⟩
      have hrest : s'.cursor.unread = rest := by rw [hs]; exact unread_advance_append hc
      rw [hrest] at hr'
      rw [hc]
      exact hr'.bind_right hr
    | fail s' => rw [h₁] at h; cases h
    | fault e' s' =>
      rw [h₁] at h
      cases h
      obtain ⟨he, hb, hr⟩ := hm.fault h₁
      exact ⟨he, hb, hr.bind_left f⟩
    | exhausted => rw [h₁] at h; cases h
  exhausted := by
    intro c t h
    rcases bind_eq_exhausted.1 h with h₁ | ⟨a, s', h₁, h₂⟩
    · intro c' rest hc'
      rw [bind_apply, hm.exhausted h₁ c' rest hc']
      rfl
    · obtain ⟨bs, rest, hc, hr, hs⟩ := hm.ok_state h₁
      have hrest : s'.cursor.unread = rest := by rw [hs]; exact unread_advance_append hc
      have hx := (hf a).exhausted (c := s'.cursor) (t := s'.aux) h₂
      rw [hrest] at hx
      rw [hc]
      exact Exhausts.bind_right hr hx

theorem ite {p : Prop} [Decidable p] {m m' : Parser β σ ε α} (h : p → Delimited E m)
    (h' : ¬ p → Delimited E m') : Delimited E (if p then m else m') := by
  split
  · exact h ‹_›
  · exact h' ‹_›

theorem mono {E' : ε → Prop} {m : Parser β σ ε α} (h : Delimited E m) (hE : ∀ e, E e → E' e) :
    Delimited E' m where
  ok := h.ok
  fail := h.fail
  fault := fun hm => ⟨hE _ (h.fault hm).1, (h.fault hm).2⟩
  exhausted := h.exhausted

theorem take (n : ℕ) : Delimited E (Parser.take n : Parser β σ ε (List β)) where
  ok := by
    intro c t b s' h
    by_cases hn : n ≤ c.unread.length
    · rw [take_of_le hn] at h
      cases h
      refine ⟨c.unread.take n, c.unread.drop n, (List.take_append_drop _ _).symm, ?_⟩
      have := reads_take (ε := ε) (c.unread.take n) t
      rwa [List.length_take, Nat.min_eq_left hn] at this
    · rw [take_of_lt (by simpa using hn)] at h
      cases h
  fail := by
    intro c t s' h
    by_cases hn : n ≤ c.unread.length
    · rw [take_of_le hn] at h; cases h
    · rw [take_of_lt (by simpa using hn)] at h; cases h; exact .refl _
  fault := by
    intro c t e s' h
    by_cases hn : n ≤ c.unread.length
    · rw [take_of_le hn] at h; cases h
    · rw [take_of_lt (by simpa using hn)] at h; cases h
  exhausted := by
    intro c t h
    by_cases hn : n ≤ c.unread.length
    · rw [take_of_le hn] at h; cases h
    · rw [take_of_lt (by simpa using hn)] at h; cases h

theorem next : Delimited E (Parser.next : Parser β σ ε β) := by
  have nil : ∀ {c : Cursor β} (t : σ), c.unread = [] →
      (Parser.next : Parser β σ ε β) ⟨c, t⟩ = .fail ⟨c, t⟩ := fun _ h => next_of_nil h
  refine ⟨?_, ?_, ?_, ?_⟩ <;> intro c t <;> rcases hc : c.unread with _ | ⟨b, bs⟩
  · rw [nil t hc]; rintro _ _ ⟨⟩
  · rw [next_of_cons hc]; rintro _ _ ⟨⟩; exact ⟨[b], bs, rfl, reads_next b t⟩
  · rw [nil t hc]; rintro _ ⟨⟩; exact .refl c
  · rw [next_of_cons hc]; rintro _ ⟨⟩
  · rw [nil t hc]; rintro _ _ ⟨⟩
  · rw [next_of_cons hc]; rintro _ _ ⟨⟩
  · rw [nil t hc]; rintro ⟨⟩
  · rw [next_of_cons hc]; rintro ⟨⟩

theorem onFail {m : Parser β σ ε α} (g : σ → State β σ → σ) (h : Delimited E m) :
    Delimited E (Parser.onFail g m) := by
  refine ⟨?_, ?_, ?_, ?_⟩
  · intro c t a s' hm
    obtain ⟨bs, rest, hc, hr⟩ := h.ok ((onFail_eq_iff (by simp)).1 hm)
    exact ⟨bs, rest, hc, fun c' rest' hc' => (onFail_eq_iff (by simp)).2 (hr c' rest' hc')⟩
  · intro c t s' hm
    rcases hm₁ : m ⟨c, t⟩ with ⟨a, s₁⟩ | s₁ | ⟨e, s₁⟩ | _
    · rw [(onFail_eq_iff (by simp)).2 hm₁] at hm; cases hm
    · rw [onFail_of_fail hm₁] at hm; cases hm; exact (h.fail hm₁ : c.Before s₁.cursor)
    · rw [(onFail_eq_iff (by simp)).2 hm₁] at hm; cases hm
    · rw [(onFail_eq_iff (by simp)).2 hm₁] at hm; cases hm
  · intro c t e s' hm
    obtain ⟨he, hb, hr⟩ := h.fault ((onFail_eq_iff (by simp)).1 hm)
    refine ⟨he, hb, fun c' rest' hc' => ?_⟩
    obtain ⟨s₁, hs⟩ := hr c' rest' hc'
    exact ⟨s₁, (onFail_eq_iff (by simp)).2 hs⟩
  · intro c t hm c' rest' hc'
    exact (onFail_eq_iff (by simp)).2
      (h.exhausted ((onFail_eq_iff (by simp)).1 hm) c' rest' hc')

/-- `m` is delimited when it refuses inputs of fewer than `n` tokens, goes on with a parser
chosen by the first `n` tokens of the others, and that parser uses up those tokens. -/
theorem lookahead {m : Parser β σ ε α} {k : List β → Parser β σ ε α} {n : ℕ}
    (hk : ∀ bs, Delimited E (k bs))
    (hshort : ∀ c t, c.unread.length < n → ∃ s', m ⟨c, t⟩ = .fail s' ∧ c.Before s'.cursor)
    (hlong : ∀ c t, n ≤ c.unread.length → m ⟨c, t⟩ = k (c.unread.take n) ⟨c, t⟩)
    (hn : ∀ {bs c t a s'}, k bs ⟨c, t⟩ = .ok a s' → c.offset + n ≤ s'.cursor.offset) :
    Delimited E m := by
  have key : ∀ {c : Cursor β} {t : σ} {o : Outcome β σ ε α}, m ⟨c, t⟩ = o →
      (∀ s', o ≠ .fail s') → n ≤ c.unread.length ∧ k (c.unread.take n) ⟨c, t⟩ = o := by
    intro c t o h hne
    rcases Nat.lt_or_ge c.unread.length n with hl | hl
    · obtain ⟨s', hs, -⟩ := hshort c t hl
      exact absurd (h ▸ hs) (hne s')
    · exact ⟨hl, hlong c t hl ▸ h⟩
  -- an input that starts with at least `n` of the tokens of `c` makes `m` choose as on `c`
  have same : ∀ {c c' : Cursor β} {t : σ} {bs rest rest' : List β}, c.unread = bs ++ rest →
      n ≤ bs.length → c'.unread = bs ++ rest' → m ⟨c', t⟩ = k (c.unread.take n) ⟨c', t⟩ := by
    intro c c' t bs rest rest' hc hl hc'
    rw [hlong c' t (by rw [hc', List.length_append]; omega), hc, hc',
      List.take_append_of_le_length hl, List.take_append_of_le_length hl]
  refine ⟨?_, ?_, ?_, ?_⟩
  · intro c t a s' h
    obtain ⟨hl, h⟩ := key h (by simp)
    obtain ⟨bs, rest, hc, hr, hs⟩ := (hk _).ok_state h
    have hb := hn h
    rw [hs, Cursor.advance_offset] at hb
    refine ⟨bs, rest, hc, fun c' rest' hc' => ?_⟩
    rw [same hc (by omega) hc']
    exact hr c' rest' hc'
  · intro c t s' h
    rcases Nat.lt_or_ge c.unread.length n with hl | hl
    · obtain ⟨s₁, hs, hb⟩ := hshort c t hl
      rw [h] at hs
      cases hs
      exact hb
    · exact (hk _).fail (hlong c t hl ▸ h)
  · intro c t e s' h
    obtain ⟨hl, h⟩ := key h (by simp)
    obtain ⟨he, hb, hr⟩ := (hk _).fault h
    refine ⟨he, hb, fun c' rest' hc' => ?_⟩
    rw [same (List.append_nil _).symm hl hc']
    exact hr c' rest' hc'
  · intro c t h
    obtain ⟨hl, h⟩ := key h (by simp)
    intro c' rest' hc'
    rw [same (List.append_nil _).symm hl hc']
    exact (hk _).exhausted h c' rest' hc'

theorem times {m : Parser β σ ε α} (hm : Delimited E m) :
    ∀ n, Delimited E (Parser.times m n)
  | 0 => pure []
  | n + 1 => hm.bind fun _ => (times hm n).bind fun _ => pure _

end Delimited

/-! ### Tokens used up -/

/-- A value `a` uses up at least `w a` tokens. -/
def Costs (m : Parser β σ ε α) (w : α → ℕ) : Prop :=
  ∀ ⦃s : State β σ⦄ ⦃a : α⦄ ⦃s' : State β σ⦄, m s = .ok a s' →
    s.cursor.offset + w a ≤ s'.cursor.offset

/-- A token that was looked at has to be used up. -/
theorem Delimited.ahead {E : ε → Prop} {k : β → Parser β σ ε α} (hk : ∀ b, Delimited E (k b))
    (hc : ∀ b, Costs (k b) fun _ => 1) : Delimited E (Parser.ahead k) := by
  refine .lookahead (n := 1) (k := fun bs => bs.head?.elim Parser.fail k) ?_ ?_ ?_ ?_
  · rintro (_ | ⟨b, bs⟩)
    · exact .failure
    · exact hk b
  · intro c t hl
    exact ⟨_, ahead_of_nil (List.length_eq_zero_iff.1 (Nat.lt_one_iff.1 hl)), .refl c⟩
  · intro c t hl
    obtain ⟨b, bs, hbs⟩ : ∃ b bs, c.unread = b :: bs := List.exists_cons_of_length_pos hl
    rw [ahead_of_cons hbs, hbs]
    rfl
  · rintro (_ | ⟨b, bs⟩) c t a s' h
    · cases h
    · exact hc b h

namespace Costs

theorem of_delimited {E : ε → Prop} {m : Parser β σ ε α} (h : Delimited E m) :
    Costs m fun _ => 0 := fun _ _ _ hm => (h.before hm).2

theorem pure (a : α) : Costs (pure a : Parser β σ ε α) fun _ => 0 := by
  intro s b s' h; cases h; exact Nat.le_refl _

theorem failure (w : α → ℕ) : Costs (Parser.fail : Parser β σ ε α) w := by
  intro s b s' h; cases h

theorem stop (e : ε) (w : α → ℕ) : Costs (Parser.fault e : Parser β σ ε α) w := by
  intro s b s' h; cases h

theorem take (n : ℕ) : Costs (Parser.take n : Parser β σ ε (List β)) fun _ => n := by
  intro s b s' h
  by_cases hn : n ≤ s.cursor.unread.length
  · rw [take_of_le hn] at h; cases h; exact Nat.le_refl _
  · rw [take_of_lt (by simpa using hn)] at h; cases h

theorem next : Costs (Parser.next : Parser β σ ε β) fun _ => 1 := by
  intro s b s' h
  rcases hs : s.cursor.unread with _ | ⟨b, bs⟩
  · rw [next_of_nil hs] at h; cases h
  · rw [next_of_cons hs] at h; cases h; exact Nat.le_refl _

theorem ahead {k : β → Parser β σ ε α} {w : α → ℕ} (hk : ∀ b, Costs (k b) w) :
    Costs (Parser.ahead k) w := by
  intro s a s' h
  rcases hs : s.cursor.unread with _ | ⟨b, bs⟩
  · rw [ahead_of_nil hs] at h; cases h
  · rw [ahead_of_cons hs] at h; exact hk b h

theorem onFail {m : Parser β σ ε α} {w : α → ℕ} (g : σ → State β σ → σ) (h : Costs m w) :
    Costs (Parser.onFail g m) w := by
  intro s a s' hm
  exact h ((onFail_eq_iff (by simp)).1 hm)

theorem mono {m : Parser β σ ε α} {w w' : α → ℕ} (h : Costs m w) (hw : ∀ a, w' a ≤ w a) :
    Costs m w' := fun _ _ _ hm => Nat.le_trans (Nat.add_le_add_left (hw _) _) (h hm)

theorem bind {m : Parser β σ ε α} {f : α → Parser β σ ε γ} {w : α → ℕ} {v : α → γ → ℕ}
    {u : γ → ℕ} (hm : Costs m w) (hf : ∀ a, Costs (f a) (v a))
    (hu : ∀ a b, u b ≤ w a + v a b) : Costs (m >>= f) u := by
  intro s b s'' h
  obtain ⟨a, s', h₁, h₂⟩ := bind_eq_ok.1 h
  have := hm h₁
  have := hf a h₂
  have := hu a b
  omega

theorem ite {p : Prop} [Decidable p] {m m' : Parser β σ ε α} {w : α → ℕ}
    (h : p → Costs m w) (h' : ¬ p → Costs m' w) : Costs (if p then m else m') w := by
  split
  · exact h ‹_›
  · exact h' ‹_›

theorem times {m : Parser β σ ε α} {w : α → ℕ} (hm : Costs m w) :
    ∀ n, Costs (Parser.times m n) fun as => (as.map w).sum
  | 0 => by intro s as s' h; cases h; exact Nat.le_refl _
  | n + 1 => by
    intro s as s' h
    obtain ⟨a, s₁, h₁, h⟩ := bind_eq_ok.1 h
    obtain ⟨as', s₂, h₂, h⟩ := bind_eq_ok.1 h
    cases h
    have := hm h₁
    have h₃ := times hm n h₂
    simp only [List.map_cons, List.sum_cons] at h₃ ⊢
    omega

end Costs

/-! ### Runs on bounded inputs -/

/-- `m` and `m'` do the same on fewer than `N` unread tokens, and, if `T`, are not exhausted
there. -/
def Agree (T : Prop) (N : ℕ) (m m' : Parser β σ ε α) : Prop :=
  ∀ s : State β σ, s.cursor.unread.length < N → m s = m' s ∧ (T → m s ≠ .exhausted)

namespace Agree

variable {T : Prop} {N : ℕ}

theorem refl {m : Parser β σ ε α} (h : ∀ s, m s ≠ .exhausted) : Agree T N m m :=
  fun s _ => ⟨rfl, fun _ => h s⟩

theorem of_false (m : Parser β σ ε α) : Agree False N m m := fun _ _ => ⟨rfl, False.elim⟩

theorem mono {m m' : Parser β σ ε α} {M : ℕ} (h : Agree T N m m') (hM : M ≤ N) :
    Agree T M m m' := fun s hs => h s (Nat.lt_of_lt_of_le hs hM)

theorem bind {E : ε → Prop} {m m' : Parser β σ ε α} {f f' : α → Parser β σ ε γ} {w : α → ℕ}
    (h : Agree T N m m') (hd : Delimited E m) (hc : Costs m w)
    (hf : ∀ a, Agree T (N - w a) (f a) (f' a)) : Agree T N (m >>= f) (m' >>= f') := by
  intro s hs
  obtain ⟨he, hx⟩ := h s hs
  rw [bind_apply, bind_apply, ← he]
  cases hm : m s with
  | ok a s' =>
    have hb := hd.before hm
    have hw := hc hm
    have hl : s'.cursor.unread.length < N - w a := by
      rw [Cursor.length_unread] at hs ⊢
      have := s'.cursor.offset_le
      rw [hb.1] at this ⊢
      omega
    exact hf a s' hl
  | fail s' => exact ⟨rfl, fun _ => by simp⟩
  | fault e s' => exact ⟨rfl, fun _ => by simp⟩
  | exhausted => exact ⟨rfl, fun hT => absurd hm (hx hT)⟩

/-- `Agree.bind` where the tokens used up by the first parser do not matter. -/
theorem bind' {E : ε → Prop} {m m' : Parser β σ ε α} {f f' : α → Parser β σ ε γ}
    (h : Agree T N m m') (hd : Delimited E m) (hf : ∀ a, Agree T N (f a) (f' a)) :
    Agree T N (m >>= f) (m' >>= f') :=
  h.bind hd (.of_delimited hd) hf

theorem ite {p : Prop} [Decidable p] {m₁ m₂ m₁' m₂' : Parser β σ ε α}
    (h₁ : p → Agree T N m₁ m₁') (h₂ : ¬ p → Agree T N m₂ m₂') :
    Agree T N (if p then m₁ else m₂) (if p then m₁' else m₂') := by
  split
  · exact h₁ ‹_›
  · exact h₂ ‹_›

theorem pure (a : α) : Agree T N (pure a : Parser β σ ε α) (pure a) := refl fun _ => by simp

theorem failure : Agree T N (Parser.fail : Parser β σ ε α) Parser.fail := refl fun _ => by simp

theorem ahead {k k' : β → Parser β σ ε α} (h : ∀ b, Agree T N (k b) (k' b)) :
    Agree T N (Parser.ahead k) (Parser.ahead k') := by
  intro s hs
  rcases hu : s.cursor.unread with _ | ⟨b, bs⟩
  · rw [ahead_of_nil hu, ahead_of_nil hu]; exact ⟨rfl, fun _ => by simp⟩
  · rw [ahead_of_cons hu, ahead_of_cons hu]; exact h b s hs

theorem onFail {m m' : Parser β σ ε α} (g : σ → State β σ → σ) (h : Agree T N m m') :
    Agree T N (Parser.onFail g m) (Parser.onFail g m') := by
  intro s hs
  obtain ⟨he, hx⟩ := h s hs
  refine ⟨by rw [Parser.onFail, Parser.onFail, he], fun hT hm => hx hT ?_⟩
  exact (onFail_eq_iff (by simp)).1 hm

theorem times {E : ε → Prop} {m m' : Parser β σ ε α} (h : Agree T N m m') (hd : Delimited E m) :
    ∀ n, Agree T N (Parser.times m n) (Parser.times m' n)
  | 0 => pure []
  | n + 1 => h.bind' hd fun _ => (times h hd n).bind' (hd.times n) fun _ => pure _

end Agree

/-! ### Guarded recursion -/

variable {E : ε → Prop} {F F' : (ι → Parser β σ ε α) → ι → Parser β σ ε α}

/-- A family of delimited parsers with the prices `w`. -/
def Priced (E : ε → Prop) (w : ι → α → ℕ) (self : ι → Parser β σ ε α) : Prop :=
  ∀ i, Delimited E (self i) ∧ Costs (self i) (w i)

/-- `F` preserves being delimited and the prices `w`. -/
def KeepsPriced (E : ε → Prop) (w : ι → α → ℕ)
    (F : (ι → Parser β σ ε α) → ι → Parser β σ ε α) : Prop :=
  ∀ ⦃self⦄, Priced E w self → Priced E w (F self)

/-- Below `M` unread tokens, `F` and `F'` call themselves only on shorter inputs and otherwise
do the same. -/
def Guarded (E : ε → Prop) (w : ι → α → ℕ) (T : Prop) (M : ℕ)
    (F F' : (ι → Parser β σ ε α) → ι → Parser β σ ε α) : Prop :=
  ∀ ⦃N⦄, N < M → ∀ ⦃self self'⦄, Priced E w self →
    (∀ i, Agree T N (self i) (self' i)) → ∀ i, Agree T (N + 1) (F self i) (F' self' i)

variable {w : ι → α → ℕ}

theorem priced_exhausted : Priced E w fun _ (_ : State β σ) => (.exhausted : Outcome β σ ε α) :=
  fun _ =>
  ⟨{ ok := by intro c t a s' h; cases h
     fail := by intro c t s' h; cases h
     fault := by intro c t e s' h; cases h
     exhausted := fun _ _ _ _ => rfl },
    fun _ _ _ h => by cases h⟩

theorem KeepsPriced.fixN (hd : KeepsPriced E w F) : ∀ n, Priced E w (fixN F n)
  | 0 => priced_exhausted
  | n + 1 => hd (KeepsPriced.fixN hd n)

namespace Guarded

variable {T : Prop} {M : ℕ}

theorem fixN_agree (h : Guarded E w T M F F') (hd : KeepsPriced E w F) :
    ∀ {n m}, n ≤ m → n ≤ M → ∀ i, Agree T n (fixN F n i) (fixN F' m i)
  | 0, _, _, _, _ => fun _ hs => absurd hs (Nat.not_lt_zero _)
  | n + 1, _ + 1, hm, hM, i =>
    h hM (hd.fixN n) (fixN_agree h hd (Nat.le_of_succ_le_succ hm) (Nat.le_of_lt hM)) i

/-- On an input shorter than `n`, the recursion is its `n`-th unfolding. -/
theorem fixN_agree_fix (h : Guarded E w T M F F) (hd : KeepsPriced E w F) {n : ℕ} (hn : n ≤ M)
    (i : ι) : Agree T n (fixN F n i) (fix F i) := by
  intro s hs
  obtain ⟨he, hx⟩ := h.fixN_agree hd (n := s.cursor.unread.length + 1) (m := n) hs
    (Nat.le_trans hs hn) i s (Nat.lt_succ_self _)
  exact ⟨he.symm, fun hT => he ▸ hx hT⟩

theorem fix_agree (h : Guarded E w T M F F') (hd : KeepsPriced E w F) (i : ι) :
    Agree T M (fix F i) (fix F' i) := fun s hs =>
  h.fixN_agree hd (Nat.le_refl _) (Nat.succ_le_of_lt hs) i s (Nat.lt_succ_self _)

end Guarded

/-- **The recursion equation.**  A recursion that calls itself only on shorter inputs never
meets the bound on its unfolding. -/
theorem fix_eq (h : ∀ M, Guarded E w False M F F) (hd : KeepsPriced E w F) : fix F = F (fix F) := by
  funext i s
  set k := s.cursor.unread.length with hk
  exact (h (k + 1) (Nat.lt_succ_self k) (hd.fixN k)
    (fun j => (h k).fixN_agree_fix hd (Nat.le_refl k) j) i s (Nat.lt_succ_self k)).1

/-- A guarded recursion is delimited when its unfoldings are. -/
theorem Delimited.fix (h : ∀ M, Guarded E w False M F F) (hd : KeepsPriced E w F) (i : ι) :
    Delimited E (fix F i) := by
  have unfold : ∀ (c : Cursor β) (t : σ) {n : ℕ}, c.unread.length < n →
      Parser.fix F i ⟨c, t⟩ = fixN F n i ⟨c, t⟩ := fun c t n hn =>
    ((h n).fixN_agree_fix hd (Nat.le_refl n) i ⟨c, t⟩ hn).1.symm
  refine ⟨?_, ?_, ?_, ?_⟩
  · intro c t a s' hs
    have hs₁ := hs
    rw [unfold c t (Nat.lt_succ_self _)] at hs₁
    obtain ⟨bs, rest, hc, -, hst⟩ := (hd.fixN _ i).1.ok_state hs₁
    refine ⟨bs, rest, hc, fun c' rest' hc' => ?_⟩
    -- compare both runs in one unfolding that is long enough for either input
    set n := c.unread.length + c'.unread.length + 1 with hn
    have hs₂ := hs
    rw [unfold c t (n := n) (by omega)] at hs₂
    obtain ⟨bs₂, rest₂, hc₂, hr₂, hst₂⟩ := (hd.fixN n i).1.ok_state hs₂
    have hl : bs.length = bs₂.length := by
      have h₁ := congrArg (fun s : State β σ => s.cursor.offset) hst
      have h₂ := congrArg (fun s : State β σ => s.cursor.offset) hst₂
      simp only [Cursor.advance_offset] at h₁ h₂
      omega
    obtain rfl : bs = bs₂ := (List.append_inj (hc.symm.trans hc₂) hl).1
    rw [unfold c' t (n := n) (by omega)]
    exact hr₂ c' rest' hc'
  · intro c t s' hs
    rw [unfold c t (Nat.lt_succ_self _)] at hs
    exact (hd.fixN _ i).1.fail hs
  · intro c t e s' hs
    have hs₁ := hs
    rw [unfold c t (Nat.lt_succ_self _)] at hs₁
    obtain ⟨he, hb, -⟩ := (hd.fixN _ i).1.fault hs₁
    refine ⟨he, hb, fun c' rest' hc' => ?_⟩
    set n := c.unread.length + c'.unread.length + 1 with hn
    rw [unfold c t (n := n) (by omega)] at hs
    rw [unfold c' t (n := n) (by omega)]
    exact ((hd.fixN n i).1.fault hs).2.2 c' rest' hc'
  · intro c t hs c' rest' hc'
    set n := c.unread.length + c'.unread.length + 1 with hn
    rw [unfold c t (n := n) (by omega)] at hs
    rw [unfold c' t (n := n) (by omega)]
    exact (hd.fixN n i).1.exhausted hs c' rest' hc'

/-- What every unfolding keeps true of its runs, and an exhausted run satisfies, holds of every
run of the recursion. -/
theorem fix_induct {Q : ι → State β σ → Outcome β σ ε α → Prop}
    (hx : ∀ i s, Q i s .exhausted)
    (hF : ∀ self : ι → Parser β σ ε α, (∀ i s, Q i s (self i s)) → ∀ i s, Q i s (F self i s))
    (i : ι) (s : State β σ) : Q i s (fix F i s) := by
  have key : ∀ n i s, Q i s (fixN F n i s) := by
    intro n
    induction n with
    | zero => exact hx
    | succ n ih => exact hF _ ih
  exact key _ i s

theorem Costs.fix
    (hF : ∀ self : ι → Parser β σ ε α, (∀ i, Costs (self i) (w i)) → ∀ i, Costs (F self i) (w i))
    (i : ι) : Costs (fix F i) (w i) := by
  intro s a s' h
  have := fix_induct (F := F)
    (Q := fun i s o => ∀ a s', o = .ok a s' → s.cursor.offset + w i a ≤ s'.cursor.offset)
    (fun _ _ _ _ h => by cases h)
    (fun self hs i s a s' h => hF self (fun i _ _ _ h => hs i _ _ _ h) i h) i s
  exact this a s' h

/-! ### Loops -/

section Loops

variable {step step' : ι → Parser β σ ε (ι ⊕ α)}

/-- A turn that goes round again uses up a token. -/
def Progresses (step : ι → Parser β σ ε (ι ⊕ α)) : Prop :=
  ∀ i, Costs (step i) (Sum.elim (fun _ => 1) fun _ => 0)

theorem keepsPriced_turn (hd : ∀ i, Delimited E (step i)) :
    KeepsPriced E (fun _ _ => 0) (turn step) := by
  intro self hs i
  have h : Delimited E (turn step self i) := (hd i).bind fun r => by
    cases r with
    | inl j => exact (hs j).1
    | inr a => exact .pure a
  exact ⟨h, .of_delimited h⟩

theorem guarded_turn {T : Prop} {M : ℕ} (hd : ∀ i, Delimited E (step i)) (hp : Progresses step)
    (ha : ∀ i, Agree T M (step i) (step' i)) : Guarded E (fun _ _ => 0) T M (turn step) (turn step') := by
  intro N hN self self' _ hs i
  refine ((ha i).mono hN).bind (hd i) (hp i) fun r => ?_
  cases r with
  | inl j => exact hs j
  | inr a => exact .pure a

/-- **The loop equation.** -/
theorem iter_eq (hd : ∀ i, Delimited E (step i)) (hp : Progresses step) (i : ι) :
    iter step i = step i >>= Sum.elim (iter step) pure :=
  congrFun (fix_eq (fun _ => guarded_turn hd hp fun i => .of_false (step i))
    (keepsPriced_turn hd)) i

theorem Delimited.iter (hd : ∀ i, Delimited E (step i)) (hp : Progresses step) (i : ι) :
    Delimited E (iter step i) :=
  .fix (fun _ => guarded_turn hd hp fun i => .of_false (step i)) (keepsPriced_turn hd) i

theorem Agree.iter {T : Prop} {N : ℕ} (hd : ∀ i, Delimited E (step i)) (hp : Progresses step)
    (ha : ∀ i, Agree T N (step i) (step' i)) (i : ι) :
    Agree T N (iter step i) (iter step' i) :=
  (guarded_turn hd hp ha).fix_agree (keepsPriced_turn hd) i

/-- What one turn keeps true holds of the whole loop. -/
theorem iter_induct {Q : ι → State β σ → Outcome β σ ε α → Prop}
    (hx : ∀ i s, Q i s .exhausted)
    (hstep : ∀ i s, match step i s with
      | .ok (.inl j) s' => ∀ o, Q j s' o → Q i s o
      | .ok (.inr a) s' => Q i s (.ok a s')
      | .fail s' => Q i s (.fail s')
      | .fault e s' => Q i s (.fault e s')
      | .exhausted => True) (i : ι) (s : State β σ) : Q i s (Parser.iter step i s) := by
  refine fix_induct hx (fun self hs i s => ?_) i s
  have h := hstep i s
  rw [turn, bind_apply]
  cases hst : step i s with
  | ok r s' =>
    rw [hst] at h
    cases r with
    | inl j => exact h _ (hs j s')
    | inr a => exact h
  | fail s' => rw [hst] at h; exact h
  | fault e s' => rw [hst] at h; exact h
  | exhausted => exact hx i s

/-- Partial correctness of a loop: what holds of a turn that ends the loop, and is carried back over
a turn that does not, holds of every value the loop ends with. -/
theorem iter_ok_induct {Q : ι → State β σ → α → State β σ → Prop}
    (hl : ∀ {i s j s' a s''}, step i s = .ok (.inl j) s' → Q j s' a s'' → Q i s a s'')
    (hr : ∀ {i s a s'}, step i s = .ok (.inr a) s' → Q i s a s') {i : ι} {s s' : State β σ} {a : α}
    (h : Parser.iter step i s = .ok a s') : Q i s a s' := by
  refine iter_induct (Q := fun i s o => ∀ a s', o = .ok a s' → Q i s a s')
    (fun _ _ _ _ h => by cases h) (fun i s => ?_) i s a s' h
  cases hs : step i s with
  | ok r s₁ =>
    cases r with
    | inl j => exact fun o ho b s₂ hb => hl hs (ho b s₂ hb)
    | inr b => rintro b' s₂ ⟨⟩; exact hr hs
  | fail s₁ => rintro b s₂ ⟨⟩
  | fault e s₁ => rintro b s₂ ⟨⟩
  | exhausted => trivial

end Loops

end Parser

end Parsing
