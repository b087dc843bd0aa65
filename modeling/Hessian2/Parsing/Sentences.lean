import Hessian2.Parsing.Tame

/-!
# The sentences of a parser

What a delimited parser reads, as a relation `Reads` between the tokens, the value and the auxiliary
states, follows the structure of the parser in both directions.

* `Parser.Delimited.ok_iff` : the runs that end in a value are the readings.
* `Parser.reads_bind_iff`, `Parser.reads_ahead_iff` and the other rules : the readings of a composed
  parser.
* `Parser.Sequence` : one reading after the other; `Parser.reads_times_iff` : a counted loop.
-/

namespace Parsing

namespace Parser

variable {β σ ε ι α γ : Type} {E : ε → Prop} {t t' : σ} {bs : List β}

/-- **The runs of a delimited parser that end in a value are its readings.** -/
theorem Delimited.ok_iff {m : Parser β σ ε α} (hm : Delimited E m) {s s' : State β σ} {a : α} :
    m s = .ok a s' ↔ ∃ (bs rest : List β) (h : s.cursor.unread = bs ++ rest),
      Reads m s.aux bs a s'.aux ∧ s' =
        ⟨s.cursor.advance bs.length (Cursor.length_le_unread h), s'.aux⟩ := by
  constructor
  · exact hm.ok_state (c := s.cursor) (t := s.aux)
  · rintro ⟨bs, rest, hu, hr, hs'⟩
    rw [hs']
    exact hr s.cursor rest hu

/-- A delimited parser returns a value if the input begins with a reading. -/
theorem Delimited.returns_iff {m : Parser β σ ε α} (hm : Delimited E m) {s : State β σ} :
    (∃ a s', m s = .ok a s') ↔
      ∃ bs rest a t', s.cursor.unread = bs ++ rest ∧ Reads m s.aux bs a t' := by
  constructor
  · rintro ⟨a, s', h⟩
    obtain ⟨bs, rest, hu, hr, -⟩ := hm.ok_iff.1 h
    exact ⟨bs, rest, a, s'.aux, hu, hr⟩
  · rintro ⟨bs, rest, a, t', hu, hr⟩
    exact ⟨a, _, hr s.cursor rest hu⟩

/-- A reading is the run on its tokens alone, and uses them up. -/
theorem Reads.ofList {m : Parser β σ ε α} {a : α} (h : Reads m t bs a t') :
    ∃ c, m ⟨.ofList bs, t⟩ = .ok a ⟨c, t'⟩ ∧ c.unread = [] := by
  have hu : (Cursor.ofList bs).unread = bs ++ [] := (List.append_nil bs).symm
  exact ⟨_, h (.ofList bs) [] hu, unread_advance_append hu⟩

/-- A run that uses up its input is a reading of it. -/
theorem Delimited.reads {m : Parser β σ ε α} (hm : Delimited E m) {a : α} {c : Cursor β}
    (h : m ⟨.ofList bs, t⟩ = .ok a ⟨c, t'⟩) (hc : c.unread = []) : Reads m t bs a t' := by
  obtain ⟨bs', rest, hu, hr, hs'⟩ := hm.ok_state h
  have hcur : c = (Cursor.ofList bs).advance bs'.length (by simp [hu]) :=
    congrArg State.cursor hs'
  have hrest : rest = [] := by
    have hlen := unread_advance_append hu
    rw [← hcur, hc] at hlen
    exact hlen.symm
  rw [Cursor.unread_ofList, hrest, List.append_nil] at hu
  exact hu ▸ hr

/-- Two readings on one input are the same. -/
theorem Reads.unique {m : Parser β σ ε α} {a a' : α} {t'' : σ} {bs' rest rest' : List β}
    (h : Reads m t bs a t') (h' : Reads m t bs' a' t'') (hu : bs ++ rest = bs' ++ rest') :
    bs = bs' ∧ a = a' ∧ t' = t'' := by
  have hrun := h (.ofList (bs ++ rest)) rest rfl
  rw [h' (.ofList (bs ++ rest)) rest' hu] at hrun
  injection hrun with ha hs
  injection hs with hcur ht
  have hlen : bs.length = bs'.length := by
    have hoff := congrArg Cursor.offset hcur
    simp only [Cursor.advance_offset] at hoff
    omega
  exact ⟨(List.append_inj hu hlen).1, ha.symm, ht.symm⟩

/-! ### The rules -/

theorem reads_pure_iff {a b : α} :
    Reads (pure a : Parser β σ ε α) t bs b t' ↔ bs = [] ∧ b = a ∧ t' = t := by
  constructor
  · intro h
    obtain ⟨rfl, rfl, rfl⟩ := h.unique (reads_pure a t) (List.append_nil bs : bs ++ [] = [] ++ bs)
    exact ⟨rfl, rfl, rfl⟩
  · rintro ⟨rfl, rfl, rfl⟩
    exact reads_pure _ _

theorem not_reads_fail {a : α} : ¬ Reads (fail : Parser β σ ε α) t bs a t' := by
  intro h
  obtain ⟨c, hrun, -⟩ := h.ofList
  cases hrun

theorem not_reads_fault {e : ε} {a : α} : ¬ Reads (fault e : Parser β σ ε α) t bs a t' := by
  intro h
  obtain ⟨c, hrun, -⟩ := h.ofList
  cases hrun

theorem reads_modifyAux_iff {f : σ → σ} {a : Unit} :
    Reads (modifyAux f : Parser β σ ε Unit) t bs a t' ↔ bs = [] ∧ t' = f t := by
  constructor
  · intro h
    obtain ⟨rfl, -, rfl⟩ := h.unique (reads_modifyAux f t) (List.append_nil bs : bs ++ [] = [] ++ bs)
    exact ⟨rfl, rfl⟩
  · rintro ⟨rfl, rfl⟩
    exact reads_modifyAux _ _

theorem reads_next_iff {a : β} :
    Reads (next : Parser β σ ε β) t bs a t' ↔ bs = [a] ∧ t' = t := by
  constructor
  · intro h
    cases bs with
    | nil =>
      obtain ⟨c, hrun, -⟩ := h.ofList
      rw [next_of_nil rfl] at hrun
      cases hrun
    | cons b bs =>
      obtain ⟨hbs, rfl, rfl⟩ := h.unique (reads_next b t)
        (List.append_nil (b :: bs) : (b :: bs) ++ [] = [b] ++ bs)
      exact ⟨hbs, rfl⟩
  · rintro ⟨rfl, rfl⟩
    exact reads_next _ _

theorem reads_take_iff {n : ℕ} {as : List β} :
    Reads (take n : Parser β σ ε (List β)) t bs as t' ↔ bs = as ∧ as.length = n ∧ t' = t := by
  constructor
  · intro h
    obtain ⟨c, hrun, hc⟩ := h.ofList
    obtain ⟨hu, hlen, haux⟩ := take_eq_ok hrun
    rw [hc, List.append_nil] at hu
    exact ⟨hu, hlen, haux⟩
  · rintro ⟨rfl, rfl, rfl⟩
    exact reads_take _ _

/-- **What is read by two parsers is read by one and then by the other.** -/
theorem reads_bind_iff {m : Parser β σ ε α} {f : α → Parser β σ ε γ} {b : γ}
    (hm : Delimited E m) (hf : ∀ a, Delimited E (f a)) :
    Reads (m >>= f) t bs b t' ↔ ∃ bs₁ bs₂ a t₁, bs = bs₁ ++ bs₂ ∧ Reads m t bs₁ a t₁ ∧
      Reads (f a) t₁ bs₂ b t' := by
  constructor
  · intro h
    obtain ⟨c, hrun, hc⟩ := h.ofList
    obtain ⟨a, ⟨c₁, t₁⟩, h₁, h₂⟩ := bind_eq_ok.1 hrun
    obtain ⟨bs₁, bs₂, hu, hr₁, hs₁⟩ := hm.ok_state h₁
    obtain ⟨bs₃, rest, hu₂, hr₂, hs₂⟩ := (hf a).ok_state h₂
    injection hs₁ with hc₁
    injection hs₂ with hc₂
    have hrest : bs₂ = bs₃ ++ rest := by rw [← hu₂, hc₁, unread_advance_append hu]
    have hnil : rest = [] := by
      rw [← unread_advance_append hu₂, ← hc₂, hc]
    rw [hnil, List.append_nil] at hrest
    exact ⟨bs₁, bs₂, a, t₁, hu, hr₁, hrest ▸ hr₂⟩
  · rintro ⟨bs₁, bs₂, a, t₁, rfl, hr₁, hr₂⟩
    exact hr₁.bind hr₂

theorem reads_map_iff {m : Parser β σ ε α} {f : α → γ} {b : γ} (hm : Delimited E m) :
    Reads (m >>= fun a => pure (f a)) t bs b t' ↔ ∃ a, Reads m t bs a t' ∧ b = f a := by
  rw [reads_bind_iff hm fun a => Delimited.pure (f a)]
  constructor
  · rintro ⟨bs₁, bs₂, a, t₁, rfl, hr, hp⟩
    obtain ⟨rfl, rfl, rfl⟩ := reads_pure_iff.1 hp
    exact ⟨a, by rwa [List.append_nil], rfl⟩
  · rintro ⟨a, hr, rfl⟩
    exact ⟨bs, [], a, t', (List.append_nil bs).symm, hr, reads_pure _ _⟩

/-- A token ahead is the first of those that are read. -/
theorem reads_ahead_iff {k : β → Parser β σ ε α} {a : α} : Reads (ahead k) t bs a t' ↔
    ∃ b bs', bs = b :: bs' ∧ Reads (k b) t bs a t' := by
  constructor
  · intro h
    cases bs with
    | nil =>
      obtain ⟨c, hrun, -⟩ := h.ofList
      rw [ahead_of_nil rfl] at hrun
      cases hrun
    | cons b bs =>
      refine ⟨b, bs, rfl, fun c rest hu => ?_⟩
      rw [← h c rest hu]
      exact (ahead_of_cons hu).symm
  · rintro ⟨b, bs', rfl, h⟩
    exact h.ahead

theorem reads_onFail_iff {g : σ → State β σ → σ} {m : Parser β σ ε α} {a : α} :
    Reads (onFail g m) t bs a t' ↔ Reads m t bs a t' := by
  refine forall_congr' fun c => forall_congr' fun rest => forall_congr' fun hu => ?_
  exact onFail_eq_iff fun s' => by rintro ⟨⟩

/-! ### Sequences -/

/-- One reading after the other. -/
inductive Sequence (R : σ → List β → α → σ → Prop) : σ → List β → List α → σ → Prop where
  | nil (t : σ) : Sequence R t [] [] t
  | cons {t t₁ t' : σ} {bs bs' : List β} {a : α} {as : List α} (h : R t bs a t₁)
    (hs : Sequence R t₁ bs' as t') : Sequence R t (bs ++ bs') (a :: as) t'

/-- **A counted loop reads a sequence of this length.** -/
theorem reads_times_iff {m : Parser β σ ε α} (hm : Delimited E m) {n : ℕ} {as : List α} :
    Reads (times m n) t bs as t' ↔ as.length = n ∧ Sequence (Reads m) t bs as t' := by
  induction n generalizing t bs as with
  | zero =>
    rw [times, reads_pure_iff]
    constructor
    · rintro ⟨rfl, rfl, rfl⟩
      exact ⟨rfl, .nil _⟩
    · rintro ⟨hlen, hs⟩
      cases hs with
      | nil => exact ⟨rfl, rfl, rfl⟩
      | cons => cases hlen
  | succ n ih =>
    have htimes : Delimited E (times m n) := .times hm n
    rw [times, reads_bind_iff hm fun a => htimes.bind fun as => .pure _]
    simp only [reads_map_iff htimes, ih]
    constructor
    · rintro ⟨bs₁, bs₂, a, t₁, rfl, hr, as', ⟨rfl, hs⟩, rfl⟩
      exact ⟨rfl, .cons hr hs⟩
    · rintro ⟨hlen, hs⟩
      cases hs with
      | nil => cases hlen
      | @cons _ t₁ _ bs₁ bs₂ a as' hr hs =>
        exact ⟨bs₁, bs₂, a, t₁, rfl, hr, as', ⟨Nat.succ.inj hlen, hs⟩, rfl⟩

/-- A counted loop that stops the program has read a shorter sequence before. -/
theorem times_fault {m : Parser β σ ε α} (hm : Delimited E m) {n : ℕ} {e : ε}
    {s s' : State β σ} (h : times m n s = .fault e s') :
    ∃ bs rest as t', s.cursor.unread = bs ++ rest ∧ Sequence (Reads m) s.aux bs as t' ∧
      as.length < n ∧ Raises m t' rest e := by
  induction n generalizing s with
  | zero => cases h
  | succ n ih =>
    rw [times] at h
    rcases bind_eq_fault.1 h with h | ⟨a, s₁, h₁, h⟩
    · exact ⟨[], _, [], s.aux, rfl, .nil _, Nat.succ_pos n, (hm.fault h).2.2⟩
    rcases bind_eq_fault.1 h with h | ⟨as, s₂, -, h⟩
    · obtain ⟨bs₁, rest₁, hu₁, hr, hs₁⟩ := hm.ok_iff.1 h₁
      obtain ⟨bs₂, rest, as, t', hu₂, hs, hlen, hraise⟩ := ih h
      rw [hs₁, unread_advance_append hu₁] at hu₂
      refine ⟨bs₁ ++ bs₂, rest, a :: as, t', ?_, .cons hr hs, Nat.succ_lt_succ hlen, hraise⟩
      rw [hu₁, hu₂, List.append_assoc]
    · cases h

/-- What stops the program behind a sequence stops a longer loop. -/
theorem Sequence.times_raises {m : Parser β σ ε α} {as : List α} {n : ℕ} {rest : List β} {e : ε}
    (h : Sequence (Reads m) t bs as t') (hn : as.length < n) (hr : Raises m t' rest e) :
    Raises (times m n) t (bs ++ rest) e := by
  induction h generalizing n with
  | nil t =>
    obtain ⟨n, rfl⟩ := Nat.exists_eq_succ_of_ne_zero (Nat.ne_of_gt hn)
    exact hr.bind_left _
  | @cons t t₁ t' bs bs' a as h hs ih =>
    obtain ⟨n, rfl⟩ := Nat.exists_eq_succ_of_ne_zero (Nat.ne_of_gt (Nat.zero_lt_of_lt hn))
    rw [List.append_assoc]
    exact Raises.bind_right h ((ih (Nat.lt_of_succ_lt_succ hn) hr).bind_left _)

end Parser

end Parsing
