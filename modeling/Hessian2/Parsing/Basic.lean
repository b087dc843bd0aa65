import Mathlib.Data.List.Basic
import Mathlib.Data.Nat.Basic
import Mathlib.Tactic.Ring

/-!
# Parsers over a buffer

A parser runs on a cursor into an immutable buffer together with an auxiliary state `σ` (the
tables a format keeps while it is read).  It ends in one of four ways (`Outcome`): a value, a
refusal of the input, a fault `e : ε` (anything that stops the program rather than the parse),
or `exhausted`, the mark that a bounded unfolding of a recursion was too short.

* `Cursor` : a position that never lies past the end of its buffer.
* `Parser` : the state monad of these outcomes.
* `Parser.fix` : general recursion, unfolded once more than there are unread tokens.
* `Parser.iter` : a loop, as an instance of `Parser.fix`.
* `Parser.times` : a counted loop.

`Parsing.Laws` proves when the bound in `Parser.fix` is never met, so that `Parser.fix F`
satisfies its recursion equation.
-/

namespace Parsing

/-- A position in an immutable buffer; it never lies past the end. -/
@[ext] structure Cursor (β : Type) where
  /-- The whole input, the part already read included. -/
  buffer : List β
  /-- How much of it has been read. -/
  offset : ℕ
  offset_le : offset ≤ buffer.length

namespace Cursor

variable {β : Type}

/-- The cursor at the start of `buffer`. -/
def ofList (buffer : List β) : Cursor β := ⟨buffer, 0, Nat.zero_le _⟩

/-- The part of the buffer that has not been read. -/
def unread (c : Cursor β) : List β := c.buffer.drop c.offset

@[simp] theorem unread_ofList (buffer : List β) : (ofList buffer).unread = buffer := rfl

theorem length_unread (c : Cursor β) : c.unread.length = c.buffer.length - c.offset :=
  List.length_drop

theorem length_le_unread {c : Cursor β} {bs rest : List β} (h : c.unread = bs ++ rest) :
    bs.length ≤ c.unread.length := by
  rw [h, List.length_append]
  exact Nat.le_add_right _ _

/-- Move over `n` tokens that are there. -/
def advance (c : Cursor β) (n : ℕ) (h : n ≤ c.unread.length) : Cursor β :=
  ⟨c.buffer, c.offset + n, by have := c.offset_le; have := c.length_unread; omega⟩

@[simp] theorem advance_buffer (c : Cursor β) (n : ℕ) (h : n ≤ c.unread.length) :
    (c.advance n h).buffer = c.buffer := rfl

@[simp] theorem advance_offset (c : Cursor β) (n : ℕ) (h : n ≤ c.unread.length) :
    (c.advance n h).offset = c.offset + n := rfl

@[simp] theorem unread_advance (c : Cursor β) (n : ℕ) (h : n ≤ c.unread.length) :
    (c.advance n h).unread = c.unread.drop n := by
  simp [unread, advance]

theorem advance_zero (c : Cursor β) (h : 0 ≤ c.unread.length) : c.advance 0 h = c := rfl

theorem advance_advance (c : Cursor β) (m n : ℕ) (hm : m ≤ c.unread.length)
    (hn : n ≤ (c.advance m hm).unread.length) :
    (c.advance m hm).advance n hn = c.advance (m + n) (by
      rw [unread_advance, List.length_drop] at hn; omega) := by
  ext1 <;> simp [Nat.add_assoc]

/-- `c'` is `c` moved forward over the same buffer. -/
def Before (c c' : Cursor β) : Prop := c'.buffer = c.buffer ∧ c.offset ≤ c'.offset

theorem Before.refl (c : Cursor β) : c.Before c := ⟨rfl, Nat.le_refl _⟩

theorem Before.trans {c₁ c₂ c₃ : Cursor β} (h : c₁.Before c₂) (h' : c₂.Before c₃) :
    c₁.Before c₃ := ⟨h'.1.trans h.1, Nat.le_trans h.2 h'.2⟩

theorem before_advance (c : Cursor β) (n : ℕ) (h : n ≤ c.unread.length) :
    c.Before (c.advance n h) := ⟨rfl, Nat.le_add_right _ _⟩

/-- A cursor is known by where it came from and the tokens in between. -/
theorem Before.eq_advance {c c' : Cursor β} (h : c.Before c') {bs : List β}
    (hu : c.unread = bs ++ c'.unread) : c' = c.advance bs.length (length_le_unread hu) := by
  have hl := congrArg List.length hu
  rw [List.length_append, length_unread, length_unread, h.1] at hl
  have := h.2
  have := c.offset_le
  have := c'.offset_le
  rw [h.1] at this
  ext1
  · exact h.1
  · rw [advance_offset]; omega

theorem Before.length_le {c c' : Cursor β} (h : c.Before c') :
    c'.unread.length ≤ c.unread.length := by
  rw [length_unread, length_unread, h.1]; have := h.2; omega

end Cursor

/-- What a parser runs on. -/
structure State (β σ : Type) where
  /-- The position in the input. -/
  cursor : Cursor β
  /-- Everything else. -/
  aux : σ

/-- How a run ends. -/
inductive Outcome (β σ ε α : Type) where
  /-- A value was read. -/
  | ok (a : α) (s : State β σ)
  /-- The input was refused. -/
  | fail (s : State β σ)
  /-- The program stopped. -/
  | fault (e : ε) (s : State β σ)
  /-- A bounded unfolding was too short. -/
  | exhausted

/-- A parser of values `α`. -/
def Parser (β σ ε α : Type) := State β σ → Outcome β σ ε α

variable {β σ ε ι α γ : Type}

/-- Go on with `f` after a value; every other outcome stands. -/
def Outcome.andThen (o : Outcome β σ ε α) (f : α → Parser β σ ε γ) : Outcome β σ ε γ :=
  match o with
  | .ok a s => f a s
  | .fail s => .fail s
  | .fault e s => .fault e s
  | .exhausted => .exhausted

@[simp] theorem Outcome.ok_andThen (a : α) (s : State β σ) (f : α → Parser β σ ε γ) :
    (Outcome.ok a s : Outcome β σ ε α).andThen f = f a s := rfl

@[simp] theorem Outcome.fail_andThen (s : State β σ) (f : α → Parser β σ ε γ) :
    (Outcome.fail s : Outcome β σ ε α).andThen f = .fail s := rfl

@[simp] theorem Outcome.fault_andThen (e : ε) (s : State β σ) (f : α → Parser β σ ε γ) :
    (Outcome.fault e s : Outcome β σ ε α).andThen f = .fault e s := rfl

@[simp] theorem Outcome.exhausted_andThen (f : α → Parser β σ ε γ) :
    (Outcome.exhausted : Outcome β σ ε α).andThen f = .exhausted := rfl

/-- A value was read, and it and the state behind it pass the test. -/
def Outcome.any (p : α → State β σ → Bool) : Outcome β σ ε α → Bool
  | .ok a s => p a s
  | _ => false

theorem Outcome.exists_of_any {p : α → State β σ → Bool} {o : Outcome β σ ε α}
    (h : o.any p = true) : ∃ a s, o = .ok a s ∧ p a s = true := by
  cases o with
  | ok a s => exact ⟨a, s, rfl, h⟩
  | _ => cases h

/-- The input was refused, in a state that passes the test. -/
def Outcome.refused (p : State β σ → Bool) : Outcome β σ ε α → Bool
  | .fail s => p s
  | _ => false

theorem Outcome.exists_of_refused {p : State β σ → Bool} {o : Outcome β σ ε α}
    (h : o.refused p = true) : ∃ s, o = .fail s ∧ p s = true := by
  cases o with
  | fail s => exact ⟨s, rfl, h⟩
  | _ => cases h

/-- The fault that stopped the program. -/
def Outcome.fault? : Outcome β σ ε α → Option ε
  | .fault e _ => some e
  | _ => none

theorem Outcome.exists_of_fault? {e : ε} {o : Outcome β σ ε α} (h : o.fault? = some e) :
    ∃ s, o = .fault e s := by
  cases o with
  | fault e' s =>
    cases h
    exact ⟨s, rfl⟩
  | _ => cases h

/-- The state in which the run ends. -/
def Outcome.final : Outcome β σ ε α → Option (State β σ)
  | .ok _ s => some s
  | .fail s => some s
  | .fault _ s => some s
  | .exhausted => none

namespace Parser

instance : Monad (Parser β σ ε) where
  pure a := fun s => .ok a s
  bind m f := fun s => (m s).andThen f

@[simp] theorem pure_apply (a : α) (s : State β σ) :
    (pure a : Parser β σ ε α) s = .ok a s := rfl

@[simp] theorem bind_apply (m : Parser β σ ε α) (f : α → Parser β σ ε γ) (s : State β σ) :
    (m >>= f) s = (m s).andThen f := rfl

theorem bind_eq_ok {m : Parser β σ ε α} {f : α → Parser β σ ε γ} {s s'' : State β σ} {b : γ} :
    (m >>= f) s = .ok b s'' ↔ ∃ a s', m s = .ok a s' ∧ f a s' = .ok b s'' := by
  rw [bind_apply]
  cases m s <;> simp [Outcome.andThen]

theorem bind_eq_fail {m : Parser β σ ε α} {f : α → Parser β σ ε γ} {s s'' : State β σ} :
    (m >>= f) s = .fail s'' ↔ m s = .fail s'' ∨ ∃ a s', m s = .ok a s' ∧ f a s' = .fail s'' := by
  rw [bind_apply]
  cases m s <;> simp [Outcome.andThen]

theorem bind_eq_fault {m : Parser β σ ε α} {f : α → Parser β σ ε γ} {s s'' : State β σ} {e : ε} :
    (m >>= f) s = .fault e s'' ↔
      m s = .fault e s'' ∨ ∃ a s', m s = .ok a s' ∧ f a s' = .fault e s'' := by
  rw [bind_apply]
  cases m s <;> simp [Outcome.andThen]

theorem bind_eq_exhausted {m : Parser β σ ε α} {f : α → Parser β σ ε γ} {s : State β σ} :
    (m >>= f) s = .exhausted ↔
      m s = .exhausted ∨ ∃ a s', m s = .ok a s' ∧ f a s' = .exhausted := by
  rw [bind_apply]
  cases m s <;> simp [Outcome.andThen]

/-- Behind `m`, only the values and states that `m` leads to count. -/
theorem bind_congr_ok {m : Parser β σ ε α} {f g : α → Parser β σ ε γ} {s : State β σ}
    (h : ∀ a s', m s = .ok a s' → f a s' = g a s') : (m >>= f) s = (m >>= g) s := by
  rw [bind_apply, bind_apply]
  cases hm : m s with
  | ok a s' => exact h a s' hm
  | fail s' => rfl
  | fault e s' => rfl
  | exhausted => rfl

/-- Refuse the input. -/
def fail : Parser β σ ε α := fun s => .fail s

/-- Stop the program. -/
def fault (e : ε) : Parser β σ ε α := fun s => .fault e s

/-- Look at the auxiliary state. -/
def aux : Parser β σ ε σ := fun s => .ok s.aux s

/-- Change the auxiliary state. -/
def modifyAux (f : σ → σ) : Parser β σ ε Unit := fun s => .ok () ⟨s.cursor, f s.aux⟩

@[simp] theorem fail_apply (s : State β σ) : (fail : Parser β σ ε α) s = .fail s := rfl

@[simp] theorem fault_apply (e : ε) (s : State β σ) :
    (fault e : Parser β σ ε α) s = .fault e s := rfl

@[simp] theorem aux_apply (s : State β σ) : (aux : Parser β σ ε σ) s = .ok s.aux s := rfl

@[simp] theorem modifyAux_apply (f : σ → σ) (s : State β σ) :
    (modifyAux f : Parser β σ ε Unit) s = .ok () ⟨s.cursor, f s.aux⟩ := rfl

/-- The next `n` tokens; refuses an input that has fewer. -/
def take (n : ℕ) : Parser β σ ε (List β) := fun s =>
  if h : n ≤ s.cursor.unread.length then
    .ok (s.cursor.unread.take n) ⟨s.cursor.advance n h, s.aux⟩
  else .fail s

theorem take_of_le {n : ℕ} {s : State β σ} (h : n ≤ s.cursor.unread.length) :
    (take n : Parser β σ ε (List β)) s =
      .ok (s.cursor.unread.take n) ⟨s.cursor.advance n h, s.aux⟩ := dif_pos h

theorem take_of_lt {n : ℕ} {s : State β σ} (h : s.cursor.unread.length < n) :
    (take n : Parser β σ ε (List β)) s = .fail s := dif_neg (by omega)

/-- What was taken is what is no longer there. -/
theorem take_eq_ok {n : ℕ} {s s' : State β σ} {bs : List β}
    (h : (take n : Parser β σ ε (List β)) s = .ok bs s') :
    s.cursor.unread = bs ++ s'.cursor.unread ∧ bs.length = n ∧ s'.aux = s.aux := by
  rcases Nat.lt_or_ge s.cursor.unread.length n with hn | hn
  · rw [take_of_lt hn] at h
    cases h
  · rw [take_of_le hn] at h
    cases h
    exact ⟨by simp, List.length_take_of_le hn, rfl⟩

/-- The next token; refuses an input that has none. -/
def next : Parser β σ ε β := fun s =>
  match h : s.cursor.unread with
  | [] => .fail s
  | b :: _ => .ok b ⟨s.cursor.advance 1 (by simp [h]), s.aux⟩

theorem next_of_nil {s : State β σ} (h : s.cursor.unread = []) :
    (next : Parser β σ ε β) s = .fail s := by
  unfold next
  split
  · rfl
  · simp_all

theorem next_of_cons {s : State β σ} {b : β} {bs : List β} (h : s.cursor.unread = b :: bs) :
    (next : Parser β σ ε β) s = .ok b ⟨s.cursor.advance 1
      (Cursor.length_le_unread (show s.cursor.unread = [b] ++ bs from h)), s.aux⟩ := by
  unfold next
  split
  · simp_all
  · rename_i h'
    rw [h] at h'
    cases h'
    rfl

theorem next_eq_ok {s s' : State β σ} {b : β} (h : (next : Parser β σ ε β) s = .ok b s') :
    s.cursor.unread = b :: s'.cursor.unread ∧ s'.aux = s.aux := by
  rcases hs : s.cursor.unread with _ | ⟨b', bs⟩
  · rw [next_of_nil hs] at h
    cases h
  · rw [next_of_cons hs] at h
    cases h
    exact ⟨by simp [hs], rfl⟩

/-- Go on with the parser that `k` chooses for the next token, without moving over it; refuses an
input that has none. -/
def ahead (k : β → Parser β σ ε α) : Parser β σ ε α := fun s =>
  match s.cursor.unread with
  | [] => .fail s
  | b :: _ => k b s

theorem ahead_of_nil {k : β → Parser β σ ε α} {s : State β σ} (h : s.cursor.unread = []) :
    ahead k s = .fail s := by
  rw [ahead, h]

theorem ahead_of_cons {k : β → Parser β σ ε α} {s : State β σ} {b : β} {bs : List β}
    (h : s.cursor.unread = b :: bs) : ahead k s = k b s := by
  rw [ahead, h]

/-- What `ahead` goes on with only ever runs where the token is the next one. -/
theorem ahead_congr {k k' : β → Parser β σ ε α}
    (h : ∀ b bs s, s.cursor.unread = b :: bs → k b s = k' b s) : ahead k = ahead k' := by
  funext s
  rcases hu : s.cursor.unread with _ | ⟨b, bs⟩
  · rw [ahead_of_nil hu, ahead_of_nil hu]
  · rw [ahead_of_cons hu, ahead_of_cons hu, h b bs s hu]

/-- Run `m`; when it refuses the input, let `g` set the auxiliary state from the one before the run
and the state after it. -/
def onFail (g : σ → State β σ → σ) (m : Parser β σ ε α) : Parser β σ ε α := fun s =>
  match m s with
  | .fail s' => .fail ⟨s'.cursor, g s.aux s'⟩
  | o => o

theorem onFail_of_fail {g : σ → State β σ → σ} {m : Parser β σ ε α} {s s' : State β σ}
    (h : m s = .fail s') : onFail g m s = .fail ⟨s'.cursor, g s.aux s'⟩ := by
  rw [onFail, h]

theorem onFail_eq_iff {g : σ → State β σ → σ} {m : Parser β σ ε α} {s : State β σ}
    {o : Outcome β σ ε α} (ho : ∀ s', o ≠ .fail s') : onFail g m s = o ↔ m s = o := by
  rw [onFail]
  cases hm : m s with
  | fail s' => exact ⟨fun h => absurd h.symm (ho _), fun h => absurd h.symm (ho _)⟩
  | ok a s' => rfl
  | fault e s' => rfl
  | exhausted => rfl

/-- Run `m` `n` times and collect the values. -/
def times (m : Parser β σ ε α) : ℕ → Parser β σ ε (List α)
  | 0 => pure []
  | n + 1 => m >>= fun a => times m n >>= fun as => pure (a :: as)

/-! ### Recursion -/

/-- `n` unfoldings of the recursion `F`. -/
def fixN (F : (ι → Parser β σ ε α) → ι → Parser β σ ε α) : ℕ → ι → Parser β σ ε α
  | 0 => fun _ _ => .exhausted
  | n + 1 => F (fixN F n)

/-- The recursion `F`, unfolded once more than there are unread tokens. -/
def fix (F : (ι → Parser β σ ε α) → ι → Parser β σ ε α) (i : ι) : Parser β σ ε α :=
  fun s => fixN F (s.cursor.unread.length + 1) i s

/-- One turn of a loop: `step` either goes round again with a new loop state or ends it. -/
def turn (step : ι → Parser β σ ε (ι ⊕ α)) (self : ι → Parser β σ ε α) (i : ι) :
    Parser β σ ε α :=
  step i >>= Sum.elim self pure

/-- The loop that repeats `step` until it ends it. -/
def iter (step : ι → Parser β σ ε (ι ⊕ α)) : ι → Parser β σ ε α := fix (turn step)

end Parser

end Parsing
