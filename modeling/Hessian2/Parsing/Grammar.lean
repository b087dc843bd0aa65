import Hessian2.Parsing.Sentences
import Mathlib.Order.FixedPoints

/-!
# Recursive grammars

A grammar says what a sentence is in terms of the shorter sentences in it.  Its sentences are the
least solution of that, and the only one; so they are what a recursive parser reads that follows the
grammar.

* `Reading` : which tokens stand for which value, and how the auxiliary state changes.
* `Grammar` : a form that is monotone, and in which every nested sentence is shorter.
* `Grammar.Sentence` : the least solution.
* `Grammar.eq_sentence` : **it is the only one.**
* `Parser.Turns` : the turns of a loop that goes on; `Parser.reads_iter_iff` : what a loop reads.
-/

namespace Parsing

/-- Between which auxiliary states which tokens stand for which value. -/
abbrev Reading (β σ α : Type) := σ → List β → α → σ → Prop

variable {β σ α : Type}

/-- The readings of fewer than `n` tokens. -/
def Reading.below (R : Reading β σ α) (n : ℕ) : Reading β σ α :=
  fun t bs a t' => bs.length < n ∧ R t bs a t'

/-- What a sentence is, given the sentences in it. -/
structure Grammar (β σ α : Type) where
  form : Reading β σ α → Reading β σ α
  mono : Monotone form
  /-- The sentences in a sentence are shorter. -/
  shorter : ∀ {R : Reading β σ α} {t : σ} {bs : List β} {a : α} {t' : σ},
    form R t bs a t' → form (R.below bs.length) t bs a t'

namespace Grammar

variable {G : Grammar β σ α}

/-- The sentences of a grammar. -/
def Sentence (G : Grammar β σ α) : Reading β σ α := OrderHom.lfp ⟨G.form, G.mono⟩

/-- **A grammar has no solution besides its sentences.** -/
theorem eq_sentence {R : Reading β σ α} (h : G.form R = R) : R = G.Sentence := by
  have hfix : G.form G.Sentence = G.Sentence := OrderHom.map_lfp ⟨G.form, G.mono⟩
  refine le_antisymm (fun t bs a t' hr => ?_) (OrderHom.lfp_le ⟨G.form, G.mono⟩ h.le)
  induction hn : bs.length using Nat.strong_induction_on generalizing t bs a t' with
  | _ n ih =>
    have hform : G.form R t bs a t' := by rwa [h]
    have hbelow : R.below bs.length ≤ G.Sentence := fun t₁ bs₁ a₁ t₁' hr₁ =>
      ih _ (hn ▸ hr₁.1) t₁ bs₁ a₁ t₁' hr₁.2 rfl
    rw [← hfix]
    exact G.mono hbelow t bs a t' (G.shorter hform)

end Grammar

/-! ### Sequences of sentences -/

namespace Parser

variable {R S : Reading β σ α} {t t' : σ} {bs : List β} {as : List α}

theorem Sequence.mono (h : R ≤ S) (hs : Sequence R t bs as t') : Sequence S t bs as t' := by
  induction hs with
  | nil t => exact .nil t
  | cons hr _ ih => exact .cons (h _ _ _ _ hr) ih

/-- The readings in a sequence are no longer than it. -/
theorem Sequence.restrict {n : ℕ} (hs : Sequence R t bs as t') (hn : bs.length < n) :
    Sequence (R.below n) t bs as t' := by
  induction hs with
  | nil t => exact .nil t
  | cons hr _ ih =>
    rw [List.length_append] at hn
    exact .cons ⟨by omega, hr⟩ (ih (by omega))

/-! ### Loops -/

variable {ε ι : Type} {E : ε → Prop} {step : ι → Parser β σ ε (ι ⊕ α)} {i : ι} {a : α}

/-- Turns of a loop, one reading after the other, none of them the last. -/
inductive Turns (R : ι → Reading β σ (ι ⊕ α)) : ι → σ → List β → ι → σ → Prop where
  | nil (i : ι) (t : σ) : Turns R i t [] i t
  | cons {i j k : ι} {t t₁ t' : σ} {bs bs' : List β} (h : R i t bs (.inl j) t₁)
    (hs : Turns R j t₁ bs' k t') : Turns R i t (bs ++ bs') k t'

/-- **A loop reads turns that go on, and a last one.** -/
theorem reads_iter_iff (hd : ∀ i, Delimited E (step i)) (hp : Progresses step) :
    Reads (iter step i) t bs a t' ↔ ∃ front last j t₁, bs = front ++ last ∧
      Turns (fun i => Reads (step i)) i t front j t₁ ∧ Reads (step j) t₁ last (.inr a) t' := by
  constructor
  · intro h
    obtain ⟨c, hrun, hc⟩ := h.ofList
    -- along the run, each turn reads its part of the input
    have hloop := iter_ok_induct (Q := fun i s a s' => ∃ front last j t₁,
      s.cursor.unread = front ++ (last ++ s'.cursor.unread) ∧
        Turns (fun i => Reads (step i)) i s.aux front j t₁ ∧
        Reads (step j) t₁ last (.inr a) s'.aux) ?_ ?_ hrun
    · obtain ⟨front, last, j, t₁, hu, hturns, hlast⟩ := hloop
      rw [hc, List.append_nil] at hu
      exact ⟨front, last, j, t₁, hu, hturns, hlast⟩
    · rintro i s j s₁ a s' hstep ⟨front, last, k, t₁, hu, hturns, hlast⟩
      obtain ⟨first, rest, hu₁, hr, hs₁⟩ := (hd i).ok_iff.1 hstep
      rw [hs₁, unread_advance_append hu₁] at hu
      exact ⟨first ++ front, last, k, t₁, by rw [hu₁, hu, List.append_assoc], .cons hr hturns, hlast⟩
    · intro i s a s' hstep
      obtain ⟨last, rest, hu, hr, hs'⟩ := (hd i).ok_iff.1 hstep
      refine ⟨[], last, i, s.aux, ?_, .nil i _, hr⟩
      rw [hs', unread_advance_append hu, List.nil_append, hu]
  · rintro ⟨front, last, j, t₁, rfl, hturns, hlast⟩
    -- the turns are run from the first one on
    induction hturns with
    | nil i t =>
      rw [iter_eq hd hp]
      exact hlast.bind_nil (f := Sum.elim (iter step) pure) (reads_pure a t')
    | cons h hs ih =>
      rw [iter_eq hd hp, List.append_assoc]
      exact h.bind (f := Sum.elim (iter step) pure) (ih hlast)

end Parser

end Parsing
