import Mathlib.Data.Fintype.Card
import Mathlib.Data.Set.Finite.Basic
import Mathlib.Logic.Relation

/-!
# Following a relation to the end

A traversal that follows a relation without noting where it has been.

* `Descent.Within` : all paths from here end within the given number of steps.
* `Descent.exists_within_iff` : **in a finite set that is closed under the relation, the paths end
  exactly if the relation has no cycle there.**
-/

namespace Descent

open Relation

variable {α : Type} {R : α → α → Prop} {Ok : α → Prop}

/-- Every path from `a` passes only what is `Ok`, and ends within `n` steps. -/
def Within (R : α → α → Prop) (Ok : α → Prop) : ℕ → α → Prop
  | 0, _ => False
  | n + 1, a => Ok a ∧ ∀ b, R a b → Within R Ok n b

namespace Within

theorem ok {n : ℕ} {a : α} (h : Within R Ok n a) : Ok a := by
  cases n with
  | zero => exact h.elim
  | succ n => exact h.1

theorem succ {n : ℕ} {a : α} (h : Within R Ok n a) : Within R Ok (n + 1) a := by
  induction n generalizing a with
  | zero => exact h.elim
  | succ n ih => exact ⟨h.1, fun b hb => ih (h.2 b hb)⟩

theorem mono {n m : ℕ} {a : α} (hnm : n ≤ m) (h : Within R Ok n a) : Within R Ok m a := by
  induction hnm with
  | refl => exact h
  | step _ ih => exact ih.succ

/-- Along a path the number of steps decreases. -/
theorem lt_of_transGen {a b : α} (h : TransGen R a b) {n : ℕ} (ha : Within R Ok n a) :
    ∃ m < n, Within R Ok m b := by
  have step {n : ℕ} {a b : α} (hR : R a b) (ha : Within R Ok n a) : ∃ m < n, Within R Ok m b := by
    cases n with
    | zero => exact ha.elim
    | succ n => exact ⟨n, Nat.lt_succ_self n, ha.2 b hR⟩
  induction h with
  | single hR => exact step hR ha
  | tail _ hR ih =>
    obtain ⟨m, hm, hb⟩ := ih
    obtain ⟨k, hk, hc⟩ := step hR hb
    exact ⟨k, hk.trans hm, hc⟩

/-- From a cycle the paths do not end. -/
theorem not_of_cycle {a : α} (h : TransGen R a a) (n : ℕ) : ¬ Within R Ok n a := by
  induction n using Nat.strong_induction_on with
  | _ n ih =>
    intro ha
    obtain ⟨m, hm, ha'⟩ := ha.lt_of_transGen h
    exact ih m hm ha'

/-- Finitely many things that happen within some number of steps happen within one number. -/
theorem exists_bound {p : ℕ → α → Prop} (hmono : ∀ {n m a}, n ≤ m → p n a → p m a) {l : List α}
    (h : ∀ a ∈ l, ∃ n, p n a) : ∃ n, ∀ a ∈ l, p n a := by
  induction l with
  | nil => exact ⟨0, nofun⟩
  | cons a l ih =>
    rw [List.forall_mem_cons] at h
    obtain ⟨n, hn⟩ := h.1
    obtain ⟨m, hm⟩ := ih h.2
    refine ⟨max n m, List.forall_mem_cons.2 ⟨hmono (le_max_left n m) hn, fun b hb => ?_⟩⟩
    exact hmono (le_max_right n m) (hm b hb)

/-- Where a finite set has no cycle, all paths from it end. -/
theorem exists_of_acyclic {l : List α} (hclosed : ∀ a ∈ l, ∀ b, R a b → b ∈ l) (hok : ∀ a ∈ l, Ok a)
    (hacyclic : ∀ a ∈ l, ¬ TransGen R a a) : ∀ a ∈ l, ∃ n, Within R Ok n a := by
  let r : {a // a ∈ l} → {a // a ∈ l} → Prop := fun b a => TransGen R a b
  have hfinite : Finite {a // a ∈ l} := l.finite_toSet
  have htrans : IsTrans {a // a ∈ l} r := ⟨fun _ _ _ hab hbc => TransGen.trans hbc hab⟩
  have hirrefl : Std.Irrefl r := ⟨fun a => hacyclic a a.2⟩
  have hwf : WellFounded r := Finite.wellFounded_of_trans_of_irrefl r
  intro a ha
  induction h : (⟨a, ha⟩ : {a // a ∈ l}) using hwf.induction generalizing a with
  | _ x ih =>
    subst h
    have hsteps : ∀ b ∈ l, ∃ n, R a b → Within R Ok n b := by
      intro b hb
      by_cases hR : R a b
      · obtain ⟨n, hn⟩ := ih ⟨b, hb⟩ (.single hR) b hb rfl
        exact ⟨n, fun _ => hn⟩
      · exact ⟨0, fun hR' => absurd hR' hR⟩
    obtain ⟨n, hn⟩ := exists_bound (fun hnm h hR => (h hR).mono hnm) hsteps
    exact ⟨n + 1, hok a ha, fun b hR => hn b (hclosed a ha b hR) hR⟩

end Within

/-- **The paths from a finite closed set end exactly if they pass only what is `Ok`, and no
cycle.** -/
theorem exists_within_iff {l : List α} (hclosed : ∀ a ∈ l, ∀ b, R a b → b ∈ l) :
    (∀ a ∈ l, ∃ n, Within R Ok n a) ↔ ∀ a ∈ l, Ok a ∧ ¬ TransGen R a a := by
  constructor
  · intro h a ha
    obtain ⟨n, hn⟩ := h a ha
    exact ⟨hn.ok, fun hcycle => Within.not_of_cycle hcycle n hn⟩
  · intro h
    exact Within.exists_of_acyclic hclosed (fun a ha => (h a ha).1) fun a ha => (h a ha).2

end Descent
