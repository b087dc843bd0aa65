import Mathlib.Data.List.Basic
import Mathlib.Data.List.Forall2

/-!
# Matching the elements of two lists

Lists whose elements are compared by a relation or a test that at most one element passes.

* `Matching.find?_eq_some_of_mem` : the one element that passes a test is the one that is found.
* `Matching.Covers` : every element of one list is related to one of the other.
* `Matching.Covers.length_le`, `Matching.Covers.flip` : the pigeonhole principle.
* `Matching.forall₂_congr` : elementwise relations that agree on the elements.
-/

namespace Matching

variable {α β : Type}

/-- If no two elements pass the test, the one that does is found. -/
theorem find?_eq_some_of_mem {p : α → Bool} {l : List α} (h : l.Pairwise fun a b => ¬ (p a ∧ p b))
    {a : α} (ha : a ∈ l) (hp : p a = true) : l.find? p = some a := by
  induction l with
  | nil => cases ha
  | cons b l ih =>
    rw [List.pairwise_cons] at h
    rcases List.mem_cons.1 ha with rfl | ha
    · exact List.find?_cons_of_pos hp
    · rw [List.find?_cons_of_neg fun hb => h.1 a ha ⟨hb, hp⟩]
      exact ih h.2 ha

/-- Tests that agree on the elements of a list. -/
theorem all_congr {p q : α → Bool} {l : List α} (h : ∀ a ∈ l, p a = q a) : l.all p = l.all q := by
  rw [Bool.eq_iff_iff, List.all_eq_true, List.all_eq_true]
  exact forall₂_congr fun a ha => by rw [h a ha]

/-- Every element of `as` is related to one of `bs`. -/
def Covers (R : α → β → Prop) (as : List α) (bs : List β) : Prop := ∀ a ∈ as, ∃ b ∈ bs, R a b

namespace Covers

variable {R : α → β → Prop} {as : List α} {bs : List β}

theorem congr {R' : α → β → Prop} (h : ∀ a ∈ as, ∀ b ∈ bs, R a b ↔ R' a b) :
    Covers R as bs ↔ Covers R' as bs :=
  forall₂_congr fun a ha => exists_congr fun b => and_congr_right fun hb => h a ha b hb

/-- What is related to the first element is related to no other, so it can be taken away. -/
theorem tail {a : α} {before after : List β} {b : β} (h : Covers R (a :: as) (before ++ b :: after))
    (hb : ∀ a' ∈ as, ¬ R a' b) : Covers R as (before ++ after) := by
  intro a' ha'
  obtain ⟨b', hb', hR⟩ := h a' (List.mem_cons_of_mem a ha')
  refine ⟨b', ?_, hR⟩
  rw [List.mem_append, List.mem_cons] at hb'
  rw [List.mem_append]
  refine hb'.imp_right fun hb' => hb'.resolve_left ?_
  rintro rfl
  exact hb a' ha' hR

/-- If no two elements of `as` are related to the same one, then `as` is not longer, and if it is
not shorter either, every element of `bs` is related to one of `as`. -/
theorem pigeonhole (h : Covers R as bs) (hp : as.Pairwise fun a a' => ∀ b ∈ bs, R a b → ¬ R a' b) :
    as.length ≤ bs.length ∧ (bs.length ≤ as.length → ∀ b ∈ bs, ∃ a ∈ as, R a b) := by
  induction as generalizing bs with
  | nil =>
    refine ⟨Nat.zero_le _, fun hlen b hb => ?_⟩
    rw [List.length_eq_zero_iff.1 (Nat.le_zero.1 hlen)] at hb
    cases hb
  | cons a as ih =>
    rw [List.pairwise_cons] at hp
    -- take out `a` and an element that it covers; nothing else covers that one
    obtain ⟨b, hb, hR⟩ := h a List.mem_cons_self
    obtain ⟨before, after, rfl⟩ := List.append_of_mem hb
    have hsub : ∀ b' ∈ before ++ after, b' ∈ before ++ b :: after := by
      intro b' hb'
      rw [List.mem_append] at hb'
      exact List.mem_append.2 (hb'.imp_right (List.mem_cons_of_mem b))
    obtain ⟨hle, hall⟩ := ih (h.tail fun a' ha' => hp.1 a' ha' b hb hR)
      (hp.2.imp fun hne b' hb' => hne b' (hsub b' hb'))
    rw [List.length_append] at hle hall
    rw [List.length_append, List.length_cons, List.length_cons]
    refine ⟨by omega, fun hlen b' hb' => ?_⟩
    rw [List.mem_append, List.mem_cons] at hb'
    by_cases hbb : b' = b
    · exact ⟨a, List.mem_cons_self, hbb ▸ hR⟩
    · have hrest : b' ∈ before ++ after :=
        List.mem_append.2 (hb'.imp_right fun hb' => hb'.resolve_left hbb)
      obtain ⟨a', ha', hR'⟩ := hall (by omega) b' hrest
      exact ⟨a', List.mem_cons_of_mem a ha', hR'⟩

theorem length_le (h : Covers R as bs) (hp : as.Pairwise fun a a' => ∀ b ∈ bs, R a b → ¬ R a' b) :
    as.length ≤ bs.length := (h.pigeonhole hp).1

theorem flip (h : Covers R as bs) (hp : as.Pairwise fun a a' => ∀ b ∈ bs, R a b → ¬ R a' b)
    (hlen : bs.length ≤ as.length) : Covers (fun b a => R a b) bs as := (h.pigeonhole hp).2 hlen

end Covers

/-- Elementwise relations that agree on the elements. -/
theorem forall₂_congr {R R' : α → β → Prop} {as : List α} {bs : List β}
    (h : ∀ a ∈ as, ∀ b ∈ bs, R a b ↔ R' a b) : List.Forall₂ R as bs ↔ List.Forall₂ R' as bs := by
  induction as generalizing bs with
  | nil => rw [List.forall₂_nil_left_iff, List.forall₂_nil_left_iff]
  | cons a as ih =>
    cases bs with
    | nil => exact ⟨nofun, nofun⟩
    | cons b bs =>
      rw [List.forall₂_cons, List.forall₂_cons, h a List.mem_cons_self b List.mem_cons_self,
        ih fun a ha b hb => h a (List.mem_cons_of_mem _ ha) b (List.mem_cons_of_mem _ hb)]

/-- An elementwise relation is transitive if it is on the elements of the first list. -/
theorem forall₂_trans {R : α → α → Prop} {as bs cs : List α}
    (h : ∀ a ∈ as, ∀ b c, R a b → R b c → R a c) (hab : List.Forall₂ R as bs)
    (hbc : List.Forall₂ R bs cs) : List.Forall₂ R as cs := by
  induction hab generalizing cs with
  | nil =>
    cases hbc
    exact .nil
  | cons hR _ ih =>
    cases hbc with
    | cons hR' hbc =>
      rw [List.forall_mem_cons] at h
      exact .cons (h.1 _ _ hR hR') (ih h.2 hbc)

end Matching
