import Hessian2.Parsing.Grammar

/-!
# How a parser stops the program

The inputs on which a delimited parser ends in a fault, which follow the structure of the parser as
its readings do.

* `Parser.Stops` : the parser stops the program on every input that starts with these tokens.
* `Parser.Delimited.stops_iff` : the runs that end in a fault.
* `Parser.stops_bind_iff`, `Parser.stops_ahead_iff` and the other rules : what stops a composed parser.
* `Parser.stops_times_iff`, `Parser.stops_iter_iff` : what stops a loop.
-/

namespace Parsing

namespace Parser

variable {β σ ε ι α γ : Type} {E : ε → Prop} {m : Parser β σ ε α} {t t' : σ} {bs : List β} {e : ε}

/-- From `t`, `m` stops the program on every input that starts with `bs`. -/
def Stops (m : Parser β σ ε α) (t : σ) (bs : List β) : Prop := ∃ e, Raises m t bs e

/-- **The runs of a delimited parser that end in a fault.** -/
theorem Delimited.stops_iff (hm : Delimited E m) {s : State β σ} :
    (∃ e s', m s = .fault e s') ↔ Stops m s.aux s.cursor.unread := by
  constructor
  · rintro ⟨e, s', h⟩
    exact ⟨e, (hm.fault (c := s.cursor) h).2.2⟩
  · rintro ⟨e, h⟩
    exact ⟨e, h s.cursor [] (List.append_nil _).symm⟩

/-- A parser that stops the program stops it on these tokens alone. -/
theorem Stops.ofList (h : Stops m t bs) : ∃ e s', m ⟨.ofList bs, t⟩ = .fault e s' := by
  obtain ⟨e, h⟩ := h
  exact ⟨e, h (.ofList bs) [] (List.append_nil bs).symm⟩

theorem not_stops (hm : Delimited (fun _ => False) m) : ¬ Stops m t bs := by
  intro h
  obtain ⟨e, s', hrun⟩ := h.ofList
  exact (hm.fault hrun).1

/-- **What stops two parsers stops the first, or the second behind what the first reads.** -/
theorem stops_bind_iff {f : α → Parser β σ ε γ} (hm : Delimited E m) (hf : ∀ a, Delimited E (f a)) :
    Stops (m >>= f) t bs ↔ Stops m t bs ∨ ∃ front rest a t₁, bs = front ++ rest ∧
      Reads m t front a t₁ ∧ Stops (f a) t₁ rest := by
  constructor
  · intro h
    obtain ⟨e, s', hrun⟩ := h.ofList
    rcases bind_eq_fault.1 hrun with hrun | ⟨a, s₁, h₁, h₂⟩
    · exact .inl (hm.stops_iff.1 ⟨e, s', hrun⟩)
    · obtain ⟨front, rest, hu, hr, hs₁⟩ := hm.ok_iff.1 h₁
      have hrest := (hf a).stops_iff.1 ⟨e, s', h₂⟩
      rw [hs₁, unread_advance_append hu] at hrest
      exact .inr ⟨front, rest, a, s₁.aux, hu, hr, hrest⟩
  · rintro (⟨e, h⟩ | ⟨front, rest, a, t₁, rfl, hr, e, h⟩)
    · exact ⟨e, h.bind_left f⟩
    · exact ⟨e, Raises.bind_right hr h⟩

theorem stops_map_iff {f : α → γ} (hm : Delimited E m) :
    Stops (m >>= fun a => pure (f a)) t bs ↔ Stops m t bs := by
  rw [stops_bind_iff hm fun a => .pure _]
  refine or_iff_left ?_
  rintro ⟨front, rest, a, t₁, -, -, h⟩
  exact not_stops (.pure _) h

theorem stops_ahead_iff {k : β → Parser β σ ε α} :
    Stops (ahead k) t bs ↔ ∃ b rest, bs = b :: rest ∧ Stops (k b) t bs := by
  cases bs with
  | nil =>
    constructor
    · intro h
      obtain ⟨e, s', hrun⟩ := h.ofList
      cases hrun
    · rintro ⟨b, rest, ⟨⟩, -⟩
  | cons b rest =>
    have hrun {c : Cursor β} {rest' : List β} (hc : c.unread = b :: rest ++ rest') :
        ahead k ⟨c, t⟩ = k b ⟨c, t⟩ := ahead_of_cons hc
    constructor
    · rintro ⟨e, h⟩
      exact ⟨b, rest, rfl, e, fun c rest' hc => hrun hc ▸ h c rest' hc⟩
    · rintro ⟨b', rest', hbs, e, h⟩
      cases hbs
      exact ⟨e, fun c rest' hc => (hrun hc).symm ▸ h c rest' hc⟩

/-- **A counted loop stops the program behind a shorter sequence.** -/
theorem stops_times_iff (hm : Delimited E m) {n : ℕ} : Stops (times m n) t bs ↔
    ∃ front rest as t', bs = front ++ rest ∧ Sequence (Reads m) t front as t' ∧ as.length < n ∧
      Stops m t' rest := by
  constructor
  · intro h
    obtain ⟨e, s', hrun⟩ := h.ofList
    obtain ⟨front, rest, as, t', hu, hs, hlen, hr⟩ := times_fault hm hrun
    exact ⟨front, rest, as, t', hu, hs, hlen, e, hr⟩
  · rintro ⟨front, rest, as, t', rfl, hs, hlen, e, hr⟩
    exact ⟨e, hs.times_raises hlen hr⟩

section Loops

variable {step : ι → Parser β σ ε (ι ⊕ α)} {i : ι}

/-- A loop that stops the program has taken turns before. -/
theorem iter_fault (hd : ∀ i, Delimited E (step i)) {s s' : State β σ}
    (h : iter step i s = .fault e s') : ∃ front rest j t₁, s.cursor.unread = front ++ rest ∧
      Turns (fun i => Reads (step i)) i s.aux front j t₁ ∧ Raises (step j) t₁ rest e := by
  refine iter_induct (Q := fun i s o => ∀ s', o = .fault e s' → ∃ front rest j t₁,
    s.cursor.unread = front ++ rest ∧ Turns (fun i => Reads (step i)) i s.aux front j t₁ ∧
      Raises (step j) t₁ rest e) (fun _ _ _ h => by cases h) (fun i s => ?_) i s s' h
  cases hstep : step i s with
  | ok r s₁ =>
    cases r with
    | inl j =>
      intro o ho s' hs'
      obtain ⟨front, rest, k, t₁, hu, hturns, hraises⟩ := ho s' hs'
      obtain ⟨first, rest₁, hu₁, hr, hs₁⟩ := (hd i).ok_iff.1 hstep
      rw [hs₁, unread_advance_append hu₁] at hu
      exact ⟨first ++ front, rest, k, t₁, by rw [hu₁, hu, List.append_assoc], .cons hr hturns,
        hraises⟩
    | inr a => rintro s' ⟨⟩
  | fail s₁ => rintro s' ⟨⟩
  | fault e₁ s₁ =>
    rintro s' ⟨⟩
    exact ⟨[], _, i, s.aux, rfl, .nil i _, ((hd i).fault (c := s.cursor) hstep).2.2⟩
  | exhausted => trivial

/-- What stops the program behind turns that go on stops the loop. -/
theorem Turns.iter_raises (hd : ∀ i, Delimited E (step i)) (hp : Progresses step) {j : ι}
    {rest : List β} (h : Turns (fun i => Reads (step i)) i t bs j t') (hr : Raises (step j) t' rest e) :
    Raises (iter step i) t (bs ++ rest) e := by
  induction h with
  | nil i t =>
    rw [iter_eq hd hp]
    exact hr.bind_left _
  | cons h hs ih =>
    rw [iter_eq hd hp, List.append_assoc]
    exact Raises.bind_right (f := Sum.elim (iter step) pure) h (ih hr)

/-- **A loop stops the program behind turns that go on.** -/
theorem stops_iter_iff (hd : ∀ i, Delimited E (step i)) (hp : Progresses step) :
    Stops (iter step i) t bs ↔ ∃ front rest j t₁, bs = front ++ rest ∧
      Turns (fun i => Reads (step i)) i t front j t₁ ∧ Stops (step j) t₁ rest := by
  constructor
  · intro h
    obtain ⟨e, s', hrun⟩ := h.ofList
    obtain ⟨front, rest, j, t₁, hu, hturns, hr⟩ := iter_fault hd hrun
    exact ⟨front, rest, j, t₁, hu, hturns, e, hr⟩
  · rintro ⟨front, rest, j, t₁, rfl, hturns, e, hr⟩
    exact ⟨e, hturns.iter_raises hd hp hr⟩

end Loops

end Parser

end Parsing
