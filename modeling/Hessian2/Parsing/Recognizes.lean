import Hessian2.Parsing.Grammar

/-!
# Recognizers

Parsers whose runs that end in a value are known, whatever becomes of the other runs.

* `Parser.Recognizes` : the runs that end in a value are those on the readings.
* `Delimited.recognizes`, `Recognizes.pure`, `Recognizes.bind` : the rules.
* `Outcome.Breaks` : a run that is refused, or that stops the program.
* `Recognizes.breaks_bind_iff` : where a composed parser breaks off.
-/

namespace Parsing

variable {β σ ε α γ : Type} {E : ε → Prop}

/-- The run is refused, or stops the program. -/
def Outcome.Breaks (stops : Bool) : Outcome β σ ε α → Prop
  | .fail _ => stops = false
  | .fault _ _ => stops = true
  | _ => False

namespace Parser

/-- The runs that end in a value are those that move over a reading of it. -/
def Recognizes (m : Parser β σ ε α) (S : Reading β σ α) : Prop :=
  ∀ ⦃s a s'⦄, m s = .ok a s' ↔ ∃ (bs rest : List β) (h : s.cursor.unread = bs ++ rest),
    S s.aux bs a s'.aux ∧ s'.cursor = s.cursor.advance bs.length (Cursor.length_le_unread h)

theorem Delimited.recognizes {m : Parser β σ ε α} (hm : Delimited E m) {S : Reading β σ α}
    (hS : ∀ {t bs a t'}, Reads m t bs a t' ↔ S t bs a t') : Recognizes m S := by
  intro s a s'
  rw [hm.ok_iff]
  refine exists_congr fun bs => exists_congr fun rest => exists_congr fun h => ?_
  rw [hS]
  refine and_congr_right fun _ => ⟨fun hs' => congrArg State.cursor hs', fun hc => ?_⟩
  rw [← hc]

namespace Recognizes

theorem pure (a : α) :
    Recognizes (Pure.pure a : Parser β σ ε α) fun t bs b t' => bs = [] ∧ b = a ∧ t' = t := by
  intro s b s'
  constructor
  · rintro ⟨⟩
    exact ⟨[], s.cursor.unread, rfl, ⟨rfl, rfl, rfl⟩, rfl⟩
  · rintro ⟨bs, rest, h, ⟨rfl, rfl, ht⟩, hc⟩
    obtain ⟨c, t⟩ := s'
    obtain rfl : t = s.aux := ht
    obtain rfl : c = s.cursor := hc
    rfl

/-- One reading, and then another one. -/
theorem bind {m : Parser β σ ε α} {f : α → Parser β σ ε γ} {S : Reading β σ α}
    {S' : α → Reading β σ γ} (hm : Recognizes m S) (hf : ∀ a, Recognizes (f a) (S' a)) :
    Recognizes (m >>= f) fun t cs c t' =>
      ∃ bs bs' a t₁, cs = bs ++ bs' ∧ S t bs a t₁ ∧ S' a t₁ bs' c t' := by
  intro s c s'
  rw [bind_eq_ok]
  constructor
  · rintro ⟨a, s₁, h₁, h₂⟩
    obtain ⟨bs, rest, hu, hS, hc⟩ := hm.1 h₁
    obtain ⟨bs', rest', hu', hS', hc'⟩ := (hf a).1 h₂
    have hrest : s₁.cursor.unread = rest := by rw [hc, unread_advance_append hu]
    have hall : s.cursor.unread = (bs ++ bs') ++ rest' := by
      rw [hu, ← hrest, hu', List.append_assoc]
    refine ⟨bs ++ bs', rest', hall, ⟨bs, bs', a, _, rfl, hS, hS'⟩, ?_⟩
    rw [hc']
    ext1 <;> simp [hc, Nat.add_assoc]
  · rintro ⟨cs, rest, hu, ⟨bs, bs', a, t₁, rfl, hS, hS'⟩, hc⟩
    have hu₁ : s.cursor.unread = bs ++ (bs' ++ rest) := by rw [hu, List.append_assoc]
    have hrest := unread_advance_append hu₁
    refine ⟨a, ⟨s.cursor.advance bs.length (Cursor.length_le_unread hu₁), t₁⟩,
      hm.2 ⟨bs, _, hu₁, hS, rfl⟩, (hf a).2 ⟨bs', rest, hrest, hS', ?_⟩⟩
    rw [hc]
    ext1 <;> simp [Nat.add_assoc]

theorem congr {m : Parser β σ ε α} {S S' : Reading β σ α} (h : Recognizes m S)
    (hS : ∀ {t bs a t'}, S t bs a t' ↔ S' t bs a t') : Recognizes m S' := by
  intro s a s'
  simp only [@h s a s', hS]

/-- Where one parser after another breaks off: in the first one, or behind a reading of it. -/
theorem breaks_bind_iff {m : Parser β σ ε α} {f : α → Parser β σ ε γ} {S : Reading β σ α}
    (hm : Recognizes m S) {stops : Bool} {Q : α → σ → List β → Prop}
    (hf : ∀ a s, (f a s).Breaks stops ↔ Q a s.aux s.cursor.unread) {s : State β σ} :
    ((m >>= f) s).Breaks stops ↔ (m s).Breaks stops ∨
      ∃ bs rest a t', s.cursor.unread = bs ++ rest ∧ S s.aux bs a t' ∧ Q a t' rest := by
  have hfirst : ((m >>= f) s).Breaks stops ↔ (m s).Breaks stops ∨
      ∃ a s', m s = .ok a s' ∧ (f a s').Breaks stops := by
    rw [bind_apply]
    cases m s <;> simp [Outcome.andThen, Outcome.Breaks]
  rw [hfirst]
  refine or_congr_right ⟨?_, ?_⟩
  · rintro ⟨a, s', h, hbreaks⟩
    obtain ⟨bs, rest, hu, hS, hc⟩ := hm.1 h
    have hrest : s'.cursor.unread = rest := by rw [hc, unread_advance_append hu]
    exact ⟨bs, rest, a, s'.aux, hu, hS, hrest ▸ (hf a s').1 hbreaks⟩
  · rintro ⟨bs, rest, a, t', hu, hS, hQ⟩
    refine ⟨a, ⟨s.cursor.advance bs.length (Cursor.length_le_unread hu), t'⟩,
      hm.2 ⟨bs, rest, hu, hS, rfl⟩, (hf a _).2 ?_⟩
    rwa [unread_advance_append hu]

end Recognizes

end Parser

end Parsing
