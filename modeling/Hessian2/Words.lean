import Mathlib.Data.List.Basic
import Mathlib.Tactic.Common

/-!
# Words with a lead

Sequences of words over an alphabet in which the first letter of a word, its lead, decides how long
the word is, while the other letters are arbitrary.

* `Words.Split width n bs` : `bs` is a sequence of `n` words; a letter of width `0` is no lead.
* `Words.scan width` : one pass over letters that counts the words that begin in them and the
  letters that the last word lacks.
* `Words.split_of_scan`, `Words.scan_of_split` : a scanned part and the words it is made of.
* `Words.leads` : the leads of a sequence of words.
* `Words.IsWord`, `Words.split_iff_words` : a sequence of words as the list of its words.
-/

namespace Words

variable {α : Type} {width : α → ℕ}

/-- `bs` is a sequence of `n` words. -/
inductive Split (width : α → ℕ) : ℕ → List α → Prop where
  | nil : Split width 0 []
  | cons {n : ℕ} {b : α} {tail bs : List α} (hb : width b = tail.length + 1)
      (h : Split width n bs) : Split width (n + 1) (b :: (tail ++ bs))

/-- The leads of the words that begin in `bs`, behind the `skip` letters that end the word before
them, and how many letters the last word lacks.  `none` if a letter in the place of a lead is not
one. -/
def scan (width : α → ℕ) : ℕ → List α → Option (List α × ℕ)
  | skip, [] => some ([], skip)
  | skip + 1, _ :: bs => scan width skip bs
  | 0, b :: bs =>
    if width b = 0 then none
    else (scan width (width b - 1) bs).map fun r => (b :: r.1, r.2)

theorem Split.length_le {n : ℕ} {bs : List α} (h : Split width n bs) : n ≤ bs.length := by
  induction h with
  | nil => exact Nat.le_refl 0
  | cons hb h ih => simp only [List.length_cons, List.length_append]; omega

theorem Split.append {m n : ℕ} {as bs : List α} (ha : Split width m as) (hb : Split width n bs) :
    Split width (m + n) (as ++ bs) := by
  induction ha with
  | nil => simpa using hb
  | cons hw h ih =>
    rw [Nat.succ_add, List.cons_append, List.append_assoc]
    exact .cons hw ih

theorem split_zero {bs : List α} : Split width 0 bs ↔ bs = [] := by
  constructor
  · intro h; cases h; rfl
  · rintro rfl; exact .nil

/-- The first `m` of `m + n` words. -/
theorem Split.of_add {n : ℕ} : ∀ {m : ℕ} {bs : List α}, Split width (m + n) bs →
    ∃ as cs, bs = as ++ cs ∧ Split width m as ∧ Split width n cs
  | 0, bs, h => ⟨[], bs, rfl, .nil, by rwa [Nat.zero_add] at h⟩
  | m + 1, bs, h => by
    rw [Nat.succ_add] at h
    cases h with
    | @cons _ b tail bs hb h =>
      obtain ⟨as, cs, rfl, ha, hc⟩ := of_add h
      exact ⟨b :: (tail ++ as), cs, by simp, .cons hb ha, hc⟩

/-- A scanned part, with the letters that its last word lacks, is a sequence of words. -/
theorem split_of_scan {skip excess : ℕ} {bs leads cs : List α}
    (h : scan width skip bs = some (leads, excess)) (hc : cs.length = excess) :
    ∃ ts ws, bs ++ cs = ts ++ ws ∧ ts.length = skip ∧ Split width leads.length ws := by
  induction bs generalizing skip leads with
  | nil =>
    rw [scan] at h
    cases h
    exact ⟨cs, [], by simp, hc, .nil⟩
  | cons b bs ih =>
    cases skip with
    | succ skip =>
      rw [scan] at h
      obtain ⟨ts, ws, he, ht, hs⟩ := ih h
      exact ⟨b :: ts, ws, by simp [he], by simp [ht], hs⟩
    | zero =>
      rw [scan] at h
      split at h
      · cases h
      · next hb =>
        obtain ⟨⟨leads', excess'⟩, h', heq⟩ := Option.map_eq_some_iff.1 h
        cases heq
        obtain ⟨ts, ws, he, ht, hs⟩ := ih h'
        exact ⟨[], b :: (ts ++ ws), by simp [he], rfl, .cons (by omega) hs⟩

/-- Scanning the beginning of a sequence of words succeeds and counts the words that begin
there. -/
theorem scan_of_split {skip n : ℕ} {bs ts ws rest : List α} (hs : Split width n ws)
    (ht : ts.length = skip) (h : ts ++ ws = bs ++ rest) :
    ∃ leads cs ws', scan width skip bs = some (leads, cs.length) ∧ rest = cs ++ ws' ∧
      leads.length ≤ n ∧ Split width (n - leads.length) ws' := by
  induction bs generalizing skip n ts ws with
  | nil => exact ⟨[], ts, ws, by rw [scan, ht], by simpa using h.symm, Nat.zero_le _, hs⟩
  | cons b bs ih =>
    cases ts with
    | cons t ts =>
      simp only [List.cons_append, List.cons.injEq] at h
      obtain ⟨leads, cs, ws', hscan, hrest⟩ := ih hs rfl h.2
      exact ⟨leads, cs, ws', by rw [← ht, List.length_cons, scan, hscan], hrest⟩
    | nil =>
      cases hs with
      | nil => cases h
      | @cons n c tail ws hw hs =>
        simp only [List.nil_append, List.cons_append, List.cons.injEq] at h
        obtain ⟨rfl, h⟩ := h
        obtain ⟨leads, cs, ws', hscan, hrest, hle, hs'⟩ := ih hs rfl h
        refine ⟨c :: leads, cs, ws', ?_, hrest, by simpa using hle, by simpa using hs'⟩
        have htail : width c - 1 = tail.length := by omega
        rw [← ht, List.length_nil, scan, if_neg (by omega), htail, hscan]
        rfl

theorem leads_pos {b : α} {bs leads : List α} {excess : ℕ}
    (h : scan width 0 (b :: bs) = some (leads, excess)) : 0 < leads.length := by
  rw [scan] at h
  split at h
  · cases h
  · obtain ⟨r, -, heq⟩ := Option.map_eq_some_iff.1 h
    cases heq
    exact Nat.succ_pos _

/-- No more words begin than there are letters. -/
theorem leads_le {skip excess : ℕ} {bs leads : List α} (h : scan width skip bs = some (leads, excess)) :
    leads.length ≤ bs.length := by
  induction bs generalizing skip leads with
  | nil => rw [scan] at h; cases h; exact Nat.le_refl 0
  | cons b bs ih =>
    cases skip with
    | succ skip => rw [scan] at h; exact Nat.le_succ_of_le (ih h)
    | zero =>
      rw [scan] at h
      split at h
      · cases h
      · obtain ⟨r, h', heq⟩ := Option.map_eq_some_iff.1 h
        cases heq
        exact Nat.succ_le_succ (ih h')

/-- A list is a sequence of words if a scan comes out even. -/
theorem split_iff_scan {n : ℕ} {bs : List α} :
    Split width n bs ↔ ∃ leads, scan width 0 bs = some (leads, 0) ∧ leads.length = n := by
  constructor
  · intro h
    obtain ⟨leads, cs, ws', hscan, hrest, hle, hs⟩ :=
      scan_of_split h (List.length_nil (α := α)) (List.append_nil bs).symm
    obtain ⟨rfl, rfl⟩ := List.append_eq_nil_iff.1 hrest.symm
    have h0 : n - leads.length = 0 := by
      have := hs.length_le
      simpa using this
    exact ⟨leads, hscan, by omega⟩
  · rintro ⟨leads, h, rfl⟩
    obtain ⟨ts, ws, he, ht, hs⟩ := split_of_scan h (List.length_nil (α := α))
    rw [List.length_eq_zero_iff] at ht
    subst ht
    rw [List.append_nil, List.nil_append] at he
    rwa [he]

/-! ### Leads -/

/-- The leads of the words in `bs`; empty if a letter in the place of a lead is not one. -/
def leads (width : α → ℕ) (bs : List α) : List α := ((scan width 0 bs).map Prod.fst).getD []

@[simp] theorem leads_nil : leads width [] = [] := rfl

/-- The letters that the last word lacks end the scan. -/
theorem scan_append_over {skip excess : ℕ} {bs cs ls : List α} (hc : cs.length = excess)
    (h : scan width skip bs = some (ls, excess)) : scan width skip (bs ++ cs) = some (ls, 0) := by
  induction bs generalizing skip ls with
  | nil =>
    rw [scan] at h
    cases h
    rw [List.nil_append, ← hc]
    clear hc
    induction cs with
    | nil => rfl
    | cons c cs ih => rw [List.length_cons, scan, ih]
  | cons b bs ih =>
    cases skip with
    | succ skip => exact ih h
    | zero =>
      rw [scan] at h
      split at h
      · cases h
      · next hb =>
        obtain ⟨r, h', heq⟩ := Option.map_eq_some_iff.1 h
        cases heq
        rw [List.cons_append, scan, if_neg hb, ih h']
        rfl

theorem leads_of_scan {excess : ℕ} {bs cs ls : List α} (hc : cs.length = excess)
    (h : scan width 0 bs = some (ls, excess)) : leads width (bs ++ cs) = ls := by
  rw [leads, scan_append_over hc h]
  rfl

theorem leads_skip {tail bs : List α} :
    scan width tail.length (tail ++ bs) = scan width 0 bs := by
  induction tail with
  | nil => rfl
  | cons c tail ih => rw [List.length_cons, List.cons_append, scan, ih]

theorem scan_cons {b : α} {tail bs : List α} (hb : width b = tail.length + 1) :
    scan width 0 (b :: (tail ++ bs)) = (scan width 0 bs).map fun r => (b :: r.1, r.2) := by
  rw [scan, if_neg (by omega), hb, Nat.add_sub_cancel, leads_skip]

/-- The leads of two sequences of words, one behind the other. -/
theorem Split.leads_append {m n : ℕ} {as bs : List α} (ha : Split width m as)
    (hb : Split width n bs) : leads width (as ++ bs) = leads width as ++ leads width bs := by
  induction ha with
  | nil => rfl
  | @cons n b tail as hw ha ih =>
    obtain ⟨ls, hscan, -⟩ := split_iff_scan.1 ha
    obtain ⟨ls', hscan', -⟩ := split_iff_scan.1 (ha.append hb)
    have hleads : ls' = ls ++ leads width bs := by simpa [leads, hscan, hscan'] using ih
    rw [List.cons_append, List.append_assoc, leads, leads, scan_cons hw, scan_cons hw, hscan, hscan',
      hleads]
    rfl

/-! ### Lists of words -/

/-- A word: a lead with as many letters as it asks for. -/
def IsWord (width : α → ℕ) (w : List α) : Prop := ∃ b tail, w = b :: tail ∧ width b = w.length

theorem split_iff_words {n : ℕ} {bs : List α} :
    Split width n bs ↔ ∃ ws : List (List α), ws.length = n ∧ (∀ w ∈ ws, IsWord width w) ∧
      ws.flatten = bs := by
  constructor
  · intro h
    induction h with
    | nil => exact ⟨[], rfl, by simp, rfl⟩
    | @cons n b tail bs hb h ih =>
      obtain ⟨ws, hn, hw, rfl⟩ := ih
      exact ⟨(b :: tail) :: ws, by rw [List.length_cons, hn],
        List.forall_mem_cons.2 ⟨⟨b, tail, rfl, hb⟩, hw⟩, rfl⟩
  · rintro ⟨ws, rfl, hw, rfl⟩
    induction ws with
    | nil => exact .nil
    | cons w ws ih =>
      rw [List.forall_mem_cons] at hw
      obtain ⟨⟨b, tail, rfl, hb⟩, hw⟩ := hw
      exact .cons hb (ih hw)

/-- The words of a list are unique. -/
theorem eq_of_flatten_eq {ws ws' : List (List α)} (hw : ∀ w ∈ ws, IsWord width w)
    (hw' : ∀ w ∈ ws', IsWord width w) (h : ws.flatten = ws'.flatten) : ws = ws' := by
  induction ws generalizing ws' with
  | nil =>
    cases ws' with
    | nil => rfl
    | cons w ws' =>
      obtain ⟨b, tail, rfl, -⟩ := hw' w List.mem_cons_self
      cases h
  | cons w ws ih =>
    obtain ⟨b, tail, rfl, hb⟩ := hw w List.mem_cons_self
    cases ws' with
    | nil => cases h
    | cons w' ws' =>
      obtain ⟨b', tail', rfl, hb'⟩ := hw' w' List.mem_cons_self
      simp only [List.flatten_cons, List.cons_append, List.cons.injEq] at h
      obtain ⟨rfl, h⟩ := h
      have hlen : tail.length = tail'.length := by
        simp only [List.length_cons] at hb hb'
        omega
      obtain ⟨rfl, hrest⟩ := List.append_inj h hlen
      rw [ih (fun w hw₁ => hw w (List.mem_cons_of_mem _ hw₁))
        (fun w hw₁ => hw' w (List.mem_cons_of_mem _ hw₁)) hrest]

theorem leads_flatten {ws : List (List α)} (hw : ∀ w ∈ ws, IsWord width w) :
    leads width ws.flatten = ws.filterMap List.head? := by
  induction ws with
  | nil => rfl
  | cons w ws ih =>
    rw [List.forall_mem_cons] at hw
    obtain ⟨⟨b, tail, rfl, hb⟩, hw⟩ := hw
    obtain ⟨ls, hscan, -⟩ := split_iff_scan.1 (split_iff_words.2 ⟨ws, rfl, hw, rfl⟩)
    have hls : ls = ws.filterMap List.head? := by simpa [leads, hscan] using ih hw
    rw [List.flatten_cons, List.cons_append, leads, scan_cons hb, hscan, hls]
    rfl

end Words
