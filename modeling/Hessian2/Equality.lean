import Hessian2.Copies
import Hessian2.Matching

/-!
# Equality

`Object::equal` as a relation on trees, that is, without references.

* `Object.equal_list_iff`, `Object.equal_classInstance_iff`, `Object.equal_typedMap_iff`,
  `Object.equal_untypedMap_iff` : `equal`, in terms of itself.
* `Object.Same` : the same contents, maps in any order.
* `Trees` : a family of trees with everything in them.
* `Settles` : `equal` is `Same` up to a size.
* `Lawful` : `equal` is an equivalence relation on the family, and compares maps as sets of entries.
* `equal_lawful_iff` : **it is exactly if no typed map in the family extends another.**
-/

namespace Hessian2

open Matching

namespace Object

/-! ### Which side is asked -/

theorem equalLists_flip {xs : List Object}
    (ih : ∀ x ∈ xs, ∀ forward (y : Object), equalAs forward x y = equalAs (!forward) y x) :
    ∀ {forward} {ys : List Object}, equalLists forward xs ys = equalLists (!forward) ys xs := by
  induction xs with
  | nil =>
    intro forward ys
    cases ys <;> rfl
  | cons x xs ihxs =>
    intro forward ys
    rw [List.forall_mem_cons] at ih
    cases ys with
    | nil => rfl
    | cons y ys => rw [equalLists, equalLists, ih.1, ihxs ih.2]

theorem allFound_eq : ∀ es fs, allFound es fs = es.all fun e => foundIn e.1 e.2 fs
  | [], _ => rfl
  | (k, v) :: es, fs => by
    rw [List.all_cons, ← allFound_eq es fs]
    rfl

/-- The entry of `es` that is found for `k` has a value that equals `v`. -/
def Finds (es : List (Object × Object)) (k v : Object) : Prop :=
  ∃ e, es.find? (fun e => e.1.equal k) = some e ∧ e.2.equal v = true

theorem findsEqual_cons (e : Object × Object) (es : List (Object × Object)) (k v : Object) :
    findsEqual (e :: es) k v = if e.1.equal k then e.2.equal v else findsEqual es k v := rfl

theorem findsEqual_iff {k v : Object} {es : List (Object × Object)} :
    findsEqual es k v = true ↔ Finds es k v := by
  induction es with
  | nil => exact ⟨nofun, nofun⟩
  | cons e es ih =>
    by_cases h : e.1.equal k = true
    · rw [findsEqual_cons, if_pos h, Finds,
        List.find?_cons_of_pos (p := fun e : Object × Object => e.1.equal k) h]
      exact ⟨fun hv => ⟨e, rfl, hv⟩, fun ⟨e', he, hv⟩ => Option.some.inj he ▸ hv⟩
    · rw [findsEqual_cons, if_neg h, ih, Finds, Finds,
        List.find?_cons_of_neg (p := fun e : Object × Object => e.1.equal k) h]

/-- What is found from the one side is found from the other. -/
theorem foundIn_eq_findsEqual {k v : Object} {fs : List (Object × Object)}
    (h : ∀ f ∈ fs, equalAs false k f.1 = f.1.equal k ∧ equalAs false v f.2 = f.2.equal v) :
    foundIn k v fs = findsEqual fs k v := by
  induction fs with
  | nil => rfl
  | cons f fs ih =>
    rw [List.forall_mem_cons] at h
    rw [foundIn_cons, findsEqual_cons, h.1.1, h.1.2, ih h.2]

theorem Double.eq_comm (a b : UInt64) : Double.eq a b = Double.eq b a := by
  unfold Double.eq
  rw [Bool.and_comm (!Double.isNaN a), Bool.beq_comm (a := a), Bool.and_comm (a.toNat % 2 ^ 63 == 0)]

/-- Which of the two objects is asked is all that `forward` is about. -/
theorem equalAs_flip (x : Object) : ∀ forward y, equalAs forward x y = equalAs (!forward) y x := by
  induction x using Object.induct with
  | list i t xs ih =>
    intro forward y
    cases y with
    | list j u ys =>
      rw [equalAs, equalAs, equalLists_flip ih, Bool.beq_comm]
      by_cases htu : t = u
      · rw [htu, Bool.not_bne]
      · rw [beq_eq_false_iff_ne.2 (Ne.symm htu), Bool.false_and, Bool.false_and]
    | _ => rfl
  | map i t es ih =>
    intro forward y
    cases y with
    | map j u fs =>
      -- the two loops over the entries change places with the maps
      have hforth (fs : List (Object × Object)) :
          allFound es fs = es.all fun e => findsEqual fs e.1 e.2 := by
        rw [allFound_eq]
        refine Matching.all_congr fun e he => foundIn_eq_findsEqual fun f _ => ?_
        exact ⟨(ih e he).1 false f.1, (ih e he).2 false f.2⟩
      have hback : (fs.all fun f => findsEqual es f.1 f.2) = allFound fs es := by
        rw [allFound_eq]
        refine Matching.all_congr fun f _ => (foundIn_eq_findsEqual fun e he => ?_).symm
        exact ⟨((ih e he).1 true f.1).symm, ((ih e he).2 true f.2).symm⟩
      by_cases htu : t = u
      · subst htu
        rw [equalAs, equalAs, hforth, hback, Bool.beq_comm (a := es.length)]
        cases forward <;> cases t.isSome <;> rfl
      · rw [equalAs, equalAs, beq_eq_false_iff_ne.2 htu, beq_eq_false_iff_ne.2 (Ne.symm htu),
          Bool.false_and, Bool.false_and, Bool.false_and, Bool.false_and]
    | _ => rfl
  | classInstance i d xs ih =>
    intro forward y
    cases y with
    | classInstance j c ys => rw [equalAs, equalAs, equalLists_flip ih, Bool.beq_comm]
    | _ => rfl
  | double a =>
    intro forward y
    cases y with
    | double b => exact Double.eq_comm a b
    | _ => rfl
  | _ =>
    intro forward y
    cases y <;> simp [equalAs, Bool.beq_comm]

theorem equalAs_false (x y : Object) : equalAs false x y = y.equal x := equalAs_flip x false y

/-! ### Equality in terms of itself -/

theorem equalLists_iff {forward : Bool} {xs ys : List Object} : equalLists forward xs ys = true ↔
    List.Forall₂ (fun x y => equalAs forward x y = true) xs ys := by
  induction xs generalizing ys with
  | nil =>
    cases ys with
    | nil => exact ⟨fun _ => .nil, fun _ => rfl⟩
    | cons y ys => exact ⟨nofun, nofun⟩
  | cons x xs ih =>
    cases ys with
    | nil => exact ⟨nofun, nofun⟩
    | cons y ys => rw [equalLists, Bool.and_eq_true, List.forall₂_cons, ih]

/-- The elements of untyped lists are compared as the lists are, and those of typed lists from the
other side. -/
theorem equal_list_iff {i j : ObjId} {t u : Option Bytes} {xs ys : List Object} :
    (list i t xs).equal (list j u ys) = true ↔
      t = u ∧ List.Forall₂ (fun x y => if t.isSome then y.equal x else x.equal y) xs ys := by
  rw [equal, equalAs, Bool.and_eq_true, beq_iff_eq, equalLists_iff]
  refine and_congr_right fun _ => Matching.forall₂_congr fun x _ y _ => ?_
  cases t with
  | none => rfl
  | some name => exact iff_of_eq (congrArg (· = true) (equalAs_false x y))

theorem equal_classInstance_iff {i j : ObjId} {c d : RawDefinition} {xs ys : List Object} :
    (classInstance i c xs).equal (classInstance j d ys) = true ↔
      c = d ∧ List.Forall₂ (fun x y => y.equal x) xs ys := by
  rw [equal, equalAs, Bool.and_eq_true, beq_iff_eq, equalLists_iff]
  refine and_congr_right fun _ => Matching.forall₂_congr fun x _ y _ => ?_
  exact iff_of_eq (congrArg (· = true) (equalAs_false x y))

/-- Typed maps are equal if the entries of the second are found in the first. -/
theorem equal_typedMap_iff {i j : ObjId} {t u : Bytes} {es fs : List (Object × Object)} :
    (typedMap i t es).equal (typedMap j u fs) = true ↔ t = u ∧ ∀ f ∈ fs, Finds es f.1 f.2 := by
  rw [equal, equalAs, Bool.and_eq_true, Bool.and_eq_true, beq_iff_eq, Option.some.injEq]
  simp [findsEqual_iff]

/-- Untyped maps are equal if they have as many entries and those of the first are found in the
second. -/
theorem equal_untypedMap_iff {i j : ObjId} {es fs : List (Object × Object)} :
    (untypedMap i es).equal (untypedMap j fs) = true ↔
      es.length = fs.length ∧ ∀ e ∈ es, Finds fs e.1 e.2 := by
  have hfound : allFound es fs = es.all fun e => findsEqual fs e.1 e.2 := by
    rw [allFound_eq]
    refine Matching.all_congr fun e _ => foundIn_eq_findsEqual fun f _ => ?_
    exact ⟨equalAs_false e.1 f.1, equalAs_false e.2 f.2⟩
  rw [equal, equalAs]
  simp [hfound, findsEqual_iff]

/-! ### The same contents -/

mutual

/-- The objects have the same contents, whatever their addresses: lists and instances the same
values in the same order, maps the same set of entries. -/
def Same : Object → Object → Prop
  | .null, .null => True
  | .boolean a, .boolean b => a = b
  | .integer a, .integer b => a = b
  | .long a, .long b => a = b
  | .double a, .double b => a = b
  | .date a, .date b => a = b
  | .string a, .string b => a = b
  | .binary a, .binary b => a = b
  | .ref a, .ref b => a = b
  | .list _ t xs, .list _ u ys => t = u ∧ SameValues xs ys
  | .map _ t es, .map _ u fs => t = u ∧ AllAmong es fs ∧ ∀ f ∈ fs, Among es f
  | .classInstance _ c xs, .classInstance _ d ys => c = d ∧ SameValues xs ys
  | _, _ => False
termination_by structural a => a

/-- `Same`, value by value. -/
def SameValues : List Object → List Object → Prop
  | [], [] => True
  | x :: xs, y :: ys => Same x y ∧ SameValues xs ys
  | _, _ => False
termination_by structural xs => xs

/-- Every entry of the first map is one of the second. -/
def AllAmong : List (Object × Object) → List (Object × Object) → Prop
  | [], _ => True
  | (k, v) :: es, fs => (∃ f ∈ fs, Same k f.1 ∧ Same v f.2) ∧ AllAmong es fs
termination_by structural es => es

/-- The entry is one of the map. -/
def Among : List (Object × Object) → Object × Object → Prop
  | [], _ => False
  | (k, v) :: es, f => (Same k f.1 ∧ Same v f.2) ∨ Among es f
termination_by structural es => es

end

/-- The same entry. -/
def SameEntry (e f : Object × Object) : Prop := Same e.1 f.1 ∧ Same e.2 f.2

/-- The same set of entries. -/
def SameEntries (es fs : List (Object × Object)) : Prop :=
  Covers SameEntry es fs ∧ Covers (fun f e => SameEntry e f) fs es

theorem sameValues_iff {xs ys : List Object} : SameValues xs ys ↔ List.Forall₂ Same xs ys := by
  induction xs generalizing ys with
  | nil =>
    cases ys with
    | nil => exact ⟨fun _ => .nil, fun _ => trivial⟩
    | cons y ys => exact ⟨nofun, nofun⟩
  | cons x xs ih =>
    cases ys with
    | nil => exact ⟨nofun, nofun⟩
    | cons y ys => rw [SameValues, List.forall₂_cons, ih]

theorem allAmong_iff {es fs : List (Object × Object)} : AllAmong es fs ↔ Covers SameEntry es fs := by
  induction es with
  | nil => exact ⟨fun _ => nofun, fun _ => trivial⟩
  | cons e es ih => rw [AllAmong, ih, Covers, Covers, List.forall_mem_cons]; rfl

theorem among_iff {es : List (Object × Object)} {f : Object × Object} :
    Among es f ↔ ∃ e ∈ es, SameEntry e f := by
  induction es with
  | nil => exact ⟨nofun, nofun⟩
  | cons e es ih => rw [Among, ih, List.exists_mem_cons_iff]; rfl

theorem same_list_iff {i j : ObjId} {t u : Option Bytes} {xs ys : List Object} :
    Same (.list i t xs) (.list j u ys) ↔ t = u ∧ List.Forall₂ Same xs ys := by
  rw [Same, sameValues_iff]

theorem same_classInstance_iff {i j : ObjId} {c d : RawDefinition} {xs ys : List Object} :
    Same (.classInstance i c xs) (.classInstance j d ys) ↔ c = d ∧ List.Forall₂ Same xs ys := by
  rw [Same, sameValues_iff]

theorem same_map_iff {i j : ObjId} {t u : Option Bytes} {es fs : List (Object × Object)} :
    Same (.map i t es) (.map j u fs) ↔ t = u ∧ SameEntries es fs := by
  rw [Same, allAmong_iff]
  simp only [among_iff]
  rfl

/-- `Same` is an equivalence relation. -/
theorem same_refl (x : Object) : Same x x := by
  induction x using Object.induct with
  | list i t xs ih => exact same_list_iff.2 ⟨rfl, List.forall₂_same.2 ih⟩
  | classInstance i d xs ih => exact same_classInstance_iff.2 ⟨rfl, List.forall₂_same.2 ih⟩
  | map i t es ih => exact same_map_iff.2 ⟨rfl, fun e he => ⟨e, he, ih e he⟩, fun e he => ⟨e, he, ih e he⟩⟩
  | _ => simp [Same]

theorem same_comm (x : Object) : ∀ y, Same x y ↔ Same y x := by
  have values {xs : List Object} (ih : ∀ x ∈ xs, ∀ y, Same x y ↔ Same y x) (ys : List Object) :
      List.Forall₂ Same xs ys ↔ List.Forall₂ Same ys xs :=
    (Matching.forall₂_congr fun x hx y _ => ih x hx y).trans ⟨.flip, .flip⟩
  induction x using Object.induct with
  | list i t xs ih =>
    intro y
    cases y with
    | list j u ys => rw [same_list_iff, same_list_iff, eq_comm, values ih]
    | _ => exact Iff.rfl
  | classInstance i d xs ih =>
    intro y
    cases y with
    | classInstance j c ys => rw [same_classInstance_iff, same_classInstance_iff, eq_comm, values ih]
    | _ => exact Iff.rfl
  | map i t es ih =>
    intro y
    cases y with
    | map j u fs =>
      have entry : ∀ e ∈ es, ∀ f, SameEntry e f ↔ SameEntry f e := fun e he f =>
        and_congr ((ih e he).1 f.1) ((ih e he).2 f.2)
      rw [same_map_iff, same_map_iff, eq_comm, SameEntries, and_comm (a := Covers _ es fs)]
      refine and_congr_right fun _ => and_congr ?_ ?_
      · exact Covers.congr fun f _ e he => entry e he f
      · exact Covers.congr fun e he f _ => entry e he f
    | _ => exact Iff.rfl
  | _ =>
    intro y
    cases y <;> simp [Same, eq_comm]

theorem same_trans (x : Object) : ∀ y z, Same x y → Same y z → Same x z := by
  induction x using Object.induct with
  | list i t xs ih =>
    intro y z h h'
    cases y with
    | list j u ys =>
      cases z with
      | list k v zs =>
        obtain ⟨rfl, hv⟩ := same_list_iff.1 h
        obtain ⟨rfl, hv'⟩ := same_list_iff.1 h'
        exact same_list_iff.2 ⟨rfl, Matching.forall₂_trans ih hv hv'⟩
      | _ => cases h'
    | _ => cases h
  | classInstance i d xs ih =>
    intro y z h h'
    cases y with
    | classInstance j c ys =>
      cases z with
      | classInstance k b zs =>
        obtain ⟨rfl, hv⟩ := same_classInstance_iff.1 h
        obtain ⟨rfl, hv'⟩ := same_classInstance_iff.1 h'
        exact same_classInstance_iff.2 ⟨rfl, Matching.forall₂_trans ih hv hv'⟩
      | _ => cases h'
    | _ => cases h
  | map i t es ih =>
    intro y z h h'
    cases y with
    | map j u fs =>
      cases z with
      | map k v gs =>
        obtain ⟨rfl, hef, hfe⟩ := same_map_iff.1 h
        obtain ⟨rfl, hfg, hgf⟩ := same_map_iff.1 h'
        have entry {e f g : Object × Object} (he : e ∈ es) (hf : SameEntry e f)
            (hg : SameEntry f g) : SameEntry e g :=
          ⟨(ih e he).1 _ _ hf.1 hg.1, (ih e he).2 _ _ hf.2 hg.2⟩
        refine same_map_iff.2 ⟨rfl, fun e he => ?_, fun g hg => ?_⟩
        · obtain ⟨f, hf, hsame⟩ := hef e he
          obtain ⟨g, hg, hsame'⟩ := hfg f hf
          exact ⟨g, hg, entry he hsame hsame'⟩
        · obtain ⟨f, hf, hsame'⟩ := hgf g hg
          obtain ⟨e, he, hsame⟩ := hfe f hf
          exact ⟨e, he, entry he hsame hsame'⟩
      | _ => cases h'
    | _ => cases h
  | null =>
    intro y z h h'
    cases y with
    | null => exact h'
    | _ => cases h
  | _ =>
    intro y z h h'
    cases y <;> simp only [Same] at h
    exact h ▸ h'

end Object

/-! ### Families of trees -/

/-- A family of trees with everything in them: there are no references and no doubles, and the keys
of a map are pairwise unequal. -/
structure Trees (S : Set Object) : Prop where
  closed : ∀ o ∈ S, ∀ x ∈ o.walk, x ∈ S
  leaves : ∀ o ∈ S, o.target? = none ∧ ∀ bits, o ≠ .double bits
  keys : ∀ o ∈ S, o.KeysApart

/-- The maps have the same set of keys with equal values. -/
def EqualEntries (es fs : List (Object × Object)) : Prop :=
  Covers (fun e f => e.1.equal f.1 = true ∧ e.2.equal f.2 = true) es fs ∧
    Covers (fun f e => e.1.equal f.1 = true ∧ e.2.equal f.2 = true) fs es

/-- On the family `equal` is an equivalence relation, and maps of the same kind and type name are
equal exactly when they have the same set of keys with equal values. -/
structure Lawful (S : Set Object) : Prop where
  refl : ∀ a ∈ S, a.equal a = true
  symm : ∀ a ∈ S, ∀ b ∈ S, a.equal b = b.equal a
  trans : ∀ a ∈ S, ∀ b ∈ S, ∀ c ∈ S, a.equal b = true → b.equal c = true → a.equal c = true
  maps : ∀ i j t es fs, .map i t es ∈ S → .map j t fs ∈ S →
    ((Object.map i t es).equal (.map j t fs) = true ↔ EqualEntries es fs)

/-- The second map has every entry of the first, and one more. -/
def Extends (es fs : List (Object × Object)) : Prop :=
  Covers Object.SameEntry es fs ∧ ∃ f ∈ fs, ∀ e ∈ es, ¬ Object.SameEntry e f

variable {S : Set Object}

namespace Trees

theorem value_mem {i : ObjId} {t : Option Bytes} {vs : List Object} (h : Trees S)
    (hs : .list i t vs ∈ S) {v : Object} (hv : v ∈ vs) : v ∈ S := by
  refine h.closed _ hs v ?_
  rw [Object.walk_list]
  exact List.mem_cons_of_mem _ (List.mem_flatMap.2 ⟨v, hv, v.mem_walk_self⟩)

theorem field_mem {i : ObjId} {d : RawDefinition} {vs : List Object} (h : Trees S)
    (hs : .classInstance i d vs ∈ S) {v : Object} (hv : v ∈ vs) : v ∈ S := by
  refine h.closed _ hs v ?_
  rw [Object.walk_classInstance]
  exact List.mem_cons_of_mem _ (List.mem_flatMap.2 ⟨v, hv, v.mem_walk_self⟩)

theorem entry_mem {i : ObjId} {t : Option Bytes} {es : List (Object × Object)} (h : Trees S)
    (hs : .map i t es ∈ S) {e : Object × Object} (he : e ∈ es) : e.1 ∈ S ∧ e.2 ∈ S := by
  have hwalk : ∀ x ∈ e.1.walk ++ e.2.walk, x ∈ S := fun x hx => h.closed _ hs x (by
    rw [Object.walk_map]
    exact List.mem_cons_of_mem _ (List.mem_flatMap.2 ⟨e, he, hx⟩))
  exact ⟨hwalk _ (List.mem_append_left _ e.1.mem_walk_self),
    hwalk _ (List.mem_append_right _ e.2.mem_walk_self)⟩

end Trees

/-- What is in a container is smaller. -/
theorem nodes_lt_of_mem {i : ObjId} {vs : List Object} {v : Object} (hv : v ∈ vs) :
    (∀ t, v.nodes < (Object.list i t vs).nodes) ∧ ∀ d, v.nodes < (Object.classInstance i d vs).nodes := by
  have hle : v.nodes ≤ (vs.map Object.nodes).sum := List.le_sum_of_mem (List.mem_map_of_mem hv)
  constructor
  · intro t
    rw [Object.nodes_list]
    omega
  · intro d
    rw [Object.nodes_classInstance]
    omega

theorem nodes_lt_of_entry {i : ObjId} {t : Option Bytes} {es : List (Object × Object)}
    {e : Object × Object} (he : e ∈ es) : e.1.nodes + e.2.nodes < (Object.map i t es).nodes := by
  have hle := List.le_sum_of_mem (List.mem_map_of_mem (f := fun e => e.1.nodes + e.2.nodes) he)
  rw [Object.nodes_map]
  omega

/-- Up to the size `n`, the objects of the family are equal exactly if they have the same
contents. -/
def Settles (S : Set Object) (n : ℕ) : Prop :=
  ∀ x ∈ S, ∀ y ∈ S, x.nodes < n → y.nodes < n → (x.equal y = true ↔ x.Same y)

theorem sameEntry_comm (e f : Object × Object) : Object.SameEntry e f ↔ Object.SameEntry f e :=
  and_congr (e.1.same_comm f.1) (e.2.same_comm f.2)

theorem Covers.comm {es fs : List (Object × Object)} :
    Covers Object.SameEntry es fs ↔ Covers (fun e f => Object.SameEntry f e) es fs :=
  Covers.congr fun e _ f _ => sameEntry_comm e f

/-- The entry that is found for a key is the only one with this key. -/
theorem finds_iff_of_apart {es : List (Object × Object)} {k v : Object}
    (h : ∀ e ∈ es, (e.1.equal k = true ↔ e.1.Same k) ∧ (e.2.equal v = true ↔ e.2.Same v))
    (hapart : es.Pairwise fun e e' => ¬ e.1.Same e'.1) :
    Object.Finds es k v ↔ ∃ e ∈ es, Object.SameEntry e (k, v) := by
  constructor
  · rintro ⟨e, he, hv⟩
    have hmem := List.mem_of_find?_eq_some he
    exact ⟨e, hmem, (h e hmem).1.1 (by simpa using List.find?_some he), (h e hmem).2.1 hv⟩
  · rintro ⟨e, he, hk, hv⟩
    refine ⟨e, find?_eq_some_of_mem ?_ he ((h e he).1.2 hk), (h e he).2.2 hv⟩
    refine hapart.imp_of_mem fun {e e'} he he' hne hboth => hne ?_
    exact e.1.same_trans k e'.1 ((h e he).1.1 hboth.1)
      ((e'.1.same_comm k).1 ((h e' he').1.1 hboth.2))

/-- Different entries of a map are the same as different entries of another one. -/
theorem apart_entries {es : List (Object × Object)} (h : es.Pairwise fun e e' => ¬ e.1.Same e'.1)
    (fs : List (Object × Object)) :
    es.Pairwise fun e e' => ∀ f ∈ fs, Object.SameEntry e f → ¬ Object.SameEntry e' f :=
  h.imp fun {e e'} hne f _ he he' => hne (e.1.same_trans f.1 e'.1 he.1 ((e'.1.same_comm f.1).1 he'.1))

namespace Trees

/-- The keys of a map are pairwise different. -/
theorem apart {i : ObjId} {t : Option Bytes} {es : List (Object × Object)} {n : ℕ} (h : Trees S)
    (hs : .map i t es ∈ S) (hn : (Object.map i t es).nodes ≤ n) (hsettles : Settles S n) :
    es.Pairwise fun e e' => ¬ e.1.Same e'.1 := by
  have hkeys : es.Pairwise fun e e' => e.1.equal e'.1 = false := h.keys _ hs
  have hlt {e : Object × Object} (he : e ∈ es) : e.1.nodes < n := by
    have := nodes_lt_of_entry (i := i) (t := t) he
    omega
  refine hkeys.imp_of_mem fun {e e'} he he' hne hsame => ?_
  have hiff := hsettles e.1 (h.entry_mem hs he).1 e'.1 (h.entry_mem hs he').1 (hlt he) (hlt he')
  rw [hiff.2 hsame] at hne
  cases hne

/-- The entries of two maps are compared as in the smaller objects. -/
theorem entries_iff {i j : ObjId} {t u : Option Bytes} {es fs : List (Object × Object)} {n : ℕ}
    (h : Trees S) (hm : .map i t es ∈ S) (hm' : .map j u fs ∈ S)
    (hn : (Object.map i t es).nodes ≤ n) (hn' : (Object.map j u fs).nodes ≤ n)
    (hsettles : Settles S n) : ∀ e ∈ es, ∀ f ∈ fs,
      (e.1.equal f.1 = true ↔ e.1.Same f.1) ∧ (e.2.equal f.2 = true ↔ e.2.Same f.2) := by
  intro e he f hf
  have hlt := nodes_lt_of_entry (i := i) (t := t) he
  have hlt' := nodes_lt_of_entry (i := j) (t := u) hf
  have hmem := h.entry_mem hm he
  have hmem' := h.entry_mem hm' hf
  exact ⟨hsettles _ hmem.1 _ hmem'.1 (by omega) (by omega),
    hsettles _ hmem.2 _ hmem'.2 (by omega) (by omega)⟩

/-- If maps are equal exactly if they have the same contents, all objects are. -/
theorem settles (h : Trees S) (hmap : ∀ n i j t es fs, Settles S n → .map i t es ∈ S → .map j t fs ∈ S →
      (Object.map i t es).nodes ≤ n → (Object.map j t fs).nodes ≤ n →
        ((Object.map i t es).equal (.map j t fs) = true ↔ Object.SameEntries es fs)) :
    ∀ n, Settles S n := by
  intro n
  induction n with
  | zero => exact fun x _ y _ hx => absurd hx (Nat.not_lt_zero _)
  | succ n ih =>
    intro x hx y hy hxn hyn
    have hleaf := h.leaves x hx
    cases x with
    | ref i => cases hleaf.1
    | double bits => exact absurd rfl (hleaf.2 bits)
    | list i t xs =>
      cases y with
      | list j u ys =>
        rw [Object.equal_list_iff, Object.same_list_iff]
        refine and_congr_right fun _ => Matching.forall₂_congr fun x hx' y hy' => ?_
        have hlt := (nodes_lt_of_mem (i := i) hx').1 t
        have hlt' := (nodes_lt_of_mem (i := j) hy').1 u
        have hmem := h.value_mem hx hx'
        have hmem' := h.value_mem hy hy'
        -- typed lists compare their elements the other way around
        split
        · rw [ih y hmem' x hmem (by omega) (by omega), Object.same_comm]
        · exact ih x hmem y hmem' (by omega) (by omega)
      | _ => exact iff_of_false Bool.false_ne_true id
    | classInstance i c xs =>
      cases y with
      | classInstance j d ys =>
        rw [Object.equal_classInstance_iff, Object.same_classInstance_iff]
        refine and_congr_right fun _ => Matching.forall₂_congr fun x hx' y hy' => ?_
        have hlt := (nodes_lt_of_mem (i := i) hx').2 c
        have hlt' := (nodes_lt_of_mem (i := j) hy').2 d
        rw [ih y (h.field_mem hy hy') x (h.field_mem hx hx') (by omega) (by omega), Object.same_comm]
      | _ => exact iff_of_false Bool.false_ne_true id
    | map i t es =>
      cases y with
      | map j u fs =>
        rw [Object.same_map_iff]
        by_cases htu : t = u
        · subst htu
          rw [hmap n i j t es fs ih hx hy (by omega) (by omega)]
          exact (and_iff_right rfl).symm
        · rw [Object.equal, Object.equalAs, beq_eq_false_iff_ne.2 htu, Bool.false_and, Bool.false_and]
          exact iff_of_false Bool.false_ne_true fun hsame => htu hsame.1
      | _ => exact iff_of_false Bool.false_ne_true id
    | _ => cases y <;> simp [Object.equal, Object.equalAs, Object.Same]

/-- Every entry of the second map is found in the first exactly if it is one of the first. -/
theorem finds_all_iff {i j : ObjId} {t u : Option Bytes} {es fs : List (Object × Object)} {n : ℕ}
    (h : Trees S) (hsettles : Settles S n) (hm : .map i t es ∈ S) (hm' : .map j u fs ∈ S)
    (hn : (Object.map i t es).nodes ≤ n) (hn' : (Object.map j u fs).nodes ≤ n) :
    (∀ f ∈ fs, Object.Finds es f.1 f.2) ↔ Covers (fun f e => Object.SameEntry e f) fs es :=
  forall₂_congr fun f hf => finds_iff_of_apart
    (fun e he => h.entries_iff hm hm' hn hn' hsettles e he f hf) (h.apart hm hn hsettles)

/-- Maps without type name are equal exactly if they have the same entries. -/
theorem equal_untypedMap_iff {i j : ObjId} {es fs : List (Object × Object)} {n : ℕ}
    (h : Trees S) (hsettles : Settles S n) (hm : .untypedMap i es ∈ S) (hm' : .untypedMap j fs ∈ S)
    (hn : (Object.untypedMap i es).nodes ≤ n) (hn' : (Object.untypedMap j fs).nodes ≤ n) :
    (Object.untypedMap i es).equal (.untypedMap j fs) = true ↔ Object.SameEntries es fs := by
  have hes := apart_entries (h.apart hm hn hsettles) fs
  have hfs := apart_entries (h.apart hm' hn' hsettles) es
  rw [Object.equal_untypedMap_iff, h.finds_all_iff hsettles hm' hm hn' hn, ← Covers.comm]
  constructor
  · rintro ⟨hlen, hcovers⟩
    exact ⟨hcovers, hcovers.flip hes hlen.ge⟩
  · rintro ⟨hcovers, hback⟩
    exact ⟨le_antisymm (hcovers.length_le hes) ((Covers.comm.2 hback).length_le hfs), hcovers⟩

/-- Typed maps are equal exactly if the entries of the second are entries of the first. -/
theorem equal_typedMap_iff {i j : ObjId} {u : Bytes} {es fs : List (Object × Object)} {n : ℕ}
    (h : Trees S) (hsettles : Settles S n) (hm : .typedMap i u es ∈ S) (hm' : .typedMap j u fs ∈ S)
    (hn : (Object.typedMap i u es).nodes ≤ n) (hn' : (Object.typedMap j u fs).nodes ≤ n) :
    (Object.typedMap i u es).equal (.typedMap j u fs) = true ↔ Covers Object.SameEntry fs es := by
  rw [Object.equal_typedMap_iff, h.finds_all_iff hsettles hm hm' hn hn', ← Covers.comm]
  exact and_iff_right rfl

/-- Every object equals itself. -/
theorem equal_self (h : Trees S) (o : Object) : o ∈ S → o.equal o = true := by
  induction o using Object.induct with
  | list i t vs ih =>
    intro hs
    refine Object.equal_list_iff.2 ⟨rfl, List.forall₂_same.2 fun v hv => ?_⟩
    rw [ite_self]
    exact ih v hv (h.value_mem hs hv)
  | classInstance i d vs ih =>
    intro hs
    exact Object.equal_classInstance_iff.2
      ⟨rfl, List.forall₂_same.2 fun v hv => ih v hv (h.field_mem hs hv)⟩
  | map i t es ih =>
    intro hs
    -- The entries before the one that is looked for have other keys.
    have hfinds : ∀ e ∈ es, Object.Finds es e.1 e.2 := by
      intro e he
      obtain ⟨before, after, rfl⟩ := List.append_of_mem he
      have hkeys : (before ++ e :: after).Pairwise fun e e' => e.1.equal e'.1 = false := h.keys _ hs
      have hbefore : before.find? (fun e' => e'.1.equal e.1) = none := List.find?_eq_none.2
        fun e' he' => by
          rw [(List.pairwise_append.1 hkeys).2.2 e' he' e List.mem_cons_self]
          exact Bool.false_ne_true
      refine ⟨e, ?_, (ih e he).2 (h.entry_mem hs he).2⟩
      rw [List.find?_append, hbefore, Option.none_or]
      exact List.find?_cons_of_pos ((ih e he).1 (h.entry_mem hs he).1)
    cases t with
    | none => exact Object.equal_untypedMap_iff.2 ⟨rfl, hfinds⟩
    | some t => exact Object.equal_typedMap_iff.2 ⟨rfl, hfinds⟩
  | ref i => exact fun hs => nomatch (h.leaves _ hs).1
  | double bits => exact fun hs => absurd rfl ((h.leaves _ hs).2 bits)
  | _ => exact fun _ => by simp [Object.equal, Object.equalAs]

/-- Where no typed map extends another one, equal objects are those with the same contents. -/
theorem settles_of_not_extends (h : Trees S) (hext : ∀ i j u es fs,
      .typedMap i u es ∈ S → .typedMap j u fs ∈ S → ¬ Extends es fs) : ∀ n, Settles S n := by
  refine h.settles fun n i j t es fs hsettles hm hm' hn hn' => ?_
  cases t with
  | none => exact h.equal_untypedMap_iff hsettles hm hm' hn hn'
  | some u =>
    rw [h.equal_typedMap_iff hsettles hm hm' hn hn']
    constructor
    · intro hback
      refine ⟨fun e he => ?_, Covers.comm.1 hback⟩
      by_contra hnone
      exact hext j i u fs es hm' hm
        ⟨hback, e, he, fun f hf hsame => hnone ⟨f, hf, (sameEntry_comm f e).1 hsame⟩⟩
    · exact fun hsame => Covers.comm.2 hsame.2

/-- Where `equal` is lawful, equal objects are those with the same contents. -/
theorem settles_of_lawful (h : Trees S) (hlawful : Lawful S) : ∀ n, Settles S n := by
  refine h.settles fun n i j t es fs hsettles hm hm' hn hn' => ?_
  have hentries := h.entries_iff hm hm' hn hn' hsettles
  rw [hlawful.maps i j t es fs hm hm']
  exact and_congr
    (Covers.congr fun e he f hf => and_congr (hentries e he f hf).1 (hentries e he f hf).2)
    (Covers.congr fun f hf e he => and_congr (hentries e he f hf).1 (hentries e he f hf).2)

/-- Where equal objects are those with the same contents, `equal` is lawful. -/
theorem lawful (h : Trees S) (hsettles : ∀ n, Settles S n) : Lawful S := by
  have hsame : ∀ x ∈ S, ∀ y ∈ S, (x.equal y = true ↔ x.Same y) := fun x hx y hy =>
    hsettles (x.nodes + y.nodes + 1) x hx y hy (by omega) (by omega)
  refine ⟨fun a ha => (hsame a ha a ha).2 a.same_refl, fun a ha b hb => ?_,
    fun a ha b hb c hc hab hbc => ?_, fun i j t es fs hm hm' => ?_⟩
  · rw [Bool.eq_iff_iff, hsame a ha b hb, hsame b hb a ha, a.same_comm]
  · rw [hsame a ha b hb] at hab
    rw [hsame b hb c hc] at hbc
    exact (hsame a ha c hc).2 (a.same_trans b c hab hbc)
  · have hentries : ∀ e ∈ es, ∀ f ∈ fs,
        (e.1.equal f.1 = true ∧ e.2.equal f.2 = true ↔ Object.SameEntry e f) := fun e he f hf =>
      and_congr (hsame _ (h.entry_mem hm he).1 _ (h.entry_mem hm' hf).1)
        (hsame _ (h.entry_mem hm he).2 _ (h.entry_mem hm' hf).2)
    rw [hsame _ hm _ hm', Object.same_map_iff, and_iff_right rfl]
    exact and_congr (Covers.congr fun e he f hf => (hentries e he f hf).symm)
      (Covers.congr fun f hf e he => (hentries e he f hf).symm)

end Trees

/-- **Equality is lawful exactly where no typed map extends another one.** A typed map that has
every entry of another one with its type name equals it, whatever else it has:
`TypedMap::operator==` compares the size of `other` with itself. -/
theorem equal_lawful_iff (h : Trees S) : Lawful S ↔ ∀ i j u es fs,
    .typedMap i u es ∈ S → .typedMap j u fs ∈ S → ¬ Extends es fs := by
  constructor
  · rintro hlawful i j u es fs hm hm' ⟨hcovers, f, hf, hnone⟩
    let n := (Object.typedMap i u es).nodes + (Object.typedMap j u fs).nodes
    have hn : (Object.typedMap i u es).nodes ≤ n := Nat.le_add_right _ _
    have hn' : (Object.typedMap j u fs).nodes ≤ n := Nat.le_add_left _ _
    have hsettles := h.settles_of_lawful hlawful
    -- The larger map equals the smaller one, which therefore has the entry too.
    have hequal := (h.equal_typedMap_iff (hsettles n) hm' hm hn' hn).2 hcovers
    have hsame := (hsettles (n + 1) _ hm' _ hm (by omega) (by omega)).1 hequal
    obtain ⟨e, he, hfe⟩ := (Object.same_map_iff.1 hsame).2.1 f hf
    exact hnone e he ((sameEntry_comm f e).1 hfe)
  · exact fun hext => h.lawful (h.settles_of_not_extends hext)

/-- Given trees, with everything in them. -/
theorem Trees.of_walk {os : List Object}
    (hleaves : ∀ o ∈ os, ∀ x ∈ o.walk, x.target? = none ∧ ∀ bits, x ≠ .double bits)
    (hkeys : ∀ o ∈ os, ∀ x ∈ o.walk, x.KeysApart) : Trees {x | ∃ o ∈ os, x ∈ o.walk} where
  closed := fun x ⟨o, ho, hx⟩ y hy => ⟨o, ho, o.walk_subset x hx y hy⟩
  leaves := fun x ⟨o, ho, hx⟩ => hleaves o ho x hx
  keys := fun x ⟨o, ho, hx⟩ => hkeys o ho x hx

/-- A map with the one key `null`, of the type `T`. -/
private def filled : Object := .typedMap 1 [84] [(.null, .null)]

/-- A map without entries, of the same type. -/
private def blank : Object := .typedMap 2 [84] []

private theorem trees_filled : Trees {x | ∃ o ∈ [filled], x ∈ o.walk} :=
  .of_walk (by simp [filled, Object.walk, Object.walkEntries, Object.target?])
    (by simp [filled, Object.walk, Object.walkEntries, Object.KeysApart])

theorem equal_lawful_filled : Lawful {x | ∃ o ∈ [filled], x ∈ o.walk} := by
  refine (equal_lawful_iff trees_filled).2 fun i j u es fs hm hm' hext => ?_
  simp [filled, Object.walk, Object.walkEntries] at hm hm'
  obtain ⟨-, -, rfl⟩ := hm
  obtain ⟨-, -, rfl⟩ := hm'
  obtain ⟨-, f, hf, hnone⟩ := hext
  exact hnone f hf ⟨f.1.same_refl, f.2.same_refl⟩

/-- The map with the entry equals the one without, which does not equal it. -/
theorem equal_not_symmetric : Trees {x | ∃ o ∈ [filled, blank], x ∈ o.walk} ∧
    filled.equal blank = true ∧ blank.equal filled = false ∧
    ¬ Lawful {x | ∃ o ∈ [filled, blank], x ∈ o.walk} := by
  have hforth : filled.equal blank = true := rfl
  have hback : blank.equal filled = false := rfl
  refine ⟨.of_walk ?_ ?_, hforth, hback, fun hlawful => ?_⟩
  · simp [filled, blank, Object.walk, Object.walkEntries, Object.target?]
  · simp [filled, blank, Object.walk, Object.walkEntries, Object.KeysApart]
  · have hsymm := hlawful.symm filled ⟨filled, by simp, filled.mem_walk_self⟩ blank
      ⟨blank, by simp, blank.mem_walk_self⟩
    rw [hforth, hback] at hsymm
    cases hsymm

end Hessian2
