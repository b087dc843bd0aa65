import Hessian2.Refusal
import Hessian2.RoundTrip
import Hessian2.Visiting

/-!
# What was decoded is sent again

An object that a decoder has returned is sent with a new encoder, which visits the entries of each
of its maps in any order.

* `Enc.Resolves` : a function that meets references to containers that have been sent before.
* `encodeObject_resolves` : without a missing number, all references point back.
* `Returned` : objects that a new decoder has returned.
* `Resends` : the object is sent with all references numbered, and read back, in every order.
* `resends_iff` : **this is so exactly if no reference crosses from one entry of a map to another.**
-/

namespace Hessian2

open Parsing Parsing.Parser Enc Object

variable {α β : Type} {P : Platform}

/-! ### References without a number -/

namespace Enc

/-- The function lets the encoder grow, and where it returns and met no container without a number,
`ok` holds of the ledger it started from. -/
structure Resolves (P : Platform) (m : Enc α) (ok : Ledger → Prop) : Prop where
  grows : Keeps (Encoder.Grows P) m
  numbered : ∀ ⦃L e a e'⦄, L.Describes e → m e = .ok (a, e') → e'.unnumbered = e.unnumbered → ok L

namespace Resolves

theorem silent {m : Enc α} (h : Keeps (Encoder.Grows P) m) : Resolves P m fun _ => True :=
  ⟨h, fun _ _ _ _ _ _ _ => trivial⟩

theorem bind {m : Enc α} {k : α → Enc β} {f : Ledger → Ledger} {ok ok' : Ledger → Prop}
    (ht : Tracks m f) (hm : Resolves P m ok) (hk : ∀ a, Resolves P (k a) ok') :
    Resolves P (m >>= k) fun L => ok L ∧ ok' (f L) where
  grows := Encoder.grows_closed.bind hm.grows fun a => (hk a).grows
  numbered L e b e' hL h hsame := by
    obtain ⟨a, e₁, h₁, h₂⟩ := bind_eq_ok.1 h
    have hleft := (hm.grows h₁).unnumbered
    have hright := ((hk a).grows h₂).unnumbered
    have hmid : e₁.unnumbered = e.unnumbered :=
      (hsame ▸ hright).eq_of_length_le hleft.length_le
    exact ⟨hm.numbered hL h₁ hmid, (hk a).numbered (ht hL h₁) h₂ (hsame.trans hmid.symm)⟩

/-- What comes first meets no references. -/
theorem after {m : Enc α} {k : α → Enc β} {f : Ledger → Ledger} {ok : Ledger → Prop}
    (ht : Tracks m f) (hm : Keeps (Encoder.Grows P) m) (hk : ∀ a, Resolves P (k a) ok) :
    Resolves P (m >>= k) fun L => ok (f L) where
  grows := ((silent hm).bind ht hk).grows
  numbered _ _ _ _ hL h hsame := ((silent hm).bind ht hk).numbered hL h hsame |>.2

/-- What comes last meets no references. -/
theorem before {m : Enc α} {k : α → Enc β} {f : Ledger → Ledger} {ok : Ledger → Prop}
    (ht : Tracks m f) (hm : Resolves P m ok) (hk : ∀ a, Keeps (Encoder.Grows P) (k a)) :
    Resolves P (m >>= k) ok where
  grows := (hm.bind ht fun a => silent (hk a)).grows
  numbered _ _ _ _ hL h hsame := (hm.bind ht fun a => silent (hk a)).numbered hL h hsame |>.1

theorem congr {m : Enc α} {ok ok' : Ledger → Prop} (h : Resolves P m ok) (hok : ∀ L, ok L → ok' L) :
    Resolves P m ok' :=
  ⟨h.grows, fun _ _ _ _ hL hm hsame => hok _ (h.numbered hL hm hsame)⟩

end Resolves

end Enc

/-- A reference whose target has no number is noted. -/
theorem encodeRef_resolves (target : ObjId) :
    Resolves P (encodeRef P target) fun L => target ∈ L.values.keys where
  grows := encodeRef_keeps Encoder.grows_closed target
  numbered L e b e' hL h hsame := by
    rw [encodeRef, get_bind] at h
    obtain ⟨⟨⟩, e₁, h₁, h⟩ := bind_eq_ok.1 h
    have h₁ : e₁ = e := by
      unfold Enc.abslAssert at h₁
      split at h₁ <;> cases h₁
      rfl
    obtain ⟨bs, hbs⟩ := encodeInt32_writes (e.getValueRef target).toInt32
    rw [modify_bind, writeByte_bind, bind_apply_ok (hbs _)] at h
    cases h
    subst h₁
    by_contra hmem
    have hnone : e₁.getValueRef target = -1 := by
      rw [Encoder.getValueRef, KeyTable.number?_eq_none.2 (hL.values ▸ hmem)]
    rw [if_pos hnone] at hsame
    simp at hsame

theorem encodeValues_resolves : ∀ {vs : List Object},
    (∀ v ∈ vs, Resolves P (encodeObject P v) (·.Backward v.walk)) →
      Resolves P (encodeValues P vs) (·.Backward (vs.flatMap walk))
  | [], _ => (Resolves.silent (Encoder.grows_closed.pure ())).congr fun _ _ => trivial
  | v :: vs, h => by
    rw [List.forall_mem_cons] at h
    refine (Resolves.bind (encodeObject_tracks v) h.1 fun _ => encodeValues_resolves h.2).congr
      fun L hL => ?_
    rw [List.flatMap_cons, Ledger.backward_append]
    exact hL

theorem encodeEntries_resolves : ∀ {es : List (Object × Object)},
    (∀ e ∈ es, Resolves P (encodeObject P e.1) (·.Backward e.1.walk) ∧
      Resolves P (encodeObject P e.2) (·.Backward e.2.walk)) →
      Resolves P (encodeEntries P es) (·.Backward (es.flatMap fun e => e.1.walk ++ e.2.walk))
  | [], _ => (Resolves.silent (Encoder.grows_closed.pure ())).congr fun _ _ => trivial
  | e :: es, h => by
    rw [List.forall_mem_cons] at h
    refine (Resolves.bind (encodeObject_tracks e.1) h.1.1 fun _ => Resolves.bind (encodeObject_tracks e.2)
      h.1.2 fun _ => encodeEntries_resolves h.2).congr fun L hL => ?_
    rw [List.flatMap_cons, List.append_assoc, Ledger.backward_append, Ledger.backward_append]
    exact hL

/-- **If no container without a number was met, all references point back.** -/
theorem encodeObject_resolves (o : Object) : Resolves P (encodeObject P o) (·.Backward o.walk) := by
  have grows : Closed P (Encoder.Grows P) := Encoder.grows_closed
  have value (i : ObjId) : Keeps (Encoder.Grows P) (enterValue i) := .modify fun e => grows.value e i
  have leaf {m : Enc Bool} {x : Object} (hm : Keeps (Encoder.Grows P) m) (hx : x.target? = none) :
      Resolves P m (·.Backward [x]) :=
    (Resolves.silent hm).congr fun L _ => (Ledger.backward_cons hx).2 trivial
  induction o using Object.induct with
  | null => exact leaf (grows.writes (null_carries (P := P)).writes) rfl
  | boolean b => exact leaf (grows.writes (bool_carries (P := P) b).writes) rfl
  | integer i => exact leaf (encodeInt32_keeps grows i) rfl
  | long i => exact leaf (grows.writes (int64_carries (P := P) i).writes) rfl
  | double d => exact leaf (grows.writes (double_carries (P := P) d).writes) rfl
  | date t => exact leaf (grows.writes (date_carries (P := P) t).writes) rfl
  | string s => exact leaf (grows.string s) rfl
  | binary b => exact leaf (grows.writes (encodeBytes_writes b)) rfl
  | ref i =>
    refine (encodeRef_resolves i).congr fun L hi => ⟨fun j hj => ?_, trivial⟩
    obtain rfl : i = j := Option.some.inj hj
    exact hi
  | list i t vs ih =>
    have hvs := (encodeValues_resolves ih).before (encodeValues_tracks fun v _ => encodeObject_tracks v)
      fun _ => grows.pure true
    rw [walk_list]
    simp only [Ledger.backward_cons (x := .list i t vs) rfl]
    cases t with
    | none =>
      exact .after (enterValue_tracks i) (value i) fun _ => .after (Tracks.rawWrite _)
        (grows.rawWrite _) fun _ => .after (encodeLength_tracks _) (encodeLength_keeps grows _)
          fun _ => hvs
    | some t =>
      exact .after (enterValue_tracks i) (value i) fun _ => .after (Tracks.rawWrite _)
        (grows.rawWrite _) fun _ => .after (encodeTypeRef_tracks t) (grows.typeRef t) fun _ =>
          .after (encodeLength_tracks _) (encodeLength_keeps grows _) fun _ => hvs
  | map i t es ih =>
    have hes := (encodeEntries_resolves ih).before
      (encodeEntries_tracks fun e _ => ⟨encodeObject_tracks e.1, encodeObject_tracks e.2⟩)
      fun _ => grows.bind (grows.rawWrite [byteOf 0x5a]) fun _ => grows.pure true
    rw [walk_map]
    simp only [Ledger.backward_cons (x := .map i t es) rfl]
    cases t with
    | none =>
      exact .after (enterValue_tracks i) (value i) fun _ => .after (Tracks.rawWrite _)
        (grows.rawWrite _) fun _ => hes
    | some t =>
      exact .after (enterValue_tracks i) (value i) fun _ => .after (Tracks.rawWrite _)
        (grows.rawWrite _) fun _ => .after (encodeTypeRef_tracks t) (grows.typeRef t) fun _ => hes
  | classInstance i d vs ih =>
    have hvs := (encodeValues_resolves ih).before (encodeValues_tracks fun v _ => encodeObject_tracks v)
      fun _ => grows.pure true
    rw [walk_classInstance]
    simp only [Ledger.backward_cons (x := .classInstance i d vs) rfl]
    exact .after (enterValue_tracks i) (value i) fun _ => .after (encodeRawDefinition_tracks d)
      (grows.definition d) fun _ => hvs

/-! ### Sizes -/

/-- The strings and lists of the object are not too long for the numbers in which an encoder counts:
a string is cut into chunks at 32-bit offsets, and a list has an `int32_t` as its length. -/
def Object.Measured : Object → Prop
  | .string s => s.length < 2 ^ 32
  | .binary b => b.length < 2 ^ 32
  | .list _ t vs => (∀ s, t = some s → s.length < 2 ^ 32) ∧ vs.length < 2 ^ 31
  | .map _ t _ => ∀ s, t = some s → s.length < 2 ^ 32
  | .classInstance _ d _ => ∀ s ∈ d.type :: d.fieldNames, s.length < 2 ^ 32
  | _ => True

theorem Readable.intact {s : Bytes} (h : Readable s) (hlen : s.length < 2 ^ 32) : Intact P.plain s := by
  obtain ⟨n, hn⟩ := h
  exact .of_characters rfl hn hlen

/-- What a decoder has made is sent in any order. -/
theorem Object.Made.portable {x : Object} (h : x.Made) (hm : x.Measured) (w : VisitingOrder) :
    (x.visited w).Portable P.plain := by
  cases x with
  | string s => exact Readable.intact h hm
  | binary b => exact hm
  | list i t vs =>
    rw [visited_list]
    exact ⟨fun s hs => (h s hs).intact (hm.1 s hs), by rw [List.length_map]; exact hm.2⟩
  | map i t es =>
    rw [visited_map]
    exact fun s hs => (h s hs).intact (hm s hs)
  | classInstance i d vs =>
    rw [visited_classInstance]
    obtain ⟨htype, hnames⟩ := List.forall_mem_cons.1 hm
    exact ⟨⟨h.1.type.intact htype, fun s hs => (h.1.fieldNames s hs).intact (hnames s hs), h.1.length⟩,
      by rw [List.length_map]; exact h.2⟩
  | _ => trivial

theorem Object.Lossless.visited {x : Object} (h : x.Lossless) (w : VisitingOrder) :
    (x.visited w).Lossless := by
  cases x <;> exact h

/-- The keys of a map are the same in any order. -/
theorem keyTargets_visited {x : Object} (w : VisitingOrder) (h : x.keyTargets = []) :
    (x.visited w).keyTargets = [] := by
  cases x with
  | map i t es =>
    rw [visited_map]
    refine List.Perm.eq_nil (((w.perm i _).filterMap _).trans (.of_eq ?_))
    rw [List.filterMap_map, ← h]
    refine congrArg (fun g => es.filterMap g) (funext fun e => ?_)
    exact target?_visited e.1
  | _ => rfl

/-! ### Numbers in any order -/

theorem Ledger.Fits.visited {o : Object} (h : (Ledger.empty.notes o.walk).Fits) (w : VisitingOrder) :
    (Ledger.empty.notes (o.visited w).walk).Fits := by
  rw [Ledger.notes_eq] at h ⊢
  exact ⟨(KeyTable.size_enterAll_perm (filterMap_walk_visited typeName?_visited o)).trans_le h.types,
    (KeyTable.size_enterAll_perm (filterMap_walk_visited definition?_visited o)).trans_le h.defs,
    (KeyTable.size_enterAll_perm (filterMap_walk_visited self?_visited o)).trans_le h.values⟩

/-! ### What was decoded -/

/-- A pair that was given to a hash map was stored, so that its key was not there before. -/
def Event.Stored : Event → Prop
  | .insertion c => c.stored = true
  | .reference _ => True

instance : DecidablePred Event.Stored
  | .insertion c => inferInstanceAs (Decidable (c.stored = true))
  | .reference _ => isTrue trivial

/-- A new decoder of a plain build has returned the object, which has different keys in each of its
maps, none of them a reference, leaves that arrive as they are, and names and containers whose
numbers fit. -/
structure Returned (P : Platform) (s : State UInt8 Tables) (o : Object) (s' : State UInt8 Tables) :
    Prop where
  new : s.aux.New
  decoded : decodeObject P.plain s = .ok o s'
  /-- No key was read twice for a map. -/
  stored : ∀ event ∈ s'.aux.events, event.Stored
  /-- In whatever order, no key is equal to a later one. -/
  apart : ∀ w, ∀ x ∈ o.walk, (x.visited w).KeysApart
  direct : ∀ x ∈ o.walk, x.keyTargets = []
  lossless : ∀ x ∈ o.walk, x.Lossless
  fits : (Ledger.empty.notes o.walk).Fits

/-- In whatever order the entries of its maps are visited, a new encoder returns `true` for the
object and has a number for every reference, and a new decoder returns an isomorphic object for what
was written. -/
def Resends (P : Platform) (o : Object) : Prop :=
  ∀ w, ∃ e, encodeObject P.plain (o.visited w) .empty = .ok (true, e) ∧ e.unnumbered = [] ∧
    ∀ t : Tables, t.New → ∃ value s, decodeObject P.plain ⟨.ofList e.output, t⟩ = .ok value s ∧
      Isomorphic [o.visited w] [value]

namespace Returned

variable {s s' : State UInt8 Tables} {o : Object} (h : Returned P s o s')
include h

theorem arrives : Arrives 0 o.walk s'.aux.heap.length := by
  have hknown : Known s.aux ∧ s.aux.heap.length = 0 := by
    obtain ⟨hash, haux⟩ := h.new
    rw [haux]
    exact ⟨⟨by simp [Tables.empty], by simp [Tables.empty], by simp [Tables.empty]⟩, rfl⟩
  obtain ⟨-, -, harrives⟩ := decodeObject_arrives.ok h.decoded hknown.1
  rwa [hknown.2] at harrives

/-- Nothing was destroyed, so that every reference points into the object. -/
theorem owned : ∀ r ∈ o.refs, r ∈ o.containers := by
  have hfresh : s.aux.Fresh := by
    obtain ⟨hash, haux⟩ := h.new
    rw [haux]
    exact ⟨rfl, rfl, rfl⟩
  have hspares : s'.aux.events.Pairwise Event.Spares := by
    refine List.pairwise_of_forall_mem_list fun a ha b _ => ?_
    cases a with
    | insertion c =>
      cases b with
      | insertion c' => trivial
      | reference r =>
        have hc : c.stored = true := h.stored _ ha
        rw [Event.Spares, Insertion.dropped, if_pos hc]
        exact List.not_mem_nil
    | reference r => trivial
  have howned := decodes_owned hfresh (.cons h.decoded (.nil s')) hspares
  intro r hr
  rw [List.flatMap_singleton, List.flatMap_singleton] at howned
  exact (howned r hr).1

/-- The calls for an object that is visited in the order `w`. -/
def journey (w : VisitingOrder) : Journey where
  final := Ledger.empty.notes (o.visited w).walk
  distinct := True
  settled := False
  direct := True
  types := (h.fits.visited w).types
  defs := (h.fits.visited w).defs
  distinct_of_hashed _ := trivial

theorem lossless_visited (w : VisitingOrder) : ∀ x ∈ (o.visited w).walk, x.Lossless := by
  intro x hx
  obtain ⟨y, hy, rfl⟩ := mem_walk_visited.1 hx
  exact (h.lossless y hy).visited w

theorem departs (hfree : ∀ x ∈ o.walk, x.CrossFree) (hsize : ∀ x ∈ o.walk, x.Measured)
    (w : VisitingOrder) : Departs P.plain (h.journey w) .empty [] (o.visited w).walk where
  portable x hx := by
    obtain ⟨y, hy, rfl⟩ := mem_walk_visited.1 hx
    exact (h.arrives.made y hy).portable (hsize y hy) w
  backward := backward_visited w o h.arrives.before hfree fun r hr => .inr (h.owned r hr)
  within := .refl _
  fits _ _ _ := (h.fits.visited w).values
  distinct _ x hx := by
    have hlossless := fun y hy => h.lossless_visited w y ((o.visited w).walk_subset x hx y hy)
    obtain ⟨y, hy, rfl⟩ := mem_walk_visited.1 hx
    exact (h.apart w y hy).distinct hlossless
  keys hs := hs.elim
  direct _ x hx := by
    obtain ⟨y, hy, rfl⟩ := mem_walk_visited.1 hx
    exact keyTargets_visited w (h.direct y hy)
  fresh hs := hs.elim

theorem values_keys (w : VisitingOrder) :
    (h.journey w).final.values.keys = (o.visited w).containers := by
  have hnodup : (o.visited w).containers.Nodup :=
    (containers_visited o).nodup_iff.2 (nodup_of_before h.arrives.before)
  exact (congrArg (fun L : Ledger => L.values.keys) (Ledger.notes_eq _ _)).trans
    (KeyTable.keys_enterAll_of_nodup hnodup)

/-- Without references across entries, the object is sent again in every order. -/
theorem resends (hfree : ∀ x ∈ o.walk, x.CrossFree) (hsize : ∀ x ∈ o.walk, x.Measured) :
    Resends P o := by
  intro w
  have hdeparts : Departs P.plain (h.journey w) .empty [] ([o.visited w].flatMap walk) := by
    rw [List.flatMap_singleton]
    exact h.departs hfree hsize w
  have hvalues : (h.journey w).final.values.keys = [o.visited w].flatMap containers := by
    rw [List.flatMap_singleton]
    exact h.values_keys w
  obtain ⟨e, hencode, hnumbered, hreads⟩ := hdeparts.round_trip (.inr trivial) hvalues
    (List.forall_mem_singleton.2 (h.lossless_visited w))
  refine ⟨e, ?_, hnumbered, fun t ht => ?_⟩
  · obtain ⟨b, e₁, hfirst, hrest⟩ := bind_eq_ok.1 hencode
    cases hrest
    exact hfirst
  · obtain ⟨values, s₁, hread, ⟨f, hf, rfl⟩, -⟩ := hreads t ht
    cases hread with
    | cons head tail =>
      cases tail
      exact ⟨_, s₁, head, f, hf, rfl⟩

/-- An object that is sent in the reversed order has no references across entries. -/
theorem crossFree (hresends : Resends P o) : ∀ x ∈ o.walk, x.CrossFree := by
  obtain ⟨e, hencode, hnumbered, -⟩ := hresends .reversed
  exact crossFree_of_backward h.arrives.before
    ((encodeObject_resolves _).numbered Ledger.describes_empty hencode hnumbered)

end Returned

/-- **What was decoded is sent again in every order exactly if no reference in one entry of a map points
into another entry of the map**, where strings and lists are short enough for the numbers in which an
encoder counts. -/
theorem resends_iff (P : Platform) {s s' : State UInt8 Tables} {o : Object} (h : Returned P s o s')
    (hsize : ∀ x ∈ o.walk, x.Measured) : Resends P o ↔ ∀ x ∈ o.walk, x.CrossFree :=
  ⟨h.crossFree, fun hfree => h.resends hfree hsize⟩

/-- Keys that are different either way are different in any order. -/
theorem keysApart_visited {i : ObjId} {t : Option Bytes} {es : List (Object × Object)}
    (w : VisitingOrder) (h : es.Pairwise fun e e' => (e.1.visited w).equal (e'.1.visited w) = false ∧
      (e'.1.visited w).equal (e.1.visited w) = false) : ((map i t es).visited w).KeysApart := by
  have hentries : (es.map fun e => (e.1.visited w, e.2.visited w)).Pairwise fun e e' =>
      e.1.equal e'.1 = false ∧ e'.1.equal e.1 = false := List.pairwise_map.2 h
  rw [visited_map]
  exact ((w.perm i _).symm.pairwise hentries fun hab => hab.symm).imp And.left

/-- A reference, or a list without elements. -/
def part : ObjId ⊕ ObjId → Object
  | .inl target => .ref target
  | .inr i => .untypedList i []

/-- A map with two parts under the keys 0 and 1. -/
def twoParts (x y : ObjId ⊕ ObjId) : Object := .untypedMap 0 [(.integer 0, part x), (.integer 1, part y)]

private def partOf : Object → Option (ObjId ⊕ ObjId)
  | .ref target => some (.inl target)
  | .untypedList i [] => some (.inr i)
  | _ => none

private theorem eq_of_partOf {o : Object} {x : ObjId ⊕ ObjId} (h : partOf o = some x) : o = part x := by
  unfold partOf at h
  split at h <;> cases h <;> rfl

/-- The object is the map of the two parts. -/
private def hasParts (x y : ObjId ⊕ ObjId) : Object → Bool
  | .untypedMap i [(.integer key, v), (.integer key', v')] =>
    decide (i = 0 ∧ key = 0 ∧ key' = 1 ∧ partOf v = some x ∧ partOf v' = some y)
  | _ => false

private theorem eq_of_hasParts {x y : ObjId ⊕ ObjId} {o : Object} (h : hasParts x y o = true) :
    o = twoParts x y := by
  unfold hasParts at h
  split at h
  · obtain ⟨rfl, rfl, rfl, hx, hy⟩ := of_decide_eq_true h
    rw [eq_of_partOf hx, eq_of_partOf hy, twoParts]
  · cases h

theorem walk_twoParts (x y : ObjId ⊕ ObjId) :
    (twoParts x y).walk = [twoParts x y, .integer 0, part x, .integer 1, part y] := by
  cases x <;> cases y <;> rfl

/-- A map of two parts that a new decoder returns. -/
theorem returned_twoParts (bs : Bytes) (x y : ObjId ⊕ ObjId)
    (hrun : (decodeObject Platform.simple.plain ⟨.ofList bs, .empty⟩).any (fun value s' =>
      hasParts x y value && decide (∀ event ∈ s'.aux.events, event.Stored)) = true)
    (hfits : (Ledger.empty.notes (twoParts x y).walk).Fits) :
    ∃ s', Returned .simple ⟨.ofList bs, .empty⟩ (twoParts x y) s' := by
  obtain ⟨value, s', h, hv⟩ := Outcome.exists_of_any hrun
  rw [Bool.and_eq_true, decide_eq_true_eq] at hv
  obtain rfl := eq_of_hasParts hv.1
  exact ⟨s', {
    new := ⟨0, rfl⟩
    decoded := h
    stored := hv.2
    apart := fun w => by
      have hpart (z : ObjId ⊕ ObjId) : ((part z).visited w).KeysApart := by cases z <;> trivial
      simp only [walk_twoParts, List.forall_mem_cons]
      exact ⟨keysApart_visited w (List.pairwise_pair.2 ⟨rfl, rfl⟩), trivial, hpart x, trivial, hpart y,
        fun _ h => absurd h List.not_mem_nil⟩
    direct := by
      have hpart (z : ObjId ⊕ ObjId) : (part z).keyTargets = [] := by cases z <;> rfl
      simp only [walk_twoParts, List.forall_mem_cons]
      exact ⟨rfl, rfl, hpart x, rfl, hpart y, fun _ h => absurd h List.not_mem_nil⟩
    lossless := by
      have hpart (z : ObjId ⊕ ObjId) : (part z).Lossless := by cases z <;> trivial
      simp only [walk_twoParts, List.forall_mem_cons]
      exact ⟨trivial, trivial, hpart x, trivial, hpart y, fun _ h => absurd h List.not_mem_nil⟩
    fits := hfits }⟩

theorem measured_twoParts (x y : ObjId ⊕ ObjId) : ∀ o ∈ (twoParts x y).walk, o.Measured := by
  have hpart (z : ObjId ⊕ ObjId) : (part z).Measured := by
    cases z with
    | inl r => trivial
    | inr i => exact ⟨fun s hs => (by cases hs), by simp⟩
  simp only [walk_twoParts, List.forall_mem_cons]
  exact ⟨fun s hs => (by cases hs), trivial, hpart x, trivial, hpart y, fun _ h => absurd h List.not_mem_nil⟩

/-- The first part is a reference to the map, and the second one a list. -/
abbrev uncrossed : Object := twoParts (.inl 0) (.inr 1)

/-- The first part is a list, and the second one a reference to the list. -/
abbrev crossed : Object := twoParts (.inr 1) (.inl 1)

/-- A reference around the entries, and a list. -/
theorem resends_uncrossed : ∃ s', Returned .simple
      ⟨.ofList [0x48, 0x90, 0x51, 0x90, 0x91, 0x78, 0x5a], .empty⟩ uncrossed s' ∧
    (Resends .simple uncrossed ↔ ∀ x ∈ uncrossed.walk, x.CrossFree) ∧
    ∀ x ∈ uncrossed.walk, x.CrossFree := by
  obtain ⟨s', hreturned⟩ := returned_twoParts [0x48, 0x90, 0x51, 0x90, 0x91, 0x78, 0x5a] (.inl 0) (.inr 1)
    (by decide +kernel) ⟨by decide, by decide, by decide⟩
  refine ⟨s', hreturned, resends_iff .simple hreturned (measured_twoParts _ _), ?_⟩
  simp only [walk_twoParts, List.forall_mem_cons]
  exact ⟨List.pairwise_pair.2 ⟨by decide, by decide⟩, trivial, trivial, trivial, trivial,
    fun _ h => absurd h List.not_mem_nil⟩

/-- Whoever visits the second entry first has no number for the list. -/
theorem resends_crossed : ∃ s', Returned .simple
      ⟨.ofList [0x48, 0x90, 0x78, 0x91, 0x51, 0x91, 0x5a], .empty⟩ crossed s' ∧
    (∀ x ∈ crossed.walk, x.Measured) ∧ ¬ Resends .simple crossed := by
  obtain ⟨s', hreturned⟩ := returned_twoParts [0x48, 0x90, 0x78, 0x91, 0x51, 0x91, 0x5a] (.inr 1) (.inl 1)
    (by decide +kernel) ⟨by decide, by decide, by decide⟩
  refine ⟨s', hreturned, measured_twoParts _ _, fun hresends => ?_⟩
  obtain ⟨e, hencode, -⟩ := hresends .reversed
  cases hencode

end Hessian2
