import Hessian2.Conversation
import Hessian2.Ownership
import Hessian2.Travel

/-!
# Conversations are read as they were sent

What a sequence of calls of one encoder writes is read by the same sequence of calls of one decoder.

* `decodeMessage`, `decodeMessages` : the calls that read what a conversation wrote.
* `Message.Departs`, `DepartAll` : messages that can be sent, one after the other.
* `Message.Delivered` : what a call returns for a message.
* `messages_travel` : **every conversation is delivered, and takes both sides to the same tables.**
-/

namespace Hessian2

open Parsing Parsing.Parser Enc

variable {P : Platform} {J : Journey} {L : Ledger} {t : Tables}

/-- The calls that read what was written for a message, with what they return.  A definition that
comes in full is followed by its number, as the start of an instance. -/
def decodeMessage (P : Platform) : Message → Dec (List Message)
  | .object _ => decodeObject P >>= fun value => pure [.object value]
  | .typeRef _ => decodeTypeRef P >>= fun value => pure [.typeRef value]
  | .definition _ => ahead fun code => decodeDefinition P >>= fun first =>
      if code = 0x43 then decodeDefinition P >>= fun second =>
        pure [.definition first, .definition second]
      else pure [.definition first]

/-- One message after the other. -/
def decodeMessages (P : Platform) : List Message → Dec (List (List Message))
  | [] => pure []
  | m :: ms => decodeMessage P m >>= fun r => decodeMessages P ms >>= fun rs => pure (r :: rs)

/-- The message can be sent to a decoder that is up to date with the ledger. -/
def Message.Departs (P : Platform) (J : Journey) (L : Ledger) : Message → Prop
  | object o => Hessian2.Departs P J L [] o.walk
  | typeRef v => Intact P v ∧ (L.send (.typeRef v)).Prefix J.final
  | definition d => d.Intact P ∧ (L.send (.definition d)).Prefix J.final

/-- The messages can be sent one after the other. -/
def DepartAll (P : Platform) (J : Journey) : Ledger → List Message → Prop
  | _, [] => True
  | L, m :: ms => m.Departs P J L ∧ DepartAll P J (L.send m) ms

/-- What a call returns for the message, if the decoder had created `n` containers before. -/
def Message.Delivered (J : Journey) (n : ℕ) : Message → List Message → Prop
  | object o, r => ∃ value, r = [.object value] ∧
      (J.distinct → value = o.received.relocate J.final.number n)
  | m, r => r ≠ [] ∧ ∀ m' ∈ r, m' = m

/-- What the calls return for the messages. -/
def DeliveredAll (J : Journey) : ℕ → List Message → List (List Message) → Prop
  | _, [], rs => rs = []
  | n, m :: ms, rs => ∃ r rs', rs = r :: rs' ∧ m.Delivered J n r ∧
      DeliveredAll J (n + m.containers.length) ms rs'

theorem message_travels {m : Message} (hd : m.Departs P J L) (hm : Mirrors P J L [] t) :
    ∃ bs r t', Lands P J (encodeMessage P m) true (decodeMessage P m) r L (L.send m) [] bs t t'
      m.containers.length ∧ m.Delivered J t.heap.length r := by
  cases m with
  | object o =>
    obtain ⟨c, cs, value, t', -, hland, hvalue⟩ := encodeObject_travels o hd hm
    rw [Ledger.send_object]
    exact ⟨c :: cs, [.object value], t', hland.map fun value => [Message.object value], value, rfl,
      hvalue⟩
  | typeRef v =>
    obtain ⟨c, cs, hland⟩ := typeRef_lands hm hd.1.carries (hd.2.types.length_le.trans J.types)
    exact ⟨c :: cs, [.typeRef v], _, hland.map fun value => [Message.typeRef value],
      List.cons_ne_nil _ _, fun m' hm' => List.mem_singleton.1 hm'⟩
  | definition d =>
    have hlen : (L.defs.enter d).size ≤ 2 ^ 15 := hd.2.defs.length_le.trans J.defs
    obtain ⟨full, c, cs, hc, hemits, hread, hfull⟩ := definition_travels (L := L) hd.1.sent hlen
    set t₁ : Tables := { t with defRef := (L.defs.enter d).keys } with ht₁
    have hafter : Mirrors P J (L.send (.definition d)) [] t₁ := hm.enterDef d
    -- the definition is known and only its number is sent, or it is new and sent in full
    rcases hfull with ⟨rfl, hold⟩ | ⟨fs, rfl, hnew⟩
    · refine ⟨c :: cs, [.definition d], t₁, ⟨hemits, .ahead ?_, hafter, rfl⟩, List.cons_ne_nil _ _,
        fun m' hm' => List.mem_singleton.1 hm'⟩
      have hsame : t₁ = t := by
        rw [ht₁, hold, ← hm.defs]
      rw [hsame]
      refine (hread t (by rw [hold, hm.defs])).upTo.bind_nil ?_
      rw [if_neg hc.ne_definition]
      exact (reads_pure _ t).upTo
    · refine ⟨_, [.definition d, .definition d], t₁, ⟨hemits, .ahead ?_, hafter, rfl⟩,
        List.cons_ne_nil _ _, ?_⟩
      · refine (hnew t hm.defs).upTo.bind ?_
        rw [if_pos rfl]
        exact (hread t₁ rfl).upTo.bind_nil (reads_pure _ t₁).upTo
      · simp

/-- **Every conversation is delivered**, and takes both sides to the same tables. -/
theorem messages_travel {ms : List Message} : ∀ ⦃L t⦄, DepartAll P J L ms → Mirrors P J L [] t →
    ∃ bs rs t', Lands P J (encodeMessages P ms) (ms.map fun _ => true) (decodeMessages P ms) rs L
      (L.sends ms) [] bs t t' (ms.flatMap Message.containers).length ∧
      DeliveredAll J t.heap.length ms rs := by
  induction ms with
  | nil =>
    intro L t _ hm
    exact ⟨[], [], t, ⟨.pure [] L, (reads_pure [] t).upTo, hm, rfl⟩, rfl⟩
  | cons m ms ih =>
    intro L t hd hm
    obtain ⟨bs, r, t₁, hland, hr⟩ := message_travels hd.1 hm
    obtain ⟨cs, rs, t', hlands, hrs⟩ := ih hd.2 hland.mirrors
    rw [hland.length] at hrs
    refine ⟨bs ++ cs, r :: rs, t', ?_, r, rs, rfl, hr, hrs⟩
    rw [List.flatMap_cons, List.length_append]
    exact hland.bind { hlands with
      emits := hlands.emits.bind_nil (.pure _ _)
      reads := hlands.reads.bind_nil (reads_pure (r :: rs) t').upTo }

/-! ### Objects only -/

/-- A decoder in the state in which it is created, in a process that may have hashed binary data. -/
def Tables.New (t : Tables) : Prop := ∃ hash, t = { Tables.empty with binaryHash := hash }

theorem Tables.New.mirrors (h : t.New) : Mirrors P J .empty [] t := by
  obtain ⟨hash, rfl⟩ := h
  exact ⟨rfl, rfl, rfl, Nat.le_refl 0, fun _ => rfl, fun _ i hi => absurd hi List.not_mem_nil⟩

theorem departAll_objects {os : List Object} : ∀ {L : Ledger},
    Departs P J L [] (os.flatMap Object.walk) → DepartAll P J L (os.map .object) := by
  induction os with
  | nil => exact fun _ => trivial
  | cons o os ih =>
    intro L h
    rw [List.flatMap_cons] at h
    refine ⟨h.append_left, ?_⟩
    rw [Ledger.send_object]
    exact ih h.append_right

theorem containers_objects (os : List Object) :
    (os.map Message.object).flatMap Message.containers = os.flatMap Object.containers :=
  List.flatMap_map _ _ _

theorem sends_objects (L : Ledger) (os : List Object) :
    L.sends (os.map .object) = L.notes (os.flatMap Object.walk) := by
  induction os generalizing L with
  | nil => rfl
  | cons o os ih =>
    rw [List.map_cons, Ledger.sends_cons, Ledger.send_object, ih, List.flatMap_cons,
      Ledger.notes_append]

/-- What is delivered for objects. -/
theorem DeliveredAll.objects {os : List Object} : ∀ {n : ℕ} {rs : List (List Message)},
    DeliveredAll J n (os.map .object) rs → J.distinct →
      rs = (Object.relocateValues J.final.number n (os.map Object.received)).map
        fun v => [.object v] := by
  induction os with
  | nil => exact fun h _ => h
  | cons o os ih =>
    rintro n rs ⟨r, rs', rfl, ⟨value, rfl, hvalue⟩, h⟩ hd
    rw [List.map_cons, Object.relocateValues, List.map_cons, hvalue hd, ih h hd,
      Object.containers_received]
    rfl

/-- Reading the messages is calling `decode<Object>` as often as there are objects. -/
theorem decodeMessages_objects {os : List Object} : ∀ {s s' : State UInt8 Tables}
    {values : List Object}, values.length = os.length →
      (decodeMessages P (os.map .object) s = .ok (values.map fun v => [.object v]) s' ↔
        Decodes P s values s') := by
  induction os with
  | nil =>
    intro s s' values hlen
    obtain rfl := List.length_eq_zero_iff.1 hlen
    constructor
    · rintro ⟨⟩
      exact .nil _
    · rintro ⟨⟩
      rfl
  | cons o os ih =>
    intro s s' values hlen
    cases values with
    | nil => cases hlen
    | cons v vs =>
      rw [List.map_cons, decodeMessages, Parser.bind_eq_ok]
      -- both read one object, and then the rest of the messages
      constructor
      · rintro ⟨r, s₁, hr, h⟩
        obtain ⟨rs, s₂, hrs, h⟩ := Parser.bind_eq_ok.1 h
        obtain ⟨value, s₃, hvalue, h'⟩ := Parser.bind_eq_ok.1 hr
        cases h'
        injection h with h h₂
        injection h with h h₃
        obtain rfl : value = v := by injection h with h; injection h
        subst h₃ h₂
        exact .cons hvalue ((ih (Nat.succ.inj hlen)).1 hrs)
      · intro h
        cases h with
        | cons head tail =>
          refine ⟨[.object v], _, Parser.bind_eq_ok.2 ⟨v, _, head, rfl⟩, ?_⟩
          exact Parser.bind_eq_ok.2 ⟨_, s', (ih (Nat.succ.inj hlen)).2 tail, rfl⟩

end Hessian2
