import Hessian2.ListGrammar

/-!
# The grammar of instances

What `decode<ClassInstanceObject>` accepts, and what `decode<Object>` accepts and returns an
instance for.

* `DirectHeader`, `GenericHeader` : the bytes in front of the fields of an instance, as the one and
  as the other reads them.
* `InstanceSentence` : an instance.
* `Agrees` : both decoders do the same.
* `Doubled` : two definitions, and behind them what one of the decoders takes for an instance.
* `direct_agrees_iff` : **the decoders agree exactly where no such definitions lead.**
-/

namespace Hessian2

open Parsing Parsing.Parser Reader

variable {P : Platform} {t t' : Tables} {bs : Bytes} {o : Object} {result : ObjId}
  {table table' : List RawDefinition} {d : RawDefinition}

/-! ### Sentences -/

/-- The bytes of an instance in front of its fields, for `decode<ClassInstanceObject>`: the number
of a definition, or a definition and behind it a definition or the number of one. -/
inductive DirectHeader (P : Platform) (table : List RawDefinition) :
    Bytes → RawDefinition → List RawDefinition → Prop where
  | number {number : Bytes} {d : RawDefinition} (h : DefinitionSentence P table number d table) :
    DirectHeader P table number d table
  | definition {definition second : Bytes} {d₁ d : RawDefinition} {table₁ table₂ : List RawDefinition}
    (h₁ : DefinitionSentence P table (0x43 :: definition) d₁ table₁)
    (h₂ : DefinitionSentence P table₁ second d table₂) :
    DirectHeader P table (0x43 :: definition ++ second) d table₂

/-- The same for `decode<Object>`: any number of definitions, and behind them the number of one. -/
inductive GenericHeader (P : Platform) :
    List RawDefinition → Bytes → RawDefinition → List RawDefinition → Prop where
  | number {table : List RawDefinition} {number : Bytes} {d : RawDefinition}
    (h : DefinitionSentence P table number d table) : GenericHeader P table number d table
  | definition {table table₁ table₂ : List RawDefinition} {definition header : Bytes}
    {d₁ d : RawDefinition} (h₁ : DefinitionSentence P table (0x43 :: definition) d₁ table₁)
    (h : GenericHeader P table₁ header d table₂) :
    GenericHeader P table (0x43 :: definition ++ header) d table₂

/-- The tables in front of the fields of an instance. -/
def Tables.entered (t : Tables) (table : List RawDefinition) : Tables :=
  { t.started .classInstance with defRef := table }

/-- The fields of an instance: as many objects as its definition has field names. -/
structure FieldSequence (P : Platform) (t : Tables) (d : RawDefinition) (bs : Bytes)
    (values : List Object) (t' : Tables) : Prop where
  sequence : Sequence (Element P) t bs values t'
  length : values.length = d.fieldNames.length

/-- The bytes of an instance, given those of its header. -/
inductive InstanceSentence (P : Platform)
    (Header : List RawDefinition → Bytes → RawDefinition → List RawDefinition → Prop) (t : Tables) :
    Bytes → Object → Tables → Prop where
  | intro {header fields : Bytes} {d : RawDefinition} {table : List RawDefinition}
    {values : List Object} {t₁ : Tables} (hh : Header t.defRef header d table)
    (hf : FieldSequence P (t.entered table) d fields values t₁) :
    InstanceSentence P Header t (header ++ fields) (.classInstance t.heap.length d values)
      (t₁.finished t.heap.length (.classInstance t.heap.length d values))

/-- A definition leads with its byte and goes into the table; in front of the number of one stands
the lead byte of an instance, and the table stays. -/
theorem DefinitionSentence.cases_lead (h : DefinitionSentence P table bs d table') :
    (table' = table ++ [d] ∧ ∃ definition, bs = 0x43 :: definition) ∨
      (table' = table ∧ ∃ code rest, bs = code :: rest ∧ leadOf code = .classInstance) := by
  have hcompact : ∀ b : UInt8, 0x60 ≤ b.toNat ∧ b.toNat ≤ 0x6f → leadOf b = .classInstance :=
    forall_byte (by decide +kernel)
  cases h with
  | full => exact .inl ⟨rfl, _, rfl⟩
  | number => exact .inr ⟨rfl, _, _, rfl, by decide⟩
  | compact hb => exact .inr ⟨rfl, _, _, rfl, hcompact _ hb⟩

theorem DefinitionSentence.number_lead (h : DefinitionSentence P table bs d table) :
    ∃ code rest, bs = code :: rest ∧ leadOf code = .classInstance := by
  obtain ⟨htable, -⟩ | ⟨-, hlead⟩ := h.cases_lead
  · exact absurd (congrArg List.length htable) (by simp)
  · exact hlead

/-- Behind the lead byte of a definition stands a definition. -/
theorem DefinitionSentence.definition_lead {rest rest' : Bytes}
    (h : DefinitionSentence P table bs d table') (hbs : 0x43 :: rest = bs ++ rest') :
    ∃ definition, bs = 0x43 :: definition := by
  obtain ⟨-, hlead⟩ | ⟨-, code, bs', rfl, hlead⟩ := h.cases_lead
  · exact hlead
  · rw [← (List.cons.inj hbs).1] at hlead
    exact absurd hlead (by decide)

theorem DefinitionSentence.unique {bs' rest rest' : Bytes} {d' : RawDefinition}
    {table'' : List RawDefinition} (h : DefinitionSentence P table bs d table')
    (h' : DefinitionSentence P table bs' d' table'') (hu : bs ++ rest = bs' ++ rest') :
    bs = bs' ∧ d = d' ∧ table' = table'' := by
  have reads {bs : Bytes} {d : RawDefinition} {table' : List RawDefinition}
      (h : DefinitionSentence P table bs d table') : Reads (decodeDefinition P)
        { Tables.empty with defRef := table } bs d { Tables.empty with defRef := table' } :=
    reads_definition_iff.2 ⟨table', h, rfl⟩
  obtain ⟨hbs, hd, ht⟩ := (reads h).unique (reads h') hu
  exact ⟨hbs, hd, congrArg Tables.defRef ht⟩

/-! ### Instances -/

theorem reads_container_iff {E : Fault → Prop} {kind : ContainerKind} {body : ObjId → Dec Object}
    (hb : ∀ i, Delimited E (body i)) : Reads (Dec.container kind body) t bs o t' ↔
      ∃ t₁, Reads (body t.heap.length) (t.started kind) bs o t₁ ∧
        t' = t₁.finished t.heap.length o := by
  constructor
  · intro h
    obtain ⟨c, hrun, hc⟩ := h.ofList
    obtain ⟨⟨c₁, t₁⟩, h₁, hs'⟩ := container_ok_iff.1 hrun
    injection hs' with hcur ht
    exact ⟨t₁, (hb _).reads h₁ (congrArg Cursor.unread hcur ▸ hc), ht⟩
  · rintro ⟨t₁, h, rfl⟩ c rest hu
    exact container_ok_iff.2 ⟨_, h c rest hu, rfl⟩

/-- A definition, and then the fields of an instance of it. -/
def definedFields (P : Platform) (result : ObjId) : Dec Object :=
  decodeDefinition P >>= fun definition =>
    times (decodeObject P) definition.fieldNames.length >>= fun data =>
      pure (.classInstance result definition data)

theorem decodeDefinition_delimited_hostile : Delimited Hostile (decodeDefinition P) :=
  (decodeDefinition_tame (E := Hostile) (.inl rfl) False 0).delimited

theorem definedFields_delimited (result : ObjId) : Delimited Hostile (definedFields P result) :=
  decodeDefinition_delimited_hostile.bind fun _ => (numsObject_delimited _).bind fun _ => .pure _

theorem classInstanceForm_delimited (result : ObjId) :
    Delimited Hostile (classInstanceForm P (decodeObject P) result) :=
  (classInstanceForm_tame (N := 0) decodeObject_tame result).delimited

theorem reads_definedFields_iff : Reads (definedFields P result) t bs o t' ↔
    ∃ number fields d table values, bs = number ++ fields ∧
      DefinitionSentence P t.defRef number d table ∧
      FieldSequence P { t with defRef := table } d fields values t' ∧
      o = .classInstance result d values := by
  rw [definedFields, reads_bind_iff decodeDefinition_delimited_hostile fun d =>
    (numsObject_delimited d.fieldNames.length).bind fun _ => .pure _]
  simp only [reads_map_iff (numsObject_delimited _), reads_numsObject_iff, reads_definition_iff]
  constructor
  · rintro ⟨number, fields, d, t₁, rfl, ⟨table, hd, rfl⟩, values, ⟨hlen, hs⟩, rfl⟩
    exact ⟨number, fields, d, table, values, rfl, hd, ⟨hs, hlen⟩, rfl⟩
  · rintro ⟨number, fields, d, table, values, rfl, hd, ⟨hs, hlen⟩, rfl⟩
    exact ⟨number, fields, d, _, rfl, ⟨table, hd, rfl⟩, values, ⟨hlen, hs⟩, rfl⟩

theorem reads_classInstanceForm_iff : Reads (classInstanceForm P (decodeObject P) result) t bs o t' ↔
    ∃ header fields d table values, bs = header ++ fields ∧ DirectHeader P t.defRef header d table ∧
      FieldSequence P { t with defRef := table } d fields values t' ∧
      o = .classInstance result d values := by
  rw [classInstanceForm, reads_ahead_iff]
  constructor
  · rintro ⟨code, bs', rfl, h⟩
    unfold readActualDefinition at h
    split_ifs at h with hcode
    · rw [hcode] at h
      -- a definition in front enters itself, and another one names the class
      obtain ⟨first, rest, u, t₁, hbs, h₁, h₂⟩ := (reads_bind_iff
        (decodeDefinition_delimited_hostile.bind fun _ => .pure ()) fun _ =>
          definedFields_delimited result).1 h
      obtain ⟨d₁, hread, -⟩ := (reads_map_iff decodeDefinition_delimited_hostile).1 h₁
      obtain ⟨table₁, hd₁, rfl⟩ := reads_definition_iff.1 hread
      obtain ⟨second, fields, d, table, values, rfl, hd, hf, rfl⟩ := reads_definedFields_iff.1 h₂
      obtain ⟨definition, rfl⟩ := hd₁.definition_lead hbs
      exact ⟨_, fields, d, table, values, by rw [hcode, hbs]; simp, .definition hd₁ hd, hf, rfl⟩
    · obtain ⟨number, fields, d, table, values, hbs, hd, hf, rfl⟩ := reads_definedFields_iff.1 h
      obtain ⟨-, definition, rfl⟩ | ⟨rfl, -⟩ := hd.cases_lead
      · cases hbs
        exact absurd rfl hcode
      · exact ⟨number, fields, d, _, values, hbs, .number hd, hf, rfl⟩
  · rintro ⟨header, fields, d, table, values, rfl, hh, hf, rfl⟩
    cases hh with
    | number hd =>
      obtain ⟨code, rest, rfl, hlead⟩ := hd.number_lead
      refine ⟨code, _, rfl, ?_⟩
      rw [readActualDefinition, if_neg (by rintro rfl; exact absurd hlead (by decide))]
      exact reads_definedFields_iff.2 ⟨_, fields, d, _, values, rfl, hd, hf, rfl⟩
    | @definition first second d₁ _ table₁ _ hd₁ hd =>
      refine ⟨0x43, _, rfl, ?_⟩
      rw [readActualDefinition, if_pos rfl, List.append_assoc]
      have h₁ : Reads (decodeDefinition P >>= fun _ => pure ()) t (0x43 :: first) ()
          { t with defRef := table₁ } :=
        Reads.bind_nil (reads_definition_iff.2 ⟨table₁, hd₁, rfl⟩) (reads_pure _ _)
      exact h₁.bind (reads_definedFields_iff.2 ⟨second, fields, d, table, values, rfl, hd, hf, rfl⟩)

/-- **The direct decoder reads the instances with a direct header.** -/
theorem reads_direct_iff : Reads (decodeClassInstance P (decodeObject P)) t bs o t' ↔
    InstanceSentence P (DirectHeader P) t bs o t' := by
  rw [decodeClassInstance_eq, reads_container_iff classInstanceForm_delimited]
  simp only [reads_classInstanceForm_iff]
  constructor
  · rintro ⟨t₁, ⟨header, fields, d, table, values, rfl, hh, hf, rfl⟩, rfl⟩
    exact .intro hh hf
  · rintro ⟨hh, hf⟩
    exact ⟨_, ⟨_, _, _, _, _, rfl, hh, hf, rfl⟩, rfl⟩

theorem direct_delimited : Delimited Hostile (decodeClassInstance P (decodeObject P)) := by
  rw [decodeClassInstance_eq]
  exact (container_tame _ (classInstanceForm_tame (decodeObject_tame (N := 0)))).delimited

/-- The object is an instance. -/
def Object.IsInstance : Object → Prop
  | .classInstance .. => True
  | _ => False

theorem container_returns {Q : Object → Prop} {kind : ContainerKind} {body : ObjId → Dec Object}
    (hb : ∀ i, Returns Q (body i)) : Returns Q (Dec.container kind body) := by
  unfold Dec.container Dec.owning Dec.finish
  exact .onFail (.after fun result => (hb result).bind fun _ ho => .after fun _ => .pure ho)

/-- Only behind the lead byte of a definition or of an instance an instance is returned. -/
theorem decodeObjectForm_noInstance {self : Dec Object} {code : UInt8}
    (hd : leadOf code ≠ .definition) (hc : leadOf code ≠ .classInstance) :
    Returns (fun o => ¬ o.IsInstance) (decodeObjectForm P self code) := by
  unfold decodeObjectForm
  cases hlead : leadOf code with
  | definition => exact absurd hlead hd
  | classInstance => exact absurd hlead hc
  | typedList =>
    exact container_returns fun _ => .after fun _ => .after fun _ => .after fun _ => .pure id
  | untypedList => exact container_returns fun _ => .after fun _ => .after fun _ => .pure id
  | typedMap =>
    exact container_returns fun _ => .after fun _ => .after fun _ => .after fun _ => .pure id
  | untypedMap => exact container_returns fun _ => .after fun _ => .after fun _ => .pure id
  | ref => exact .after fun _ => .after fun _ => .after fun _ => .after fun _ => .pure id
  | unknown => exact .failure
  | _ => exact .after fun _ => .pure id

theorem decodeObjectForm_definition :
    decodeObjectForm P (decodeObject P) 0x43 = decodeDefinition P >>= fun _ => decodeObject P := rfl

theorem decodeObjectForm_classInstance {code : UInt8} (h : leadOf code = .classInstance) :
    decodeObjectForm P (decodeObject P) code = decodeClassInstance P (decodeObject P) := by
  rw [decodeObjectForm, h, decodeClassInstance_eq]

theorem Object.IsInstance.of_sentence
    {Header : List RawDefinition → Bytes → RawDefinition → List RawDefinition → Prop}
    (h : InstanceSentence P Header t bs o t') : o.IsInstance := by
  cases h
  exact trivial

/-- Behind a definition, the generic decoder reads an instance in the larger table. -/
theorem InstanceSentence.definition {definition rest : Bytes} {d₁ : RawDefinition}
    {table₁ : List RawDefinition} (h₁ : DefinitionSentence P t.defRef (0x43 :: definition) d₁ table₁)
    (h : InstanceSentence P (GenericHeader P) { t with defRef := table₁ } rest o t') :
    InstanceSentence P (GenericHeader P) t (0x43 :: definition ++ rest) o t' := by
  generalize ht₁ : ({ t with defRef := table₁ } : Tables) = t₁ at h
  cases h with
  | intro hh hf =>
    subst ht₁
    rw [← List.append_assoc]
    exact InstanceSentence.intro (t := t) (.definition h₁ hh) hf

theorem GenericHeader.cons {header : Bytes} (h : GenericHeader P table header d table') :
    ∃ code bs, header = code :: bs := by
  cases h with
  | number hd =>
    obtain ⟨code, bs, rfl, -⟩ := hd.number_lead
    exact ⟨code, bs, rfl⟩
  | definition => exact ⟨_, _, rfl⟩

/-- The generic decoder reads a header, and the fields behind it. -/
theorem GenericHeader.reads {header fields : Bytes} {values : List Object} {t₁ : Tables}
    (hh : GenericHeader P table header d table') (ht : t.defRef = table)
    (hf : FieldSequence P (t.entered table') d fields values t₁) :
    Reads (decodeObject P) t (header ++ fields) (.classInstance t.heap.length d values)
      (t₁.finished t.heap.length (.classInstance t.heap.length d values)) := by
  induction hh generalizing t with
  | number hd =>
    subst ht
    obtain ⟨code, rest, rfl, hlead⟩ := hd.number_lead
    rw [decodeObject_eq]
    refine Reads.ahead ?_
    rw [decodeObjectForm_classInstance hlead]
    exact reads_direct_iff.2 (.intro (DirectHeader.number hd) hf)
  | @definition _ table₁ table₂ definition header d₁ d h₁ hh ih =>
    subst ht
    have hrest := ih (t := { t with defRef := table₁ }) rfl hf
    rw [decodeObject_eq, List.append_assoc]
    refine Reads.ahead ?_
    rw [decodeObjectForm_definition]
    exact (reads_definition_iff.2 ⟨table₁, h₁, rfl⟩).bind hrest

/-- **The generic decoder reads the instances with a generic header as instances, and no
others.** -/
theorem reads_instance_iff : Reads (decodeObject P) t bs o t' ∧ o.IsInstance ↔
    InstanceSentence P (GenericHeader P) t bs o t' := by
  constructor
  · rintro ⟨h, ho⟩
    -- behind a definition, the rest of the input is shorter
    induction hn : bs.length using Nat.strong_induction_on generalizing bs t with
    | _ n ih =>
      rw [decodeObject_eq, reads_ahead_iff] at h
      obtain ⟨code, rest, rfl, h⟩ := h
      by_cases hd : leadOf code = .definition
      · obtain rfl := leadOf_definition code hd
        rw [decodeObjectForm_definition] at h
        obtain ⟨first, rest', d₁, t₁, hbs, h₁, h⟩ := (reads_bind_iff
          decodeDefinition_delimited_hostile fun _ => decodeObject_delimited_hostile).1 h
        obtain ⟨table₁, hd₁, rfl⟩ := reads_definition_iff.1 h₁
        obtain ⟨-, definition, rfl⟩ | ⟨-, c, r, rfl, hlead⟩ := hd₁.cases_lead
        · rw [hbs]
          refine .definition hd₁ (ih rest'.length ?_ h rfl)
          rw [← hn, hbs, List.length_append, List.length_cons]
          omega
        · rw [List.cons_append, List.cons.injEq] at hbs
          exact absurd hlead (by rw [← hbs.1]; decide)
      · by_cases hc : leadOf code = .classInstance
        · rw [decodeObjectForm_classInstance hc, reads_direct_iff] at h
          generalize hsent : code :: rest = sentence at h
          cases h with
          | intro hh hf =>
            cases hh with
            | number hd => exact .intro (.number hd) hf
            | definition h₁ h₂ =>
              cases hsent
              exact absurd hc (by decide)
        · obtain ⟨c, hrun, -⟩ := h.ofList
          exact absurd ho ((decodeObjectForm_noInstance hd hc).ok hrun)
  · intro h
    refine ⟨?_, .of_sentence h⟩
    cases h with
    | intro hh hf => exact hh.reads rfl hf

/-! ### Agreement -/

/-- Equal objects; an object counts as equal to itself, also when a NaN is in it. -/
def Alike (o o' : Object) : Prop := o = o' ∨ o.equal o' = true

/-- The direct decoder accepts exactly what the generic one accepts and returns an instance for, and
they do the same. -/
structure Agrees (P : Platform) (s : State UInt8 Tables) : Prop where
  ok_iff : (∃ o s', decodeClassInstance P (decodeObject P) s = .ok o s') ↔
    ∃ o s', decodeObject P s = .ok o s' ∧ o.IsInstance
  same : ∀ {o o' s₁ s₂}, decodeClassInstance P (decodeObject P) s = .ok o s₁ →
    decodeObject P s = .ok o' s₂ → Alike o o' ∧ s₁.cursor = s₂.cursor ∧
      s₁.aux.typesRef = s₂.aux.typesRef ∧ s₁.aux.defRef = s₂.aux.defRef ∧
      s₁.aux.valuesRef = s₂.aux.valuesRef

/-- Two definitions, and the second of them. -/
inductive TwoDefinitions (P : Platform) (table : List RawDefinition) :
    Bytes → RawDefinition → List RawDefinition → Prop where
  | intro {first second : Bytes} {d₁ d : RawDefinition} {table₁ table₂ : List RawDefinition}
    (h₁ : DefinitionSentence P table (0x43 :: first) d₁ table₁)
    (h₂ : DefinitionSentence P table₁ (0x43 :: second) d table₂) :
    TwoDefinitions P table (0x43 :: first ++ 0x43 :: second) d table₂

/-- Two definitions lead the input, and behind them stand as many objects as the second has fields,
or an instance. -/
inductive Doubled (P : Platform) (t : Tables) (input : Bytes) : Prop where
  | fields {header fields rest : Bytes} {d : RawDefinition} {table : List RawDefinition}
    {values : List Object} {t' : Tables} (hu : input = header ++ fields ++ rest)
    (hh : TwoDefinitions P t.defRef header d table)
    (hf : FieldSequence P (t.entered table) d fields values t')
  | inner {header sentence rest : Bytes} {d : RawDefinition} {table : List RawDefinition} {o : Object}
    {t' : Tables} (hu : input = header ++ sentence ++ rest)
    (hh : TwoDefinitions P t.defRef header d table)
    (hi : InstanceSentence P (GenericHeader P) { t with defRef := table } sentence o t')

/-- What the direct decoder reads, the generic one reads, unless two definitions lead it. -/
theorem InstanceSentence.generic {rest : Bytes} (h : InstanceSentence P (DirectHeader P) t bs o t')
    (hno : ¬ Doubled P t (bs ++ rest)) : InstanceSentence P (GenericHeader P) t bs o t' := by
  cases h with
  | intro hh hf =>
    cases hh with
    | number hd => exact .intro (.number hd) hf
    | definition h₁ h₂ =>
      obtain ⟨-, second, rfl⟩ | ⟨rfl, -⟩ := h₂.cases_lead
      · exact absurd (.fields rfl (.intro h₁ h₂) hf) hno
      · exact .intro (.definition h₁ (.number h₂)) hf

/-- And the other way round. -/
theorem InstanceSentence.direct {rest : Bytes} (h : InstanceSentence P (GenericHeader P) t bs o t')
    (hno : ¬ Doubled P t (bs ++ rest)) : InstanceSentence P (DirectHeader P) t bs o t' := by
  cases h with
  | @intro header fields d table values t₁ hh hf =>
    generalize htable : t.defRef = table₀ at hh
    cases hh with
    | number hd =>
      subst htable
      exact .intro (.number hd) hf
    | @definition _ table₁ _ definition header d₁ _ h₁ hh =>
      subst htable
      cases hh with
      | number h₂ => exact .intro (.definition h₁ h₂) hf
      | @definition _ table₂ _ second header d₂ _ h₂ hh =>
        have hi : InstanceSentence P (GenericHeader P) { t with defRef := table₂ } (header ++ fields)
            (.classInstance t.heap.length d values)
            (t₁.finished t.heap.length (.classInstance t.heap.length d values)) :=
          InstanceSentence.intro (t := { t with defRef := table₂ }) hh hf
        have hsplit : 0x43 :: definition ++ (0x43 :: second ++ header) ++ fields ++ rest =
            0x43 :: definition ++ 0x43 :: second ++ (header ++ fields) ++ rest := by simp
        exact absurd (.inner hsplit (.intro h₁ h₂) hi) hno

/-- Where no two definitions lead, the decoders agree. -/
theorem agrees_of_not_doubled {s : State UInt8 Tables} (hno : ¬ Doubled P s.aux s.cursor.unread) :
    Agrees P s := by
  have generic {o : Object} {s' : State UInt8 Tables}
      (h : decodeClassInstance P (decodeObject P) s = .ok o s') :
      decodeObject P s = .ok o s' ∧ o.IsInstance := by
    obtain ⟨bs, rest, hu, hr, hs'⟩ := direct_delimited.ok_iff.1 h
    have hi := reads_instance_iff.2 ((reads_direct_iff.1 hr).generic (hu ▸ hno))
    exact ⟨decodeObject_delimited_hostile.ok_iff.2 ⟨bs, rest, hu, hi.1, hs'⟩, hi.2⟩
  refine ⟨⟨fun ⟨o, s', h⟩ => ⟨o, s', generic h⟩, fun ⟨o, s', h, ho⟩ => ?_⟩, fun h h' => ?_⟩
  · obtain ⟨bs, rest, hu, hr, hs'⟩ := decodeObject_delimited_hostile.ok_iff.1 h
    have hi := (reads_instance_iff.1 ⟨hr, ho⟩).direct (hu ▸ hno)
    exact ⟨o, s', direct_delimited.ok_iff.2 ⟨bs, rest, hu, reads_direct_iff.2 hi, hs'⟩⟩
  · rw [(generic h).1] at h'
    cases h'
    exact ⟨.inl rfl, rfl, rfl, rfl, rfl⟩

/-! ### Disagreement -/

/-- Objects that are the same, or equal from one side or the other. -/
def Related (o o' : Object) : Prop := o = o' ∨ ∃ forward, Object.equalAs forward o o' = true

theorem forall₂_of_equalLists {forward : Bool} {xs ys : List Object}
    (h : Object.equalLists forward xs ys = true) : List.Forall₂ Related xs ys := by
  induction xs generalizing ys with
  | nil =>
    cases ys with
    | nil => exact .nil
    | cons y ys => cases h
  | cons x xs ih =>
    cases ys with
    | nil => cases h
    | cons y ys =>
      rw [Object.equalLists, Bool.and_eq_true] at h
      exact .cons (.inr ⟨forward, h.1⟩) (ih h.2)

/-- What is related to an instance is an instance with the same definition and related values. -/
theorem Related.fields {i : ObjId} {values : List Object} (h : Related (.classInstance i d values) o) :
    ∃ j values', o = .classInstance j d values' ∧ List.Forall₂ Related values values' := by
  obtain rfl | ⟨forward, h⟩ := h
  · exact ⟨i, values, rfl, List.forall₂_same.2 fun _ _ => .inl rfl⟩
  · cases o with
    | classInstance j d' values' =>
      rw [Object.equalAs, Bool.and_eq_true, beq_iff_eq] at h
      obtain ⟨rfl, h⟩ := h
      exact ⟨j, values', rfl, forall₂_of_equalLists h⟩
    | _ => cases h

theorem Alike.related {o o' : Object} (h : Alike o o') : Related o o' :=
  h.imp_right fun h => ⟨true, h⟩

/-- Behind a header, the generic decoder reads an instance of its definition. -/
theorem GenericHeader.fields {header rest rest' : Bytes} (hh : GenericHeader P table header d table')
    (ht : t.defRef = table) (h : Reads (decodeObject P) t bs o t') (hu : bs ++ rest = header ++ rest') :
    ∃ fields values t₁, bs = header ++ fields ∧ FieldSequence P (t.entered table') d fields values t₁ ∧
      o = .classInstance t.heap.length d values := by
  -- both readings begin with the same bytes, so they read the same header
  induction hh generalizing t bs with
  | number hd =>
    subst ht
    obtain ⟨code, number, rfl, hlead⟩ := hd.number_lead
    rw [decodeObject_eq, reads_ahead_iff] at h
    obtain ⟨code', bs, rfl, h⟩ := h
    obtain rfl : code' = code := (List.cons.inj hu).1
    rw [decodeObjectForm_classInstance hlead, reads_direct_iff] at h
    generalize hbs : code' :: bs = sentence at h hu
    cases h with
    | @intro header fields d' table values t₁ hh hf =>
      cases hh with
      | number hd' =>
        rw [List.append_assoc] at hu
        obtain ⟨rfl, rfl, -⟩ := hd'.unique hd hu
        exact ⟨fields, values, t₁, rfl, hf, rfl⟩
      | definition =>
        cases hbs
        exact absurd hlead (by decide)
  | @definition _ table₁ table₂ definition header d₁ d h₁ hh ih =>
    subst ht
    rw [decodeObject_eq, reads_ahead_iff] at h
    obtain ⟨code, bs, rfl, h⟩ := h
    obtain rfl : code = 0x43 := (List.cons.inj hu).1
    rw [decodeObjectForm_definition] at h
    obtain ⟨first, bs', d₁', t₁, hbs, hread, h⟩ := (reads_bind_iff
      decodeDefinition_delimited_hostile fun _ => decodeObject_delimited_hostile).1 h
    obtain ⟨table₁', hd₁, rfl⟩ := reads_definition_iff.1 hread
    rw [hbs, List.append_assoc, List.append_assoc] at hu
    obtain ⟨rfl, -, rfl⟩ := hd₁.unique h₁ hu
    obtain ⟨fields, values, t₂, rfl, hf, rfl⟩ := ih rfl h (List.append_cancel_left hu)
    exact ⟨fields, values, t₂, by rw [hbs, List.append_assoc], hf, rfl⟩

/-- An instance whose fields begin where another object begins, in the same table of definitions, is
not related to that object: the first field would be related to the object's first field, and begin
where that begins. -/
theorem not_related {t₁ t₂ t₁' t₂' : Tables} {fields rest sentence rest' : Bytes} {i : ObjId}
    {values : List Object} (hs : Sequence (Element P) t₁ fields values t₁') (hne : values ≠ [])
    (ho : Reads (decodeObject P) t₂ sentence o t₂') (ht : t₁.defRef = t₂.defRef)
    (hu : fields ++ rest = sentence ++ rest') : ¬ Related (.classInstance i d values) o := by
  induction hn : (fields ++ rest).length using Nat.strong_induction_on
    generalizing t₁ t₂ t₁' t₂' fields rest sentence rest' i values d o with
  | _ n ih =>
  -- the first field is again read at two places; the induction is on what is unread there
  intro hrel
  obtain ⟨j, values', rfl, hall⟩ := hrel.fields
  cases hs with
  | nil => exact hne rfl
  | @cons _ t₃ _ first others v vs hv hvs =>
  cases hall with
  | @cons _ w _ ws hvw hws =>
  have hi := reads_instance_iff.1 ⟨ho, trivial⟩
  generalize hinst : Object.classInstance j d (w :: ws) = inst at hi
  cases hi with
  | @intro header fields₂ d₂ table values₂ t₄ hh hf₂ =>
  cases hinst
  rw [element_eq] at hv
  obtain ⟨fields₁, values₁, t₅, rfl, hf₁, rfl⟩ := hh.fields
    ht hv (by rw [← List.append_assoc, hu, List.append_assoc])
  have hlen : values₁.length = (w :: ws).length := hf₁.length.trans hf₂.length.symm
  have hw := hf₂.sequence
  cases hw with
  | @cons _ t₆ _ second others₂ _ _ hw hws =>
  rw [element_eq] at hw
  obtain ⟨code, bs, rfl⟩ := hh.cons
  have hbehind : fields₁ ++ (others ++ rest) = second ++ (others₂ ++ rest') := by simpa using hu
  refine ih (fields₁ ++ (others ++ rest)).length ?_ hf₁.sequence ?_ hw rfl hbehind rfl hvw
  · simp at hn ⊢
    omega
  · rintro rfl
    cases hlen

theorem TwoDefinitions.definitions {header : Bytes} (h : TwoDefinitions P table header d table') :
    ∃ first second d₁ table₁, header = 0x43 :: first ++ 0x43 :: second ∧
      DefinitionSentence P table (0x43 :: first) d₁ table₁ ∧
      DefinitionSentence P table₁ (0x43 :: second) d table' := by
  obtain ⟨h₁, h₂⟩ := h
  exact ⟨_, _, _, _, rfl, h₁, h₂⟩

/-- Behind two definitions, the direct decoder reads the fields of an instance of the second. -/
theorem TwoDefinitions.direct {header rest rest' : Bytes} (h : TwoDefinitions P t.defRef header d table)
    (hr : Reads (decodeClassInstance P (decodeObject P)) t bs o t')
    (hu : bs ++ rest' = header ++ rest) : ∃ fields values t₁, bs = header ++ fields ∧
      FieldSequence P (t.entered table) d fields values t₁ ∧
      o = .classInstance t.heap.length d values := by
  obtain ⟨first, second, d₁, table₁, rfl, h₁, h₂⟩ := h.definitions
  have hi := reads_direct_iff.1 hr
  cases hi with
  | @intro header fields d' table' values t₁ hh hf =>
  cases hh with
  | number hd =>
    obtain ⟨code, number, rfl, hlead⟩ := hd.number_lead
    obtain rfl : code = 0x43 := (List.cons.inj hu).1
    exact absurd hlead (by decide)
  | @definition first' second' d₁' _ table₁' _ h₁' h₂' =>
    simp only [List.append_assoc] at hu
    obtain ⟨hbs, -, rfl⟩ := h₁'.unique h₁ hu
    cases hbs
    obtain ⟨rfl, rfl, rfl⟩ := h₂'.unique h₂ (List.append_cancel_left hu)
    exact ⟨fields, values, t₁, rfl, hf, rfl⟩

/-- The generic decoder reads the object behind them. -/
theorem TwoDefinitions.generic {header rest rest' : Bytes} (h : TwoDefinitions P t.defRef header d table)
    (hr : Reads (decodeObject P) t bs o t') (hu : bs ++ rest' = header ++ rest) :
    ∃ bs', bs = header ++ bs' ∧ Reads (decodeObject P) { t with defRef := table } bs' o t' := by
  have step {t : Tables} {first bs rest rest' : Bytes} {d : RawDefinition}
      {table : List RawDefinition} (h : DefinitionSentence P t.defRef (0x43 :: first) d table)
      (hr : Reads (decodeObject P) t bs o t') (hu : bs ++ rest' = 0x43 :: first ++ rest) :
      ∃ bs', bs = 0x43 :: first ++ bs' ∧
        Reads (decodeObject P) { t with defRef := table } bs' o t' := by
    rw [decodeObject_eq, reads_ahead_iff] at hr
    obtain ⟨code, bs, rfl, hr⟩ := hr
    obtain rfl : code = 0x43 := (List.cons.inj hu).1
    rw [decodeObjectForm_definition] at hr
    obtain ⟨first', bs', d', t₁, hbs, hread, hr⟩ := (reads_bind_iff
      decodeDefinition_delimited_hostile fun _ => decodeObject_delimited_hostile).1 hr
    obtain ⟨table', hd, rfl⟩ := reads_definition_iff.1 hread
    rw [hbs, List.append_assoc] at hu
    obtain ⟨rfl, -, rfl⟩ := hd.unique h hu
    exact ⟨bs', hbs, hr⟩
  obtain ⟨first, second, d₁, table₁, rfl, h₁, h₂⟩ := h.definitions
  rw [List.append_assoc] at hu
  obtain ⟨bs₁, rfl, hr₁⟩ := step h₁ hr hu
  rw [List.append_assoc] at hu
  obtain ⟨bs₂, rfl, hr₂⟩ := step (t := { t with defRef := table₁ }) h₂ hr₁
    (List.append_cancel_left hu)
  exact ⟨bs₂, (List.append_assoc _ _ _).symm, hr₂⟩

/-- Behind two definitions the decoders never do the same. -/
theorem TwoDefinitions.not_same {s s₁ s₂ : State UInt8 Tables} {header rest : Bytes} {o o' : Object}
    (h : TwoDefinitions P s.aux.defRef header d table) (hu : s.cursor.unread = header ++ rest)
    (h₁ : decodeClassInstance P (decodeObject P) s = .ok o s₁) (h₂ : decodeObject P s = .ok o' s₂)
    (hc : s₁.cursor = s₂.cursor) : ¬ Related o o' := by
  obtain ⟨bs₁, rest₁, hu₁, hr₁, hs₁⟩ := direct_delimited.ok_iff.1 h₁
  obtain ⟨bs₂, rest₂, hu₂, hr₂, hs₂⟩ := decodeObject_delimited_hostile.ok_iff.1 h₂
  have hlen : bs₁.length = bs₂.length := by
    rw [hs₁, hs₂] at hc
    have hoff := congrArg Cursor.offset hc
    simp only [Cursor.advance_offset] at hoff
    omega
  obtain ⟨fields, values, t₁, rfl, hf, rfl⟩ := h.direct hr₁ (hu₁.symm.trans hu)
  obtain ⟨sentence, rfl, hr⟩ := h.generic hr₂ (hu₂.symm.trans hu)
  have hbs : fields ++ rest₁ = sentence ++ rest₂ := by
    rw [hu₁, List.append_assoc, List.append_assoc] at hu₂
    exact List.append_cancel_left hu₂
  refine not_related hf.sequence ?_ hr rfl hbs
  rintro rfl
  -- without fields, the direct decoder stops behind the definitions
  have hseq := hf.sequence
  cases hseq
  rw [decodeObject_eq, reads_ahead_iff] at hr
  obtain ⟨code, bs, rfl, -⟩ := hr
  simp at hlen

/-- **The direct and the generic decoder agree exactly if the input does not begin with two
definitions and behind them as many objects as the second has fields, or an instance.** -/
theorem direct_agrees_iff (P : Platform) (s : State UInt8 Tables) :
    Agrees P s ↔ ¬ Doubled P s.aux s.cursor.unread := by
  refine ⟨fun h hdoubled => ?_, agrees_of_not_doubled⟩
  have not_both {header rest : Bytes} {d : RawDefinition} {table : List RawDefinition}
      {o o' : Object} {s₁ s₂ : State UInt8 Tables}
      (hh : TwoDefinitions P s.aux.defRef header d table) (hu : s.cursor.unread = header ++ rest)
      (h₁ : decodeClassInstance P (decodeObject P) s = .ok o s₁)
      (h₂ : decodeObject P s = .ok o' s₂) : False := by
    obtain ⟨hsame, hc, -⟩ := h.same h₁ h₂
    exact hh.not_same hu h₁ h₂ hc hsame.related
  cases hdoubled with
  | @fields header fields rest d table values t' hu hh hf =>
    obtain ⟨first, second, d₁, table₁, rfl, h₁, h₂⟩ := hh.definitions
    have hi : InstanceSentence P (DirectHeader P) s.aux _ _ _ := .intro (.definition h₁ h₂) hf
    have hrun := reads_direct_iff.2 hi s.cursor rest hu
    obtain ⟨o', s₂, h₂, -⟩ := h.ok_iff.1 ⟨_, _, hrun⟩
    exact not_both hh (hu.trans (List.append_assoc _ _ _)) hrun h₂
  | @inner header sentence rest d table o t' hu hh hi =>
    obtain ⟨first, second, d₁, table₁, rfl, h₁, h₂⟩ := hh.definitions
    have hi := InstanceSentence.definition h₁
      (InstanceSentence.definition (t := { s.aux with defRef := table₁ }) h₂ hi)
    obtain ⟨hr, ho⟩ := reads_instance_iff.2 hi
    have hrun := hr s.cursor rest (hu.trans (by simp))
    obtain ⟨o', s₁, h₁⟩ := h.ok_iff.2 ⟨_, _, hrun, ho⟩
    exact not_both hh (hu.trans (List.append_assoc _ _ _)) h₁ hrun

/-- The definitions of two classes `A` and `B` without fields, and an instance of `A`: the direct
decoder stops in front of the instance. -/
theorem direct_disagrees : ¬ Agrees .simple
    ⟨.ofList [0x43, 0x01, 0x41, 0x90, 0x43, 0x01, 0x42, 0x90, 0x60], .empty⟩ := by
  intro h
  have hdirect : (decodeClassInstance .simple (decodeObject .simple)
      ⟨.ofList [0x43, 0x01, 0x41, 0x90, 0x43, 0x01, 0x42, 0x90, 0x60], .empty⟩).any
        (fun _ s => s.cursor.offset == 8) = true := by decide +kernel
  have hgeneric : (decodeObject .simple
      ⟨.ofList [0x43, 0x01, 0x41, 0x90, 0x43, 0x01, 0x42, 0x90, 0x60], .empty⟩).any
        (fun _ s => s.cursor.offset == 9) = true := by decide +kernel
  obtain ⟨o, s₁, h₁, hs₁⟩ := Outcome.exists_of_any hdirect
  obtain ⟨o', s₂, h₂, hs₂⟩ := Outcome.exists_of_any hgeneric
  obtain ⟨-, hc, -⟩ := h.same h₁ h₂
  rw [beq_iff_eq] at hs₁ hs₂
  have hoff := congrArg Cursor.offset hc
  omega

end Hessian2
