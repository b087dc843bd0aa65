import Hessian2.Calls
import Hessian2.Parsing.Twins

/-!
# Builds of the decoder

`NDEBUG` and `COMPATIBLE_WITH_JAVA_HESSIAN_LITE` are chosen when the library is built.

* `Platform.build` : the same platform, built otherwise.
* `Unmarked` : a buffer without the first two bytes of a surrogate from the first half of a pair.
* `decodeString_unmarked` : in such a buffer all builds read the same strings.
* `decodeObject_twins`, `decode_twins` : so they do for the values of all types.
* `attempts_build` : **all builds do the same on an input without surrogates, and a build with
  assertions does the same as one without on every input.**
-/

namespace Hessian2

open Parsing Parsing.Parser Reader

variable {P : Platform} {lite ndebug : Bool}

/-- The platform, with the given choices for `COMPATIBLE_WITH_JAVA_HESSIAN_LITE` and `NDEBUG`. -/
def Platform.build (P : Platform) (lite ndebug : Bool) : Platform :=
  { P with javaHessianLite := lite, ndebug := ndebug }

/-- Nowhere does a byte from `0xA0` to `0xAF` stand behind a `0xED`. -/
def Unmarked (buffer : Bytes) : Prop :=
  buffer.IsChain fun a b => ¬ (a = 0xED ∧ 0xA0 ≤ b.toNat ∧ b.toNat ≤ 0xAF)

instance : DecidablePred Unmarked := fun buffer =>
  inferInstanceAs (Decidable (buffer.IsChain fun a b => ¬ (a = 0xED ∧ 0xA0 ≤ b.toNat ∧ b.toNat ≤ 0xAF)))

/-- The build makes no difference to the strings in the buffer. -/
def Platform.Indifferent (P : Platform) (lite : Bool) (buffer : Bytes) : Prop :=
  lite = P.javaHessianLite ∨ Unmarked buffer

/-! ### Strings -/

/-- The characters of a string stand in its sentence. -/
theorem StringSentence.infixes {sentence value : Bytes} (h : StringSentence sentence value) :
    ∃ cs : List Bytes, (∀ c ∈ cs, IsCharacter c ∧ c <:+: sentence) ∧ cs.flatten = value := by
  have split {n : ℕ} {chars : Bytes} (hc : Characters n chars) : ∃ cs : List Bytes,
      (∀ c ∈ cs, IsCharacter c ∧ c <:+: chars) ∧ cs.flatten = chars := by
    obtain ⟨cs, -, hcs, rfl⟩ := Words.split_iff_words.1 hc
    exact ⟨cs, fun c hmem => ⟨hcs c hmem, List.infix_of_mem_flatten hmem⟩, rfl⟩
  induction h with
  | @final header chars n hh hc =>
    obtain ⟨cs, hcs, hflat⟩ := split hc
    exact ⟨cs, fun c hmem => ⟨(hcs c hmem).1, (hcs c hmem).2.trans (List.suffix_append _ _).isInfix⟩, hflat⟩
  | @chunk hi lo chars rest value hc h ih =>
    obtain ⟨cs, hcs, rfl⟩ := split hc
    obtain ⟨ds, hds, rfl⟩ := ih
    refine ⟨cs ++ ds, fun c hmem => ?_, List.flatten_append⟩
    rcases List.mem_append.1 hmem with hmem | hmem
    · exact ⟨(hcs c hmem).1, (hcs c hmem).2.trans ⟨[0x52, hi, lo], rest, by simp⟩⟩
    · exact ⟨(hds c hmem).1, (hds c hmem).2.trans ⟨0x52 :: hi :: lo :: cs.flatten, [], by simp⟩⟩

/-- In a buffer without the mark there is no first half of a pair. -/
theorem not_isHighSurrogate {buffer c : Bytes} (h : Unmarked buffer) (hc : c <:+: buffer) :
    ¬ isHighSurrogate c = true := by
  intro hhigh
  have hchain : Unmarked c := List.IsChain.infix h hc
  match c, hhigh with
  | [a, b, d], hhigh =>
    simp only [isHighSurrogate, decide_eq_true_eq] at hhigh
    exact (List.isChain_cons_cons.1 hchain).1 hhigh

/-- The chunks of a string are read in the same way. -/
theorem decodeStringWithReader_build (P : Platform) (lite ndebug : Bool) :
    decodeStringWithReader (P.build lite ndebug) = decodeStringWithReader P := by
  have hfinal : finalReadStep (P.build lite ndebug) = finalReadStep P := by
    funext s
    rw [finalReadStep_eq, finalReadStep_eq]
  have hchunk : readChunkString (P.build lite ndebug) = readChunkString P := by
    funext out length last
    simp only [readChunkString, finalReadUtf8String, hfinal]
  have hstep : decodeStringStep (P.build lite ndebug) = decodeStringStep P := by
    funext out
    rw [decodeStringStep_eq, decodeStringStep_eq]
    refine congrArg (next >>= ·) (funext fun code => ?_)
    simp only [chunkForm, hchunk]
  simp only [decodeStringWithReader, hstep]

/-- In a buffer without surrogates all builds read a string as a plain one does. -/
theorem decodeString_unmarked {s : State UInt8 Tables} (h : Unmarked s.cursor.buffer) :
    decodeString P s = decodeString P.plain s := by
  cases hlite : P.javaHessianLite with
  | false =>
    have hplain : P.plain = P := by
      rw [Platform.plain, ← hlite]
    rw [hplain]
  | true =>
    have hjava : P.java = P := by
      rw [Platform.java, ← hlite]
    cases hs : decodeString P.plain s with
    | ok value s' =>
      obtain ⟨sentence, rest, hu, hsentence, -⟩ := decodeString_ok_iff.1 hs
      obtain ⟨cs, hcs, rfl⟩ := hsentence.infixes
      have hbuffer : sentence <:+: s.cursor.buffer := by
        have hsuffix : s.cursor.unread <:+ s.cursor.buffer := List.drop_suffix _ _
        rw [hu] at hsuffix
        exact (List.prefix_append sentence rest).isInfix.trans hsuffix.isInfix
      have hunpaired : Unpaired cs := by
        refine List.Pairwise.isChain (List.pairwise_of_forall_mem_list ?_)
        rintro c hc d - ⟨hhigh, -⟩
        exact not_isHighSurrogate h ((hcs c hc).2.trans hbuffer) hhigh
      have hread := decodeString_java_of_plain (fun c hc => (hcs c hc).1) hs
      rwa [joined_eq_self hunpaired, hjava] at hread
    | _ =>
      have hreader : decodeStringWithReader P.plain = decodeStringWithReader P :=
        decodeStringWithReader_build P false P.ndebug
      rw [decodeString_plain, hreader, bind_apply] at hs
      rw [decodeString, bind_apply]
      cases hr : decodeStringWithReader P s <;> rw [hr] at hs <;> cases hs
      rfl

/-! ### The other values -/

/-- The two builds run alike where strings are indifferent. -/
abbrev BuildTwins (P : Platform) (lite : Bool) {α : Type} (m m' : Dec α) : Prop :=
  Twins (P.Indifferent lite) m m'

/-- A function in which no choice is made. -/
theorem Dec.Leaf.twins {α : Type} {m m' : Dec α} (h : Dec.Leaf m) (heq : m = m') : BuildTwins P lite m m' :=
  .of_eq (h (fun _ => False) False 0).delimited heq

theorem decodeString_twins : BuildTwins P lite (decodeString P) (decodeString (P.build lite ndebug)) := by
  refine ⟨fun s h => ?_, (Twins.of_delimited (G := P.Indifferent lite)
    (decodeString_leaf (fun _ => False) False 0).delimited).stays⟩
  obtain rfl | hunmarked := h
  · have hlite : (P.build P.javaHessianLite ndebug).javaHessianLite = P.javaHessianLite := rfl
    simp only [decodeString, decodeStringWithReader_build, hlite]
  · have hreader : decodeStringWithReader P.plain = decodeStringWithReader (P.build lite ndebug).plain :=
      (decodeStringWithReader_build P false P.ndebug).trans (decodeStringWithReader_build P false ndebug).symm
    have hplain : decodeString P.plain s = decodeString (P.build lite ndebug).plain s := by
      rw [decodeString_plain, decodeString_plain, hreader]
    calc decodeString P s
      _ = decodeString P.plain s := decodeString_unmarked hunmarked
      _ = decodeString (P.build lite ndebug).plain s := hplain
      _ = decodeString (P.build lite ndebug) s := (decodeString_unmarked hunmarked).symm

section Leaves

variable {P' : Platform}

theorem decodeInt32_twins : BuildTwins P lite (decodeInt32 P) (decodeInt32 P') :=
  decodeInt32_leaf.twins (by rw [decodeInt32_eq, decodeInt32_eq])

theorem decodeInt64_twins : BuildTwins P lite (decodeInt64 P) (decodeInt64 P') :=
  decodeInt64_leaf.twins (by rw [decodeInt64_eq, decodeInt64_eq])

theorem decodeDouble_twins : BuildTwins P lite (decodeDouble P) (decodeDouble P') :=
  decodeDouble_leaf.twins (by rw [decodeDouble_eq, decodeDouble_eq])

theorem decodeBool_twins : BuildTwins P lite (decodeBool P) (decodeBool P') :=
  decodeBool_leaf.twins (by rw [decodeBool_eq, decodeBool_eq])

theorem readDate_twins (T : DurationType) : BuildTwins P lite (readDate P T) (readDate P' T) :=
  (readDate_leaf T).twins (by rw [readDate_eq, readDate_eq])

theorem decodeBytes_twins : BuildTwins P lite (decodeBytes P) (decodeBytes P') := by
  refine decodeBytes_leaf.twins ?_
  have hstep : decodeBytesStep P = decodeBytesStep P' := by
    funext output
    rw [decodeBytesStep_eq, decodeBytesStep_eq]
  simp only [decodeBytes, hstep]

end Leaves

/-! ### Tables -/

theorem lookup_twins {α : Type} (f : Tables → Option α) :
    BuildTwins P lite (Dec.lookup f) (Dec.lookup f) := by
  refine Twins.aux.bind fun t => ?_
  cases f t with
  | none => exact .failure
  | some a => exact .pure a

theorem decodeTypeRef_twins :
    BuildTwins P lite (decodeTypeRef P) (decodeTypeRef (P.build lite ndebug)) := by
  rw [decodeTypeRef_eq, decodeTypeRef_eq]
  refine .ahead fun code => .ite (fun _ => ?_) fun _ => ?_
  · exact decodeString_twins.bind fun type => (Twins.modifyAux _).bind fun _ => .pure type
  · exact decodeInt32_twins.bind fun ref => lookup_twins _

theorem decodeDefinition_twins :
    BuildTwins P lite (decodeDefinition P) (decodeDefinition (P.build lite ndebug)) := by
  rw [decodeDefinition_eq, decodeDefinition_eq]
  refine Twins.next.bind fun code => .ite (fun _ => ?_) fun _ => .ite (fun _ => ?_) fun _ =>
    .ite (fun _ => lookup_twins _) fun _ => .failure
  · refine decodeString_twins.bind fun type => decodeInt32_twins.bind fun fieldLen => ?_
    have hreserve : BuildTwins P lite (reserve ample fieldLen) (reserve ample fieldLen) := by
      rw [reserve_ample]
      exact .ite (fun _ => .stop _) fun _ => .pure ()
    refine hreserve.bind fun _ => ?_
    exact (decodeString_twins.times _).bind fun names => (Twins.modifyAux _).bind fun _ => .pure _
  · exact decodeInt32_twins.bind fun ref => lookup_twins _

/-- The hash functions are those of the platform. -/
theorem Object.hash_build (heap : Heap) (static : UInt64) (o : Object) :
    o.hash (P.build lite ndebug) heap static = o.hash P heap static := by
  cases o <;> rfl

theorem emplace_twins (self : ObjId) (slots : List Slot) (key value : Object) : BuildTwins P lite
    (Dec.emplace P self slots key value) (Dec.emplace (P.build lite ndebug) self slots key value) := by
  refine Twins.aux.bind fun t => ?_
  rw [Object.hash_build]
  cases key.hash P t.heap t.binaryHash with
  | none => exact (Twins.modifyAux _).bind fun _ => .stop _
  | some h =>
    refine (Twins.modifyAux _).bind fun _ => (Twins.modifyAux _).bind fun _ => ?_
    exact .ite (fun _ => .pure _) fun _ => (Twins.modifyAux _).bind fun _ => .pure _

/-! ### Containers -/

theorem container_twins {kind : ContainerKind} {body body' : ObjId → Dec Object}
    (h : ∀ result, BuildTwins P lite (body result) (body' result)) :
    BuildTwins P lite (Dec.container kind body) (Dec.container kind body') := by
  unfold Dec.container Dec.owning
  refine Twins.onFail _ (Twins.bind ?_ fun result => (h result).bind fun contents => ?_)
  · exact Twins.aux.bind fun t => (Twins.modifyAux _).bind fun _ => .pure _
  · exact (Twins.modifyAux _).bind fun _ => .pure _

section Forms

variable {self self' : Dec Object} (hself : BuildTwins P lite self self')

include hself

theorem readObjectUntilEnd_twins : BuildTwins P lite (readObjectUntilEnd P self)
    (readObjectUntilEnd (P.build lite ndebug) self') := by
  refine .iter (fun values => ?_) _
  rw [readObjectUntilEndStep_eq, readObjectUntilEndStep_eq]
  exact .ahead fun code => .ite (fun _ => Twins.next.bind fun _ => .pure _) fun _ =>
    hself.bind fun _ => .pure _

theorem typedListValues_twins (code : UInt8) : BuildTwins P lite (typedListValues P self code)
    (typedListValues (P.build lite ndebug) self' code) := by
  refine .ite (fun _ => readObjectUntilEnd_twins hself) fun _ => .ite (fun _ => ?_) fun _ =>
    .ite (fun _ => hself.times _) fun _ => .failure
  exact decodeInt32_twins.bind fun _ => hself.times _

theorem untypedListValues_twins (code : UInt8) : BuildTwins P lite (untypedListValues P self code)
    (untypedListValues (P.build lite ndebug) self' code) := by
  refine .ite (fun _ => readObjectUntilEnd_twins hself) fun _ => .ite (fun _ => ?_) fun _ =>
    .ite (fun _ => hself.times _) fun _ => .pure _
  exact decodeInt32_twins.bind fun _ => hself.times _

theorem typedListForm_twins (result : ObjId) : BuildTwins P lite (typedListForm P self result)
    (typedListForm (P.build lite ndebug) self' result) :=
  Twins.next.bind fun code => decodeTypeRef_twins.bind fun _ =>
    (typedListValues_twins hself code).bind fun _ => .pure _

theorem untypedListForm_twins (result : ObjId) : BuildTwins P lite (untypedListForm P self result)
    (untypedListForm (P.build lite ndebug) self' result) :=
  Twins.next.bind fun code => (untypedListValues_twins hself code).bind fun _ => .pure _

theorem readEntries_twins (result : ObjId) : BuildTwins P lite (readEntries P self result)
    (readEntries (P.build lite ndebug) self' result) := by
  refine Twins.bind (.iter (fun objMap => ?_) _) fun _ => .pure _
  rw [readEntriesStep_eq, readEntriesStep_eq]
  exact .ahead fun code => .ite (fun _ => Twins.next.bind fun _ => .pure _) fun _ =>
    hself.bind fun key => hself.bind fun value => (emplace_twins _ _ _ _).bind fun _ => .pure _

theorem typedMapForm_twins (result : ObjId) : BuildTwins P lite (typedMapForm P self result)
    (typedMapForm (P.build lite ndebug) self' result) :=
  Twins.next.bind fun _ => decodeTypeRef_twins.bind fun _ => (readEntries_twins hself result).bind fun _ =>
    .pure _

theorem untypedMapForm_twins (result : ObjId) : BuildTwins P lite (untypedMapForm P self result)
    (untypedMapForm (P.build lite ndebug) self' result) :=
  Twins.next.bind fun _ => (readEntries_twins hself result).bind fun _ => .pure _

theorem classInstanceForm_twins (result : ObjId) : BuildTwins P lite (classInstanceForm P self result)
    (classInstanceForm (P.build lite ndebug) self' result) := by
  refine .ahead fun code => Twins.bind ?_ fun _ => decodeDefinition_twins.bind fun _ =>
    (hself.times _).bind fun _ => .pure _
  exact .ite (fun _ => decodeDefinition_twins.bind fun _ => .pure _) fun _ => .pure _

/-- What a lead byte announces. -/
theorem decodeObjectForm_twins (code : UInt8) : BuildTwins P lite (decodeObjectForm P self code)
    (decodeObjectForm (P.build lite ndebug) self' code) := by
  unfold decodeObjectForm
  cases leadOf code with
  | null => exact Twins.next.bind fun _ => .pure _
  | bool => exact decodeBool_twins.bind fun _ => .pure _
  | date => exact (readDate_twins _).bind fun _ => .pure _
  | double => exact decodeDouble_twins.bind fun _ => .pure _
  | typedList => exact container_twins (typedListForm_twins hself)
  | untypedList => exact container_twins (untypedListForm_twins hself)
  | typedMap => exact container_twins (typedMapForm_twins hself)
  | untypedMap => exact container_twins (untypedMapForm_twins hself)
  | definition => exact decodeDefinition_twins.bind fun _ => hself
  | classInstance => exact container_twins (classInstanceForm_twins hself)
  | ref =>
    exact Twins.next.bind fun _ => decodeInt32_twins.bind fun _ => (lookup_twins _).bind fun _ =>
      (Twins.modifyAux _).bind fun _ => .pure _
  | string => exact decodeString_twins.bind fun _ => .pure _
  | binary => exact decodeBytes_twins.bind fun _ => .pure _
  | long => exact decodeInt64_twins.bind fun _ => .pure _
  | int => exact decodeInt32_twins.bind fun _ => .pure _
  | unknown => exact .failure

end Forms

/-- **`decode<Object>` does the same in all builds where strings are indifferent**: behind the look at
the lead byte no assertion can fail. -/
theorem decodeObject_twins : BuildTwins P lite (decodeObject P) (decodeObject (P.build lite ndebug)) := by
  refine Twins.fix (fun self self' hself _ => ?_) ()
  rw [decodeObjectBody_eq, decodeObjectBody_eq]
  exact .ahead (decodeObjectForm_twins (hself ()))

/-! ### Calls -/

/-- The assertions about the lead byte of a map, in builds that both make them or both do not. -/
theorem decodeMap_twins (typed : Bool) (h : ndebug = P.ndebug) :
    BuildTwins P lite (decodeMap P typed) (decodeMap (P.build lite ndebug) typed) := by
  subst h
  have hbyte : readByte (P.build lite P.ndebug) = (readByte P : Dec (Bool × UInt8)) := by
    funext s
    rcases hu : s.cursor.unread with _ | ⟨b, bs⟩
    · rw [readByte_of_nil _ hu, readByte_of_nil _ hu]
    · rw [readByte_of_cons _ hu, readByte_of_cons _ hu]
  have hread : BuildTwins P lite (readByte P) (readByte (P.build lite P.ndebug) : Dec (Bool × UInt8)) := by
    refine ⟨fun s _ => by rw [hbyte], fun s s' hs => ?_⟩
    rcases hu : s.cursor.unread with _ | ⟨b, bs⟩
    · rw [readByte_of_nil _ hu] at hs
      cases hs
      rfl
    · rw [readByte_of_cons _ hu] at hs
      cases hs
      rfl
  have hassert (c : Bool) :
      BuildTwins P lite (Dec.abslAssert P c) (Dec.abslAssert (P.build lite P.ndebug) c) :=
    .ite (fun _ => .pure ()) fun _ => .stop _
  cases typed with
  | false =>
    exact container_twins fun result => hread.bind fun ret => (hassert _).bind fun _ => (hassert _).bind fun _ =>
      (readEntries_twins decodeObject_twins result).bind fun _ => .pure _
  | true =>
    exact container_twins fun result => hread.bind fun ret => (hassert _).bind fun _ => (hassert _).bind fun _ =>
      decodeTypeRef_twins.bind fun _ => (readEntries_twins decodeObject_twins result).bind fun _ => .pure _

/-- `decode` of any type, where a map is not asked for behind another lead byte. -/
theorem decode_twins (T : DecodedType) (hT : ndebug = P.ndebug ∨ ∀ typed, T ≠ .container (.map typed)) :
    BuildTwins P lite (decode P T) (decode (P.build lite ndebug) T) := by
  cases T with
  | object => exact decodeObject_twins
  | bool => exact decodeBool_twins
  | int32 => exact decodeInt32_twins
  | int64 => exact decodeInt64_twins
  | double => exact decodeDouble_twins
  | string => exact decodeString_twins
  | bytes => exact decodeBytes_twins
  | milliseconds => exact readDate_twins _
  | definition => exact decodeDefinition_twins
  | container kind =>
    cases kind with
    | list typed =>
      simp only [decode, decodeContainer, decodeList, decodeTypedList_eq, decodeUntypedList_eq]
      exact .ite (fun _ => container_twins (typedListForm_twins decodeObject_twins)) fun _ =>
        container_twins (untypedListForm_twins decodeObject_twins)
    | map typed => exact decodeMap_twins typed (hT.resolve_right fun h => h typed rfl)
    | classInstance =>
      simp only [decode, decodeContainer, decodeClassInstance_eq]
      exact container_twins (classInstanceForm_twins decodeObject_twins)

/-- One call after the other, also behind calls that fail. -/
def decodeAttempts (P : Platform) : List DecodedType → Dec (List (Option Decoded))
  | [] => pure []
  | T :: Ts => attempt (decode P T) >>= fun v => decodeAttempts P Ts >>= fun vs =>
      pure (v.map (Sigma.mk T) :: vs)

theorem decodeAttempts_twins : ∀ {Ts : List DecodedType},
    (ndebug = P.ndebug ∨ ∀ typed, .container (.map typed) ∉ Ts) →
      BuildTwins P lite (decodeAttempts P Ts) (decodeAttempts (P.build lite ndebug) Ts)
  | [], _ => .pure []
  | T :: Ts, h => by
    have hT : ndebug = P.ndebug ∨ ∀ typed, T ≠ .container (.map typed) :=
      h.imp_right fun h typed hT => h typed (hT ▸ List.mem_cons_self)
    have hTs : ndebug = P.ndebug ∨ ∀ typed, .container (.map typed) ∉ Ts :=
      h.imp_right fun h typed hTs => h typed (List.mem_cons_of_mem _ hTs)
    exact (decode_twins T hT).attempt.bind fun v => (decodeAttempts_twins hTs).bind fun vs => .pure _

/-- **The builds do the same.**  Whatever has been read before, every sequence of calls of `decode`,
failed ones included, returns the same values, stops at the same places and leaves the same tables in
every build of a platform: with and without assertions on every input, unless a map is asked for by its
type, and with and without the rewriting of surrogates on inputs in which no byte from `0xA0` to `0xAF`
stands behind a `0xED`. -/
theorem attempts_build (P : Platform) (lite ndebug : Bool) (Ts : List DecodedType)
    (hTs : ndebug = P.ndebug ∨ ∀ typed, .container (.map typed) ∉ Ts) (s : State UInt8 Tables)
    (hs : P.Indifferent lite s.cursor.buffer) :
    decodeAttempts (P.build lite ndebug) Ts s = decodeAttempts P Ts s :=
  ((decodeAttempts_twins hTs).same hs).symm

/-- A string of two letters and then a list, of which only its lead byte is there. -/
theorem attempts_build_cut :
    decodeAttempts (Platform.simple.build true true) [.string, .container (.list false), .object]
        ⟨.ofList [0x02, 0x61, 0x62, 0x58], .empty⟩ =
      decodeAttempts .simple [.string, .container (.list false), .object]
        ⟨.ofList [0x02, 0x61, 0x62, 0x58], .empty⟩ :=
  attempts_build .simple true true _ (.inr (by rintro (_ | _) h <;> simp at h)) _ (.inr (by decide))

end Hessian2
