import Hessian2.Scalar

/-!
# Dates in every unit

Each duration type has an encoder of its own, which sends whole minutes as an `int32_t` and
everything else as 64-bit milliseconds; each decoder converts either form to its unit.

* `encodeDuration` : the encoders of the duration types.
* `timeBytes`, `timeReceived` : what all of them write for a time, and the time that arrives.
* `same_instant_same_bytes` : **the same instant is encoded the same in every unit.**
* `duration_carries_iff` : **a date survives exactly if it is no whole number of minutes beyond an
  `int32_t`.**
* `date_carries` : milliseconds, as `decode<Object>` reads them.
-/

namespace Hessian2

open Parsing Parsing.Parser Reader Enc

/-- `encode<T>` for a duration type. -/
def encodeDuration : DurationType → Int64 → Enc Bool
  | .milliseconds => encodeMilliseconds
  | .seconds => encodeSeconds
  | .minutes => encodeMinutes
  | .hours => encodeHours

/-! ### Conversions -/

namespace DurationType

/-- A number of ticks, in milliseconds. -/
def inMilliseconds (T : DurationType) (count : ℤ) : ℤ := count * T.tick

/-- A number of milliseconds as ticks, truncated toward zero. -/
def ofMilliseconds (U : DurationType) (count : ℤ) : ℤ := count.tdiv U.tick

theorem tick_pos (T : DurationType) : (0 : ℤ) < T.tick := by
  cases T <;> decide

/-- Of two ticks one is a multiple of the other. -/
theorem tick_dvd (T U : DurationType) : U.tick ∣ T.tick ∨ T.tick ∣ U.tick := by
  cases T <;> cases U <;> decide

/-- There are no more ticks than milliseconds. -/
theorem holds_of_milliseconds {T : DurationType} {z : ℤ}
    (h : IntegralType.int64.Holds (T.inMilliseconds z)) : IntegralType.int64.Holds z := by
  rw [IntegralType.holds_int64] at h ⊢
  cases T <;> simp only [inMilliseconds, tick] at h <;> omega

/-- What is left over is less than a tick. -/
theorem ofMilliseconds_bounds (U : DurationType) (z : ℤ) :
    z - U.tick < U.ofMilliseconds z * U.tick ∧ U.ofMilliseconds z * U.tick < z + U.tick := by
  have hdiv := Int.tdiv_mul_add_tmod z U.tick
  have hlt := Int.tmod_lt_of_pos z U.tick_pos
  have hgt := Int.lt_tmod_of_pos z U.tick_pos
  rw [ofMilliseconds]
  omega

theorem holds_ofMilliseconds (U : DurationType) {z : ℤ} (h : IntegralType.int64.Holds z) :
    IntegralType.int64.Holds (U.ofMilliseconds z) := by
  have hbounds := U.ofMilliseconds_bounds z
  rw [IntegralType.holds_int64] at h ⊢
  cases U <;> simp only [tick] at hbounds <;> omega

end DurationType

/-- `std::chrono::duration_cast` is exact up to the truncation. -/
theorem durationCast_eq (T U : DurationType) {z : ℤ}
    (h : IntegralType.int64.Holds (T.inMilliseconds z)) :
    durationCast T U z = U.ofMilliseconds (T.inMilliseconds z) := by
  have hT := T.tick_pos
  have hU := U.tick_pos
  rw [durationCast, DurationType.ofMilliseconds]
  split
  · next hd =>
    obtain ⟨k, hk⟩ := hd
    have hdiv : T.tick / U.tick = k := by rw [hk, Nat.mul_div_cancel_left _ (by omega)]
    have hticks : T.inMilliseconds z = U.inMilliseconds (z * k) := by
      rw [DurationType.inMilliseconds, DurationType.inMilliseconds, hk, Nat.cast_mul]
      ring
    rw [hticks] at h
    rw [hdiv, hticks, IntegralType.cast_eq (by decide) (DurationType.holds_of_milliseconds h),
      DurationType.inMilliseconds, Int.mul_tdiv_cancel _ (by omega)]
  · next hd =>
    obtain ⟨k, hk⟩ := (DurationType.tick_dvd T U).resolve_left hd
    have hdiv : U.tick / T.tick = k := by rw [hk, Nat.mul_div_cancel_left _ (by omega)]
    rw [hdiv, hk, Nat.cast_mul, DurationType.inMilliseconds, Int.mul_comm z,
      Int.mul_tdiv_mul_of_pos _ _ hT]

/-! ### The bytes of a time -/

/-- The bytes for a number of milliseconds. -/
def timeBytes (ms : ℤ) : Bytes :=
  if 60000 ∣ ms then 0x4b :: bigEndianBytes .int32 (ms / 60000) else 0x4a :: bigEndianBytes .int64 ms

/-- The number of milliseconds that arrives: whole minutes are sent as an `int32_t`. -/
def timeReceived (ms : ℤ) : ℤ :=
  if 60000 ∣ ms then 60000 * IntegralType.int32.cast (ms / 60000) else ms

/-- The comparison of the encoders finds the whole minutes. -/
theorem whole_minutes {ms : ℤ} (h : IntegralType.int64.Holds ms) :
    IntegralType.int64.cast (DurationType.minutes.ofMilliseconds ms * 60000) = ms ↔ 60000 ∣ ms := by
  have hbounds := DurationType.minutes.ofMilliseconds_bounds ms
  have hdiv : ms.tdiv 60000 = ms / 60000 + if 0 ≤ ms ∨ (60000 : ℤ) ∣ ms then 0 else 1 :=
    Int.tdiv_eq_ediv
  have hmin : DurationType.minutes.ofMilliseconds ms = ms.tdiv 60000 := rfl
  rw [IntegralType.holds_int64] at h
  have hfits : IntegralType.int64.Holds (DurationType.minutes.ofMilliseconds ms * 60000) := by
    rw [IntegralType.holds_int64, hmin]
    split at hdiv <;> omega
  rw [IntegralType.cast_eq (by decide) hfits, hmin]
  split at hdiv <;> omega

theorem minutes_of_dvd {ms : ℤ} (h : 60000 ∣ ms) :
    DurationType.minutes.ofMilliseconds ms = ms / 60000 := Int.tdiv_eq_ediv_of_dvd h

/-- A lead byte and an integer. -/
theorem writeTagged (tag : UInt8) (T : IntegralType) (z : ℤ) (e : Encoder) :
    (writeByte tag.toNat >>= fun _ => writeBE T z) e =
      .ok ((), e.write (tag :: bigEndianBytes T z)) := by
  rw [writeByte_bind, writeBE_apply, Encoder.write_write, byteOf_toNat]
  rfl

theorem writeTagged_returning (tag : UInt8) (T : IntegralType) (z : ℤ) (e : Encoder) :
    (writeByte tag.toNat >>= fun _ => writeBE T z >>= fun _ => pure true) e =
      .ok (true, e.write (tag :: bigEndianBytes T z)) := by
  rw [writeByte_bind, writeBE_bind, Enc.pure_apply, Encoder.write_write, byteOf_toNat]
  rfl

theorem writeDate_writes (T : DurationType) {v : Int64}
    (h : IntegralType.int64.Holds (T.inMilliseconds v.toInt)) (e : Encoder) :
    writeDate T v e = .ok ((), e.write (timeBytes (T.inMilliseconds v.toInt))) := by
  have hms : DurationType.milliseconds.ofMilliseconds (T.inMilliseconds v.toInt) =
      T.inMilliseconds v.toInt := Int.tdiv_one _
  simp only [writeDate, durationCast_eq T _ h, hms, whole_minutes h, timeBytes]
  split
  · next hd =>
    rw [minutes_of_dvd hd]
    exact writeTagged 0x4b .int32 _ e
  · exact writeTagged 0x4a .int64 _ e

theorem encodeMinutes_writes {m : ℤ} (h : IntegralType.int64.Holds m) (e : Encoder) :
    encodeMinutes (.ofInt m) e = .ok (true, e.write (0x4b :: bigEndianBytes .int32 m)) := by
  rw [IntegralType.holds_int64] at h
  rw [encodeMinutes, Int64.toInt_ofInt_of_le h.1 h.2]
  exact writeTagged_returning 0x4b .int32 m e

/-- All encoders write the same for the same time. -/
theorem encodeDuration_writes (T : DurationType) {v : Int64}
    (h : IntegralType.int64.Holds (T.inMilliseconds v.toInt)) (e : Encoder) :
    encodeDuration T v e = .ok (true, e.write (timeBytes (T.inMilliseconds v.toInt))) := by
  cases T with
  | milliseconds =>
    have hcount : DurationType.milliseconds.inMilliseconds v.toInt = v.toInt := Int.mul_one _
    have hmin := durationCast_eq .milliseconds .minutes h
    rw [hcount] at hmin h ⊢
    simp only [encodeDuration, encodeMilliseconds, hmin, whole_minutes h, timeBytes]
    split
    · next hd =>
      rw [encodeMinutes_writes (DurationType.holds_ofMilliseconds .minutes h), minutes_of_dvd hd]
    · exact writeTagged_returning 0x4a .int64 _ e
  | seconds => exact Enc.bind_apply_ok (writeDate_writes .seconds h e)
  | minutes =>
    have hcount : DurationType.minutes.inMilliseconds v.toInt = v.toInt * 60000 := rfl
    have hdvd : (60000 : ℤ) ∣ v.toInt * 60000 := Int.dvd_mul_left _ _
    rw [hcount, timeBytes, if_pos hdvd, Int.mul_ediv_cancel _ (by decide)]
    exact writeTagged_returning 0x4b .int32 _ e
  | hours => exact Enc.bind_apply_ok (writeDate_writes .hours h e)

/-- **The same instant is encoded the same in every unit.** -/
theorem same_instant_same_bytes (T U : DurationType) (v w : Int64)
    (h : IntegralType.int64.Holds (T.inMilliseconds v.toInt))
    (heq : T.inMilliseconds v.toInt = U.inMilliseconds w.toInt) :
    ∃ bs, ∀ e, encodeDuration T v e = .ok (true, e.write bs) ∧
      encodeDuration U w e = .ok (true, e.write bs) := by
  refine ⟨timeBytes (T.inMilliseconds v.toInt), fun e => ⟨encodeDuration_writes T h e, ?_⟩⟩
  rw [heq] at h ⊢
  exact encodeDuration_writes U h e

/-- One hour before 1970, in hours and in seconds. -/
theorem same_instant_negative_hour : ∃ bs, ∀ e,
    encodeDuration .hours (-1) e = .ok (true, e.write bs) ∧
      encodeDuration .seconds (-3600) e = .ok (true, e.write bs) :=
  same_instant_same_bytes .hours .seconds (-1) (-3600) (IntegralType.holds_int64.2 (by decide)) rfl

/-! ### The time that arrives -/

theorem timeReceived_eq {ms : ℤ} (h : 60000 ∣ ms → IntegralType.int32.Holds (ms / 60000)) :
    timeReceived ms = ms := by
  rw [timeReceived]
  split
  · next hd => rw [IntegralType.cast_eq (by decide) (h hd), Int.mul_ediv_cancel' hd]
  · rfl

theorem holds_timeReceived {ms : ℤ} (h : IntegralType.int64.Holds ms) :
    IntegralType.int64.Holds (timeReceived ms) := by
  rw [timeReceived]
  split
  · have hcast := IntegralType.holds_int32.1
      (IntegralType.holds_cast (T := .int32) (by decide) (ms / 60000))
    rw [IntegralType.holds_int64]
    omega
  · exact h

/-- A wrapped number of minutes is off by a multiple of 2³² minutes. -/
theorem timeReceived_far {ms : ℤ} (h : ¬(60000 ∣ ms → IntegralType.int32.Holds (ms / 60000))) :
    timeReceived ms + 60000 * 2 ^ 32 ≤ ms ∨ ms + 60000 * 2 ^ 32 ≤ timeReceived ms := by
  rw [Classical.not_imp] at h
  obtain ⟨hd, hfits⟩ := h
  have hcast := IntegralType.holds_int32.1
    (IntegralType.holds_cast (T := .int32) (by decide) (ms / 60000))
  have hmod := IntegralType.cast_emod .int32 (ms / 60000)
  rw [IntegralType.holds_int32] at hfits
  rw [timeReceived, if_pos hd]
  simp only [IntegralType.int32, Nat.reduceMul] at hmod hcast ⊢
  omega

variable {P : Platform}

theorem timeBytes_reads (U : DurationType) {ms : ℤ} (h : IntegralType.int64.Holds ms) (t : Tables) :
    Reads (readDate P U) t (timeBytes ms) (.ofInt (U.ofMilliseconds (timeReceived ms))) t := by
  rw [readDate_eq, timeBytes, timeReceived]
  split
  · refine reads_form ?_
    rw [dateForm, if_pos (by decide)]
    refine reads_take_map _ (length_bigEndianBytes _ _) ?_ t
    have hcast := IntegralType.holds_int32.1
      (IntegralType.holds_cast (T := .int32) (by decide) (ms / 60000))
    have hms (z : ℤ) : DurationType.minutes.inMilliseconds z = 60000 * z := Int.mul_comm z _
    rw [ofBits_bigEndianBytes_eq_cast, durationCast_eq, hms]
    rw [hms, IntegralType.holds_int64]
    omega
  · refine reads_form ?_
    rw [dateForm, if_neg (by decide), if_pos (by decide)]
    refine reads_take_map _ (length_bigEndianBytes _ _) ?_ t
    have hms : DurationType.milliseconds.inMilliseconds ms = ms := Int.mul_one _
    rw [ofBits_bigEndianBytes (by decide) h, durationCast_eq, hms]
    rwa [hms]

/-- The lead bytes of a date. -/
def DateLead (b : UInt8) : Prop := b.toNat = 0x4a ∨ b.toNat = 0x4b

theorem timeBytes_lead (ms : ℤ) : ∃ b bs, timeBytes ms = b :: bs ∧ DateLead b := by
  rw [timeBytes]
  split
  · exact ⟨_, _, rfl, .inr rfl⟩
  · exact ⟨_, _, rfl, .inl rfl⟩

theorem duration_carries (T U : DurationType) {v : Int64}
    (h : IntegralType.int64.Holds (T.inMilliseconds v.toInt)) :
    Carries (encodeDuration T v) (readDate P U)
      (.ofInt (U.ofMilliseconds (timeReceived (T.inMilliseconds v.toInt)))) DateLead := by
  obtain ⟨b, bs, hbytes, hb⟩ := timeBytes_lead (T.inMilliseconds v.toInt)
  refine ⟨b, bs, hb, fun e => ?_, fun t => ?_⟩
  · rw [← hbytes]
    exact encodeDuration_writes T h e
  · rw [← hbytes]
    exact timeBytes_reads U h t

/-- **A date that is sent in one unit and read in another is the same time, truncated toward zero,
exactly if it is no whole number of minutes that an `int32_t` cannot hold.** -/
theorem duration_carries_iff (P : Platform) (T U : DurationType) (v : Int64)
    (h : IntegralType.int64.Holds (T.inMilliseconds v.toInt)) :
    Carries (encodeDuration T v) (readDate P U)
        (.ofInt (U.ofMilliseconds (T.inMilliseconds v.toInt))) DateLead ↔
      (60000 ∣ T.inMilliseconds v.toInt →
        IntegralType.int32.Holds (T.inMilliseconds v.toInt / 60000)) := by
  have hcarries := duration_carries (P := P) T U h
  constructor
  · intro hexact
    by_contra hwraps
    have heq := hcarries.unique hexact
    have hfar := timeReceived_far hwraps
    have hfrom := IntegralType.holds_int64.1 (U.holds_ofMilliseconds (holds_timeReceived h))
    have hto := IntegralType.holds_int64.1 (U.holds_ofMilliseconds h)
    have hint := congrArg Int64.toInt heq
    rw [Int64.toInt_ofInt_of_le hfrom.1 hfrom.2, Int64.toInt_ofInt_of_le hto.1 hto.2] at hint
    have hb := U.ofMilliseconds_bounds (timeReceived (T.inMilliseconds v.toInt))
    have hb' := U.ofMilliseconds_bounds (T.inMilliseconds v.toInt)
    rw [hint] at hb
    cases U <;> simp only [DurationType.tick] at hb hb' <;> omega
  · intro hfits
    rwa [timeReceived_eq hfits] at hcarries

/-- One minute before 1970, in hours. -/
theorem duration_carries_negative_minute :
    Carries (encodeDuration .minutes (-1)) (readDate .simple .hours)
        (.ofInt (DurationType.hours.ofMilliseconds
          (DurationType.minutes.inMilliseconds (-1 : Int64).toInt))) DateLead ↔
      (60000 ∣ DurationType.minutes.inMilliseconds (-1 : Int64).toInt →
        IntegralType.int32.Holds (DurationType.minutes.inMilliseconds (-1 : Int64).toInt / 60000)) :=
  duration_carries_iff .simple .minutes .hours (-1) (IntegralType.holds_int64.2 (by decide))

/-- 2³¹ minutes are read as -2³¹ minutes. -/
theorem duration_not_carried :
    IntegralType.int64.Holds (DurationType.minutes.inMilliseconds (2147483648 : Int64).toInt) ∧
      ¬ Carries (encodeDuration .minutes 2147483648) (readDate .simple .minutes)
        (.ofInt (DurationType.minutes.ofMilliseconds
          (DurationType.minutes.inMilliseconds (2147483648 : Int64).toInt))) DateLead := by
  have hfits : IntegralType.int64.Holds
      (DurationType.minutes.inMilliseconds (2147483648 : Int64).toInt) :=
    IntegralType.holds_int64.2 (by decide)
  refine ⟨hfits, fun h => ?_⟩
  have heq := (duration_carries .minutes .minutes hfits).unique h
  revert heq
  decide

/-! ### Milliseconds -/

/-- The date that arrives. -/
def dateReceived (value : Int64) : Int64 := .ofInt (timeReceived value.toInt)

/-- A date arrives unless it is a number of minutes beyond an `int32_t`. -/
theorem dateReceived_eq {value : Int64} (h : (60000 : ℤ) ∣ value.toInt →
    IntegralType.int32.Holds (value.toInt / 60000)) : dateReceived value = value := by
  rw [dateReceived, timeReceived_eq h, Int64.ofInt_toInt]

theorem date_carries (v : Int64) :
    Carries (encodeMilliseconds v) (readDate P .milliseconds) (dateReceived v) DateLead := by
  have hcount : DurationType.milliseconds.inMilliseconds v.toInt = v.toInt := Int.mul_one _
  have hfits : IntegralType.int64.Holds (DurationType.milliseconds.inMilliseconds v.toInt) := by
    rw [hcount]
    exact IntegralType.holds_int64.2 ⟨v.le_toInt, v.toInt_lt⟩
  have hcarries := duration_carries (P := P) .milliseconds .milliseconds hfits
  have hms : DurationType.milliseconds.ofMilliseconds (timeReceived v.toInt) =
      timeReceived v.toInt := Int.tdiv_one _
  rwa [hcount, hms] at hcarries

end Hessian2
