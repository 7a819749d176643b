import Bongos.Calendar
import Bongos.Status

/-!
# The calendar of `time-core.c`

`timeCivilToEpoch`, the seconds since 1970 of a date and time in UTC, and `timeRtcDecode`, which
reads the registers of the CMOS clock. The conversion is the count of days of the Gregorian
calendar, with no wrap in any of its unsigned operations, for every year that 32 bits hold
(`timeCivilToEpoch_eq`).
-/

namespace Bongos.Core

open BitVec (ofNat_add ofNat_mul ofNat_sub_ofNat_of_le ofNat_toNat toNat_add toNat_inj toNat_mul
  toNat_ofNat toNat_setWidth toNat_umod)
open Calendar

/-! ## The source -/

def isLeap (y : BitVec 32) : Bool := (y % 4 == 0 && y % 100 != 0) || y % 400 == 0

/-- `days` of `timeDaysInMonth`. -/
def MONTH_DAYS : List (BitVec 32) := [31, 28, 31, 30, 31, 30, 31, 31, 30, 31, 30, 31]

def timeDaysInMonth (year mon : BitVec 32) : BitVec 32 :=
  if mon < 1 ∨ mon > 12 then 0
  else MONTH_DAYS.getD (mon - 1).toNat 0 + (if mon = 2 ∧ isLeap year then 1 else 0)

def timeCivilToEpoch (year mon day hour min sec : BitVec 32) : BitVec 64 :=
  let y : BitVec 64 := (year - (if mon ≤ 2 then 1 else 0)).setWidth 64
  let era := y / 400
  let yoe := y - era * 400
  let doy :=
    (153 * (if mon > 2 then mon - 3 else mon + 9).setWidth 64 + 2) / 5 + day.setWidth 64 - 1
  let doe := yoe * 365 + yoe / 4 - yoe / 100 + doy
  let days := era * 146097 + doe - 719468
  days * 86400 + hour.setWidth 64 * 3600 + min.setWidth 64 * 60 + sec.setWidth 64

structure TimeRtcRaw where
  sec : BitVec 8
  min : BitVec 8
  hour : BitVec 8
  day : BitVec 8
  mon : BitVec 8
  year : BitVec 8
  century : BitVec 8
  regB : BitVec 8
  hasCentury : Bool
  deriving DecidableEq

structure TimeCivil where
  year : BitVec 32
  mon : BitVec 32
  day : BitVec 32
  hour : BitVec 32
  min : BitVec 32
  sec : BitVec 32
  deriving DecidableEq

/-- `rtcField`: none where the source returns false. -/
def rtcField (v : BitVec 8) (binary : Bool) : Option (BitVec 32) :=
  if binary then some (v.setWidth 32)
  else if v &&& 0x0F > 9 ∨ v >>> 4 > 9 then none
  else some ((v >>> 4).setWidth 32 * 10 + (v &&& 0x0F).setWidth 32)

variable (raw : TimeRtcRaw)

/-- The fields that `timeRtcDecode` reads first, in its order. -/
def rtcFields (binary : Bool) (hourReg : BitVec 8) : Option TimeCivil := do
  let sec ← rtcField raw.sec binary
  let min ← rtcField raw.min binary
  let hour ← rtcField hourReg binary
  let day ← rtcField raw.day binary
  let mon ← rtcField raw.mon binary
  let yy ← rtcField raw.year binary
  return ⟨yy, mon, day, hour, min, sec⟩

/-- `hour` of `timeRtcDecode` on a clock of 12 or 24 hours. -/
def rtcHour (h24 pm : Bool) (hour : BitVec 32) : BitVec 32 :=
  if h24 then hour else hour % 12 + if pm then 12 else 0

/-- `year` of `timeRtcDecode`. -/
def rtcYear (binary : Bool) (yy : BitVec 32) : BitVec 32 :=
  match if raw.hasCentury then rtcField raw.century binary else none with
  | some cent => if cent ≥ 19 ∧ cent ≤ 29 then cent * 100 + yy else 2000 + yy
  | none => 2000 + yy

/-- `timeRtcDecode`: what it writes to `*epoch` and `*civil`, or the status that it returns. -/
def timeRtcDecode : Except Status (BitVec 64 × TimeCivil) :=
  let binary := raw.regB &&& 0x04 != 0
  let h24 := raw.regB &&& 0x02 != 0
  let pm := !h24 && raw.hour &&& 0x80 != 0
  let hourReg := if h24 then raw.hour else raw.hour &&& 0x7F
  match rtcFields raw binary hourReg with
  | none => .error .errInvalid
  | some ⟨yy, mon, day, hour, min, sec⟩ =>
    if ¬ h24 ∧ (hour < 1 ∨ hour > 12) then .error .errInvalid
    else if yy > 99 then .error .errInvalid
    else
      let hour := rtcHour h24 pm hour
      let year := rtcYear raw binary yy
      if year < 1970 ∨ sec > 59 ∨ min > 59 ∨ hour > 23 ∨ mon < 1 ∨ mon > 12 ∨ day < 1 ∨
          day > timeDaysInMonth year mon then .error .errInvalid
      else .ok (timeCivilToEpoch year mon day hour min sec, ⟨year, mon, day, hour, min, sec⟩)

/-! ## Dates -/

variable {year mon : BitVec 32}

theorem isLeap_iff : isLeap year = true ↔ IsLeap year.toNat := by
  simp only [isLeap, IsLeap, Bool.or_eq_true, Bool.and_eq_true, beq_iff_eq, bne_iff_ne, ne_eq,
    ← toNat_inj, toNat_umod, BitVec.ofNat_eq_ofNat, toNat_ofNat, Nat.reducePow,
    Nat.reduceMod]
  omega

/-- The table has the lengths of the months. -/
theorem timeDaysInMonth_toNat (hm : 1 ≤ mon.toNat) (hm' : mon.toNat ≤ 12) :
    (timeDaysInMonth year mon).toNat = monthLength year.toNat mon.toNat := by
  obtain ⟨m, hm0⟩ : ∃ m, mon.toNat = m := ⟨_, rfl⟩
  obtain rfl : mon = BitVec.ofNat 32 m := by
    rw [← hm0, ofNat_toNat, BitVec.setWidth_eq]
  rw [hm0] at hm hm'
  by_cases hleap : IsLeap year.toNat
  · have hcode := isLeap_iff.2 hleap
    interval_cases m <;> simp [timeDaysInMonth, MONTH_DAYS, monthLength, hcode, hleap]
  · have hcode : isLeap year = false := Bool.eq_false_iff.2 fun h => hleap (isLeap_iff.1 h)
    interval_cases m <;> simp [timeDaysInMonth, MONTH_DAYS, monthLength, hcode, hleap]

/-- A date and time that exist. -/
structure TimeCivil.Valid (c : TimeCivil) : Prop where
  mon_pos : 1 ≤ c.mon
  mon_le : c.mon ≤ 12
  day_pos : 1 ≤ c.day
  day_le : c.day ≤ timeDaysInMonth c.year c.mon
  hour_le : c.hour ≤ 23
  min_le : c.min ≤ 59
  sec_le : c.sec ≤ 59

/-- The moment of the Gregorian calendar that the fields name. -/
def TimeCivil.Valid.moment {c : TimeCivil} (h : c.Valid) : Moment where
  year := c.year.toNat
  month := c.mon.toNat
  day := c.day.toNat
  month_pos := h.mon_pos
  month_le := h.mon_le
  day_pos := h.day_pos
  day_le := h.day_le.trans (timeDaysInMonth_toNat h.mon_pos h.mon_le).le
  hour := c.hour.toNat
  minute := c.min.toNat
  second := c.sec.toNat
  hour_lt := Nat.lt_succ_of_le h.hour_le
  minute_lt := Nat.lt_succ_of_le h.min_le
  second_lt := Nat.lt_succ_of_le h.sec_le

/-! ## The seconds since 1970 -/

/-- The year of the formula, which starts in March. -/
theorem marchYear_toNat (mon : BitVec 32) (hy : 1 ≤ year.toNat) :
    (year - (if mon ≤ 2 then 1 else 0)).toNat = if mon.toNat ≤ 2 then year.toNat - 1 else
      year.toNat := by
  have hle : mon ≤ 2 ↔ mon.toNat ≤ 2 := Iff.rfl
  by_cases hm : mon.toNat ≤ 2
  · rw [if_pos (hle.2 hm), if_pos hm, BitVec.toNat_sub_of_le hy]
    rfl
  · rw [if_neg (mt hle.1 hm), if_neg hm, show year - 0 = year from BitVec.sub_zero year]

/-- The month of the formula, counted from March. -/
theorem marchMonth_toNat (hm : mon.toNat ≤ 12) : (if mon > 2 then mon - 3 else mon + 9).toNat
    = if 2 < mon.toNat then mon.toNat - 3 else mon.toNat + 9 := by
  have hlt : mon > 2 ↔ 2 < mon.toNat := Iff.rfl
  by_cases hm2 : 2 < mon.toNat
  · rw [if_pos (hlt.2 hm2), if_pos hm2,
      BitVec.toNat_sub_of_le (show (3 : BitVec 32) ≤ mon from hm2)]
    rfl
  · have h9 : (9 : BitVec 32).toNat = 9 := rfl
    rw [if_neg (mt hlt.1 hm2), if_neg hm2, BitVec.toNat_add_of_lt (by omega), h9]

theorem ofNat_udiv_ofNat {a b : ℕ} (ha : a < 2^64) (hb : b < 2^64) :
    BitVec.ofNat 64 a / BitVec.ofNat 64 b = BitVec.ofNat 64 (a / b) := by
  rw [BitVec.udiv_def, toNat_ofNat, toNat_ofNat, Nat.mod_eq_of_lt ha, Nat.mod_eq_of_lt hb]

/-- The closed form in 64 bits. No operation wraps. -/
theorem timeCivilToEpoch_eq_ofNat {day hour min sec : BitVec 32} {y mp n : ℕ} (hy : y < 2^32)
    (hmp : mp ≤ 11) (hday : 1 ≤ day.toNat) (hday' : day.toNat ≤ 31)
    (hyear : (year - (if mon ≤ 2 then 1 else 0)).toNat = y)
    (hmonth : (if mon > 2 then mon - 3 else mon + 9).toNat = mp)
    (hn : y / 400 * 146097 + (y % 400 * 365 + y % 400 / 4 - y % 400 / 100
      + ((153 * mp + 2) / 5 + day.toNat - 1)) = 719468 + n) :
    timeCivilToEpoch year mon day hour min sec
      = BitVec.ofNat 64 (n * 86400 + hour.toNat * 3600 + min.toNat * 60 + sec.toNat) := by
  have hera : BitVec.ofNat 64 y / BitVec.ofNat 64 400 = BitVec.ofNat 64 (y / 400) :=
    ofNat_udiv_ofNat (by omega) (by decide)
  have hyoe : BitVec.ofNat 64 y - BitVec.ofNat 64 (y / 400) * BitVec.ofNat 64 400
      = BitVec.ofNat 64 (y % 400) := by
    have hmod : y - y / 400 * 400 = y % 400 := by omega
    rw [← ofNat_mul, ofNat_sub_ofNat_of_le _ _ (by omega) (by omega), hmod]
  have hdoy : (BitVec.ofNat 64 153 * BitVec.ofNat 64 mp + BitVec.ofNat 64 2) / BitVec.ofNat 64 5
      + BitVec.ofNat 64 day.toNat - BitVec.ofNat 64 1
      = BitVec.ofNat 64 ((153 * mp + 2) / 5 + day.toNat - 1) := by
    rw [← ofNat_mul, ← ofNat_add, ofNat_udiv_ofNat (by omega) (by decide), ← ofNat_add,
      ofNat_sub_ofNat_of_le _ _ (by decide) (by omega)]
  have hdoe : BitVec.ofNat 64 (y % 400) * BitVec.ofNat 64 365 +
      BitVec.ofNat 64 (y % 400) / BitVec.ofNat 64 4 -
      BitVec.ofNat 64 (y % 400) / BitVec.ofNat 64 100
      = BitVec.ofNat 64 (y % 400 * 365 + y % 400 / 4 - y % 400 / 100) := by
    rw [ofNat_udiv_ofNat (by omega) (by decide), ofNat_udiv_ofNat (by omega) (by decide),
      ← ofNat_mul, ← ofNat_add, ofNat_sub_ofNat_of_le _ _ (by omega) (by omega)]
  have hw : ∀ x : BitVec 32, x.setWidth 64 = BitVec.ofNat 64 x.toNat :=
    fun x => (ofNat_toNat 64 x).symm
  simp only [timeCivilToEpoch, hw, hyear, hmonth]
  simp only [BitVec.ofNat_eq_ofNat, hera, hyoe, hdoy, hdoe]
  simp only [← ofNat_mul, ← ofNat_add, hn]
  rw [ofNat_sub_ofNat_of_le _ _ (by decide) (Nat.le_add_right _ _), Nat.add_sub_cancel_left]
  simp only [← ofNat_mul, ← ofNat_add]

variable {c : TimeCivil} {raw : TimeRtcRaw}

/-- The conversion counts the seconds since 1970. -/
theorem timeCivilToEpoch_eq (h : c.Valid) (hy : 1970 ≤ c.year.toNat) :
    (timeCivilToEpoch c.year c.mon c.day c.hour c.min c.sec).toNat =
      h.moment.secondsSince 1970 := by
  have hn : marchDays c.year.toNat c.mon.toNat c.day.toNat =
      719468 + h.moment.toDate.daysSince 1970 :=
    (marchDays_eq (by decide) h.moment.toDate hy).trans (congrArg (· + _) (by decide))
  have hday := h.moment.day_le.trans (monthLength_le _ _)
  have hmon : c.mon.toNat ≤ 12 := h.mon_le
  have hyear : (if c.mon.toNat ≤ 2 then c.year.toNat - 1 else c.year.toNat) < 2^32 := by
    split <;> omega
  have hmonth : (if 2 < c.mon.toNat then c.mon.toNat - 3 else c.mon.toNat + 9) ≤ 11 := by
    split <;> omega
  rw [timeCivilToEpoch_eq_ofNat hyear hmonth h.day_pos hday
    (marchYear_toNat c.mon ((by decide : 1 ≤ 1970).trans hy))
    (marchMonth_toNat hmon) hn, toNat_ofNat, Moment.secondsSince]
  have hdays : h.moment.toDate.daysSince 1970 < 2^41 := by
    rw [marchDays] at hn
    omega
  have htime : h.moment.secondOfDay = 3600 * c.hour.toNat + 60 * c.min.toNat + c.sec.toNat := rfl
  omega

/-! ## The clock -/

/-- The number in a register: in binary, or as two decimal digits. -/
def RegisterHolds (binary : Bool) (v : BitVec 8) (n : ℕ) : Prop :=
  if binary then n = v.toNat else ∃ t u, t ≤ 9 ∧ u ≤ 9 ∧ v.toNat = 16 * t + u ∧ n = 10 * t + u

theorem rtcField_eq_some {v : BitVec 8} {binary : Bool} {x : BitVec 32} :
    rtcField v binary = some x ↔ RegisterHolds binary v x.toNat := by
  rw [rtcField, RegisterHolds]
  by_cases hb : binary = true
  · have hx : (v.setWidth 32).toNat = v.toNat := by
      rw [toNat_setWidth]
      exact Nat.mod_eq_of_lt (by omega)
    rw [if_pos hb, if_pos hb, Option.some.injEq, ← toNat_inj, hx, eq_comm]
  · have hlow : (v &&& 0x0F).toNat = v.toNat % 16 := by
      exact Nat.and_two_pow_sub_one_eq_mod _ 4
    have hhigh : (v >>> 4).toNat = v.toNat / 16 := by
      rw [BitVec.toNat_ushiftRight, Nat.shiftRight_eq_div_pow]
    have hbad : (v &&& 0x0F > 9 ∨ v >>> 4 > 9) ↔ 9 < v.toNat % 16 ∨ 9 < v.toNat / 16 := by
      rw [← hlow, ← hhigh]
      rfl
    have h10 : (10 : BitVec 32).toNat = 10 := rfl
    have hx : ((v >>> 4).setWidth 32 * 10 + (v &&& 0x0F).setWidth 32 : BitVec 32).toNat
        = 10 * (v.toNat / 16) + v.toNat % 16 := by
      rw [toNat_add, toNat_mul, toNat_setWidth, toNat_setWidth, hlow, hhigh, h10]
      omega
    rw [if_neg hb, if_neg hb]
    constructor
    · intro h
      split_ifs at h with hc
      rw [hbad] at hc
      rw [Option.some.injEq, ← toNat_inj, hx] at h
      exact ⟨v.toNat / 16, v.toNat % 16, by omega, by omega, by omega, h.symm⟩
    · rintro ⟨t, u, ht, hu, hvtu, hn⟩
      rw [if_neg (by rw [hbad]; omega), Option.some.injEq, ← toNat_inj, hx]
      omega

/-- Bit 2 of register B: the registers are in binary. -/
def TimeRtcRaw.binary : Bool := raw.regB.getLsbD 2

/-- Bit 1 of register B: the clock counts 24 hours. -/
def TimeRtcRaw.h24 : Bool := raw.regB.getLsbD 1

/-- The hour, which on a clock of twelve hours is 12 for 0 and has bit 7 set in the afternoon. -/
def TimeRtcRaw.HourIs (n : ℕ) : Prop :=
  if raw.h24 then RegisterHolds raw.binary raw.hour n
  else ∃ h, 1 ≤ h ∧ h ≤ 12 ∧ RegisterHolds raw.binary (raw.hour &&& 0x7F) h ∧
    n = h % 12 + if raw.hour.getLsbD 7 then 12 else 0

/-- The century register has a plausible value. -/
def TimeRtcRaw.HasCenturyOf (n : ℕ) : Prop :=
  raw.hasCentury ∧ RegisterHolds raw.binary raw.century n ∧ 19 ≤ n ∧ n ≤ 29

/-- The year, in the century of the century register, or else in this one. -/
def TimeRtcRaw.YearIs (n : ℕ) : Prop :=
  ∃ yy ≤ 99, RegisterHolds raw.binary raw.year yy ∧
    ((∃ cent, raw.HasCenturyOf cent ∧ n = 100 * cent + yy) ∨
      (∀ cent, ¬ raw.HasCenturyOf cent) ∧ n = 2000 + yy)

/-- The date and time are those of the registers. -/
structure TimeRtcRaw.Reads (c : TimeCivil) : Prop where
  sec : RegisterHolds raw.binary raw.sec c.sec.toNat
  min : RegisterHolds raw.binary raw.min c.min.toNat
  hour : raw.HourIs c.hour.toNat
  day : RegisterHolds raw.binary raw.day c.day.toNat
  mon : RegisterHolds raw.binary raw.mon c.mon.toNat
  year : raw.YearIs c.year.toNat

theorem regB_binary : ∀ v : BitVec 8, (v &&& 0x04 != 0) = v.getLsbD 2 := by decide

theorem regB_h24 : ∀ v : BitVec 8, (v &&& 0x02 != 0) = v.getLsbD 1 := by decide

theorem hour_pm : ∀ v : BitVec 8, (v &&& 0x80 != 0) = v.getLsbD 7 := by decide

theorem rtcFields_eq_some {binary : Bool} {hourReg : BitVec 8}
    (h : rtcFields raw binary hourReg = some c) :
    RegisterHolds binary raw.sec c.sec.toNat ∧ RegisterHolds binary raw.min c.min.toNat ∧
      RegisterHolds binary hourReg c.hour.toNat ∧ RegisterHolds binary raw.day c.day.toNat ∧
      RegisterHolds binary raw.mon c.mon.toNat ∧ RegisterHolds binary raw.year c.year.toNat := by
  simp only [rtcFields, Option.bind_eq_bind, Option.bind_eq_some_iff, Option.pure_def] at h
  obtain ⟨sec, hsec, min, hmin, hour, hhour, day, hday, mon, hmon, yy, hyy, hc⟩ := h
  cases hc
  exact ⟨rtcField_eq_some.1 hsec, rtcField_eq_some.1 hmin, rtcField_eq_some.1 hhour,
    rtcField_eq_some.1 hday, rtcField_eq_some.1 hmon, rtcField_eq_some.1 hyy⟩

theorem TimeRtcRaw.hourIs_rtcHour {hour : BitVec 32}
    (h12 : ¬ (¬ raw.h24 = true ∧ (hour < 1 ∨ hour > 12)))
    (h : RegisterHolds raw.binary (if raw.h24 = true then raw.hour else raw.hour &&& 0x7F)
      hour.toNat) :
    raw.HourIs (rtcHour raw.h24 (!raw.h24 && raw.hour.getLsbD 7) hour).toNat := by
  rw [TimeRtcRaw.HourIs, rtcHour]
  cases h24 : raw.h24 with
  | true =>
    rw [h24] at h
    exact h
  | false =>
    rw [h24] at h h12
    rw [not_and, not_or] at h12
    obtain ⟨hlo, hhi⟩ := h12 Bool.false_ne_true
    have hlo : 1 ≤ hour.toNat := Nat.le_of_not_lt hlo
    have hhi : hour.toNat ≤ 12 := Nat.le_of_not_lt hhi
    have hmod : (hour % 12).toNat = hour.toNat % 12 := toNat_umod
    refine ⟨hour.toNat, hlo, hhi, h, ?_⟩
    rw [if_neg Bool.false_ne_true, Bool.not_false, Bool.true_and, toNat_add, hmod]
    cases raw.hour.getLsbD 7 with
    | true =>
      have h12 : (12 : BitVec 32).toNat = 12 := rfl
      simp only [if_true, h12]
      omega
    | false =>
      have h0 : (0 : BitVec 32).toNat = 0 := rfl
      simp only [Bool.false_eq_true, if_false, h0]
      omega

theorem TimeRtcRaw.yearIs_rtcYear {yy : BitVec 32} (hyy : ¬ yy > 99)
    (h : RegisterHolds raw.binary raw.year yy.toNat) :
    raw.YearIs (rtcYear raw raw.binary yy).toNat := by
  have hle : yy.toNat ≤ 99 := Nat.le_of_not_lt hyy
  have h2000 : (2000 + yy).toNat = 2000 + yy.toNat := by
    exact Nat.mod_eq_of_lt (show 2000 + yy.toNat < 2^32 by omega)
  -- The register that a plausible century is in decodes to that century.
  have hcode : ∀ cent, raw.HasCenturyOf cent →
      (if raw.hasCentury then rtcField raw.century raw.binary else none) =
        some (BitVec.ofNat 32 cent) := by
    rintro cent ⟨hhas, hreg, -, hcent⟩
    rw [if_pos hhas, rtcField_eq_some, toNat_ofNat, Nat.mod_eq_of_lt (by omega)]
    exact hreg
  refine ⟨yy.toNat, hle, h, ?_⟩
  rw [rtcYear]
  cases hcent : if raw.hasCentury then rtcField raw.century raw.binary else none with
  | none => exact .inr ⟨fun cent hc => (nomatch hcent.symm.trans (hcode cent hc)), h2000⟩
  | some cent =>
    dsimp only
    by_cases hrange : cent ≥ 19 ∧ cent ≤ 29
    · have hlo : 19 ≤ cent.toNat := hrange.1
      have hhi : cent.toNat ≤ 29 := hrange.2
      have h100 : (100 : BitVec 32).toNat = 100 := rfl
      split_ifs at hcent with hhas
      refine .inl ⟨cent.toNat, ⟨hhas, rtcField_eq_some.1 hcent, hlo, hhi⟩, ?_⟩
      rw [if_pos hrange, toNat_add, toNat_mul, h100]
      omega
    · rw [if_neg hrange]
      refine .inr ⟨fun n hc => hrange ?_, h2000⟩
      obtain rfl := Option.some.inj (hcent.symm.trans (hcode n hc))
      obtain ⟨-, -, hlo, hhi⟩ := hc
      have hn : (BitVec.ofNat 32 n).toNat = n := Nat.mod_eq_of_lt (by omega)
      exact ⟨hlo.trans hn.ge, hn.le.trans hhi⟩

theorem timeRtcDecode_ok {epoch : BitVec 64} (h : timeRtcDecode raw = .ok (epoch, c)) :
    c.Valid ∧ 1970 ≤ c.year.toNat ∧ raw.Reads c ∧
      epoch = timeCivilToEpoch c.year c.mon c.day c.hour c.min c.sec := by
  have hb : (raw.regB &&& 0x04 != 0) = raw.binary := regB_binary _
  have hh : (raw.regB &&& 0x02 != 0) = raw.h24 := regB_h24 _
  simp only [timeRtcDecode, hb, hh, hour_pm] at h
  split at h
  · exact nomatch h
  · next yy mon day hour min sec hfields =>
    obtain ⟨hsec, hmin, hhour, hday, hmon, hyy⟩ := rtcFields_eq_some hfields
    split_ifs at h with h12 hyy99 hbad
    cases h
    simp only [not_or] at hbad
    obtain ⟨hy, hs, hm, hh, hmon1, hmon2, hday1, hday2⟩ := hbad
    refine ⟨⟨Nat.le_of_not_lt hmon1, Nat.le_of_not_lt hmon2, Nat.le_of_not_lt hday1,
      Nat.le_of_not_lt hday2, Nat.le_of_not_lt hh, Nat.le_of_not_lt hm, Nat.le_of_not_lt hs⟩,
      Nat.le_of_not_lt hy,
        ⟨hsec, hmin, raw.hourIs_rtcHour h12 hhour, hday, hmon, raw.yearIs_rtcYear hyy99 hyy⟩, rfl⟩

/-- The calendar of `time-core.c` is right: the seconds of a date are those of the naive count, and
so in the order of time, and a clock that is read has the date and time of its registers. -/
structure CalendarExact : Prop where
  epoch : ∀ {c : TimeCivil} (h : c.Valid), 1970 ≤ c.year.toNat →
    (timeCivilToEpoch c.year c.mon c.day c.hour c.min c.sec).toNat = h.moment.secondsSince 1970
  increasing : ∀ {c c' : TimeCivil} (h : c.Valid) (h' : c'.Valid), 1970 ≤ c.year.toNat →
    h.moment.Before h'.moment → timeCivilToEpoch c.year c.mon c.day c.hour c.min c.sec
      < timeCivilToEpoch c'.year c'.mon c'.day c'.hour c'.min c'.sec
  decode : ∀ {raw : TimeRtcRaw} {epoch : BitVec 64} {c : TimeCivil},
    timeRtcDecode raw = .ok (epoch, c) → raw.Reads c ∧ ∃ h : c.Valid, 1970 ≤ c.year.toNat ∧
      epoch.toNat = h.moment.secondsSince 1970

theorem time_calendarExact : CalendarExact where
  epoch := timeCivilToEpoch_eq
  increasing {c c'} h h' hy hlt := by
    have hy' : 1970 ≤ c'.year.toNat := by
      rcases hlt with (hyear | ⟨hyear, -⟩) | ⟨⟨hyear, -⟩, -⟩
      · exact hy.trans hyear.le
      · exact hy.trans hyear.le
      · exact hy.trans hyear.le
    have hsec := Moment.secondsSince_lt hy hlt
    rw [← timeCivilToEpoch_eq h hy, ← timeCivilToEpoch_eq h' hy'] at hsec
    exact hsec
  decode hdecode := by
    obtain ⟨h, hy, hreads, rfl⟩ := timeRtcDecode_ok hdecode
    exact ⟨hreads, h, hy, timeCivilToEpoch_eq h hy⟩

end Bongos.Core
