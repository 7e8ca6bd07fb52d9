import Libcn.Lib.Gregorian
import Mathlib.Data.BitVec
import Mathlib.Tactic.IntervalCases

/-!
# `sgmtime`

Every variable of the function is a 64-bit word; `yday` and the argument are signed, the others
unsigned.
-/

namespace Libcn.Times

open Libcn.Lib.Gregorian

/-- The fields of `struct tm` that `sgmtime` sets. -/
structure Tm where
  sec : ℤ
  min : ℤ
  hour : ℤ
  mday : ℤ
  mon : ℤ
  year : ℤ
  wday : ℤ
  deriving DecidableEq, Repr

/-- `(int)x`. -/
def toInt32 (x : BitVec 64) : ℤ := (x.setWidth 32).toInt

/-- `days` and `sec`, truncated to the years 1970 to 9999. -/
def gmtimeDays (t : BitVec 64) : BitVec 64 × BitVec 64 :=
  let t := if t.toInt < 0 then 0 else t
  let days := t.sdiv 86400
  let sec := t.srem 86400
  if 2932896 < days then (2932896, 86399) else (days, sec)

/-- `year` and `yday`, for the days since the first of March of the year 0. -/
def gmtimeYear (days : BitVec 64) : BitVec 64 × BitVec 64 :=
  let year := (days + 2) * 400 / (365 * 400 + 100 - 4 + 1)
  let yday := days - (365 * year + year / 4 - year / 100 + year / 400)
  if yday.toInt < 0 then
    let leap : BitVec 64 :=
      if year % 4 = 0 ∧ (year % 100 ≠ 0 ∨ year % 400 = 0) then 1 else 0
    (year - 1, 365 + leap + yday)
  else (year, yday)

/-- `mon` and `mday`, before `mon` is counted from January. -/
def gmtimeMonth (yday : BitVec 64) : BitVec 64 × BitVec 64 :=
  let mon := ((yday + 31) * 10).sdiv 306
  (mon, yday - (367 * mon / 12 - 30) + 1)

/-- `year`, `mon` and `mday`, for the days since the first of March of the year 0. -/
def gmtimeDate (days : BitVec 64) : BitVec 64 × BitVec 64 × BitVec 64 :=
  let (year, yday) := gmtimeYear days
  let (mon, mday) := gmtimeMonth yday
  if 306 ≤ yday.toInt then (year + 1, mon - 10, mday) else (year, mon + 2, mday)

/-- `sgmtime`. -/
def sgmtime (t : BitVec 64) : Tm :=
  let days := (gmtimeDays t).1
  let sec := (gmtimeDays t).2
  let wday := (4 + days) % 7
  let hour := sec / 3600
  let sec := sec % 3600
  let min := sec / 60
  let sec := sec % 60
  let days := days - (31 + 28) + 719527
  let date := gmtimeDate days
  ⟨toInt32 sec, toInt32 min, toInt32 hour, toInt32 date.2.2, toInt32 date.2.1, toInt32 date.1,
    toInt32 wday⟩

/-! ## Small words -/

lemma toNat_ofNat_lt {x : ℕ} (hx : x < 2 ^ 32) : (BitVec.ofNat 64 x).toNat = x := by
  rw [BitVec.toNat_ofNat]
  omega

lemma toInt_ofNat_lt {x : ℕ} (hx : x < 2 ^ 32) : (BitVec.ofNat 64 x).toInt = x := by
  rw [BitVec.toInt_eq_toNat_cond, toNat_ofNat_lt hx]
  omega

lemma toInt_ofNat_sub {x y : ℕ} (hx : x < 2 ^ 32) (hy : y < 2 ^ 32) :
    (BitVec.ofNat 64 x - BitVec.ofNat 64 y).toInt = x - y := by
  rw [BitVec.toInt_eq_toNat_cond, BitVec.toNat_sub, toNat_ofNat_lt hx, toNat_ofNat_lt hy]
  split <;> omega

lemma toInt32_of_lt {x : BitVec 64} {n : ℕ} (hx : x.toNat = n) (hn : n < 2 ^ 31) :
    toInt32 x = n := by
  rw [toInt32, BitVec.toInt_eq_toNat_cond, BitVec.toNat_setWidth, hx]
  omega

/-! ## The year -/

lemma year_eq {d : ℕ} (hd : d < 2 ^ 32) :
    (BitVec.ofNat 64 d + 2) * 400 / (365 * 400 + 100 - 4 + 1) =
      BitVec.ofNat 64 ((d + 2) * 400 / 146097) := by
  have hmul : ((BitVec.ofNat 64 d + 2) * 400).toNat = (d + 2) * 400 := by
    rw [BitVec.toNat_mul, BitVec.toNat_add, toNat_ofNat_lt hd]
    simp
    omega
  apply BitVec.eq_of_toNat_eq
  rw [BitVec.toNat_udiv, hmul, BitVec.toNat_ofNat]
  simp
  omega

lemma marchDays_eq {y : ℕ} (hy : y < 2 ^ 32) :
    365 * BitVec.ofNat 64 y + BitVec.ofNat 64 y / 4 - BitVec.ofNat 64 y / 100 +
      BitVec.ofNat 64 y / 400 = BitVec.ofNat 64 (marchDays y) := by
  apply BitVec.eq_of_toNat_eq
  simp only [BitVec.toNat_udiv, BitVec.toNat_mul, BitVec.toNat_add, BitVec.toNat_sub,
    toNat_ofNat_lt hy, BitVec.toNat_ofNat, marchDays]
  simp
  omega

lemma leap_iff {y : ℕ} (hy : y < 2 ^ 32) :
    (BitVec.ofNat 64 y % 4 = 0 ∧ (BitVec.ofNat 64 y % 100 ≠ 0 ∨ BitVec.ofNat 64 y % 400 = 0)) ↔
      IsLeap y := by
  simp only [← BitVec.toNat_inj, ne_eq, BitVec.toNat_umod, toNat_ofNat_lt hy, IsLeap]
  simp

/-- The first guess at the year is at most two days early. -/
lemma guess_bounds {d y : ℕ} (hy : y = (d + 2) * 400 / 146097) :
    marchDays y ≤ d + 2 ∧ d < marchDays (y + 1) := by
  unfold marchDays
  omega

/-- The year from March to March that the day `d` lies in, and the days since its start. -/
lemma gmtimeYear_eq {d : ℕ} (hd : d < 2 ^ 31) :
    ∃ y yday, gmtimeYear (BitVec.ofNat 64 d) = (BitVec.ofNat 64 y, BitVec.ofNat 64 yday) ∧
      marchDays y + yday = d ∧ yday < yearLength (y + 1) := by
  obtain ⟨y, hy⟩ : ∃ y, y = (d + 2) * 400 / 146097 := ⟨_, rfl⟩
  obtain ⟨hlow, hhigh⟩ := guess_bounds hy
  have hsmall : y < 2 ^ 32 := by omega
  have hyday := toInt_ofNat_sub (x := d) (y := marchDays y) (by omega) (by omega)
  have hleap := leap_iff hsmall
  rw [gmtimeYear, year_eq (by omega), ← hy, marchDays_eq hsmall]
  simp only [hyday, hleap]
  by_cases hneg : d < marchDays y
  · -- one of the last two days of the year before
    obtain ⟨y, rfl⟩ : ∃ k, y = k + 1 := Nat.exists_eq_add_one.mpr (by
      by_contra h₀
      obtain rfl : y = 0 := by omega
      simp [marchDays] at hneg)
    have hsucc := marchDays_succ y
    have hlen := leapDays_le (y + 1)
    rw [yearLength] at hsucc
    refine ⟨y, d - marchDays y, ?_, by omega, by rw [yearLength]; omega⟩
    rw [if_pos (by omega)]
    have hday : (365 + (if IsLeap (y + 1) then 1 else 0) +
        (BitVec.ofNat 64 d - BitVec.ofNat 64 (marchDays (y + 1)))) =
        BitVec.ofNat 64 (d - marchDays y) := by
      have hif : (if IsLeap (y + 1) then 1 else 0 : BitVec 64) =
          BitVec.ofNat 64 (leapDays (y + 1)) := by
        unfold leapDays
        split <;> rfl
      apply BitVec.eq_of_toNat_eq
      rw [hif, BitVec.toNat_add, BitVec.toNat_add, BitVec.toNat_sub, toNat_ofNat_lt (by omega),
        toNat_ofNat_lt (by omega), toNat_ofNat_lt (by omega), toNat_ofNat_lt (by omega)]
      simp
      omega
    have hyear : BitVec.ofNat 64 (y + 1) - 1 = BitVec.ofNat 64 y := by
      rw [BitVec.ofNat_add]
      simp
    rw [hday, hyear]
  · have hsucc := marchDays_succ y
    refine ⟨y, d - marchDays y, ?_, by omega, by omega⟩
    rw [if_neg (by omega), BitVec.ofNat_sub_ofNat_of_le _ _ (by omega) (by omega)]

/-! ## The month -/

lemma gmtimeMonth_eq : ∀ yday < 366, gmtimeMonth (BitVec.ofNat 64 yday) =
    (BitVec.ofNat 64 ((yday + 31) * 10 / 306),
      BitVec.ofNat 64 (yday + 31 - 367 * ((yday + 31) * 10 / 306) / 12)) := by
  decide +kernel

/-- From March to December. -/
lemma month_bounds {yday : ℕ} (hyday : yday < 306) {mon : ℕ} (hmon : mon = (yday + 31) * 10 / 306) :
    1 ≤ mon ∧ mon ≤ 10 ∧ 367 * mon / 12 ≤ yday + 30 ∧
      yday + 31 - 367 * mon / 12 ≤ monthLength 1 (mon + 2) := by
  have h₁ : 1 ≤ mon := by omega
  have h₁₀ : mon ≤ 10 := by omega
  refine ⟨h₁, h₁₀, by omega, ?_⟩
  interval_cases mon <;> simp [monthLength] <;> omega

/-! ## The date -/

/-- The date of a day up to the end of the year 9999. -/
lemma gmtimeDate_eq {days d : ℕ} (hdays : days ≤ 2932896) (hd : d = days + 719468) :
    ∃ date : Date, gmtimeDate (BitVec.ofNat 64 d) =
        (BitVec.ofNat 64 date.year, BitVec.ofNat 64 date.month, BitVec.ofNat 64 date.day) ∧
      date.Valid ∧ 1970 ≤ date.year ∧ date.year ≤ 9999 ∧ date.daysSince 1970 = days := by
  obtain ⟨y, yday, hyear, hmarch, hlen⟩ := gmtimeYear_eq (d := d) (by omega)
  have hleap := leapDays_le (y + 1)
  have hlt : yday < 366 := by
    rw [yearLength] at hlen
    omega
  have hint := toInt_ofNat_lt (x := yday) (by omega)
  have h₁₉₆₉ : marchDays 1969 = 719162 := by decide
  have hy : 1969 ≤ y ∧ y ≤ 9999 := by
    unfold marchDays at hmarch
    omega
  simp only [gmtimeDate, hyear, gmtimeMonth_eq yday hlt, hint]
  by_cases hyday : yday < 306
  · -- the year from March to March is the calendar year
    obtain ⟨mon, hmon⟩ : ∃ mon, mon = (yday + 31) * 10 / 306 := ⟨_, rfl⟩
    obtain ⟨h₁, h₁₀, hlow, hhigh⟩ := month_bounds hyday hmon
    rw [← hmon, if_neg (by omega)]
    have hbefore := daysBeforeMonth_of_three_le y (m := mon + 2) (by omega)
    rw [daysBeforeMarch_eq (mon + 2) (by omega) (by omega), Nat.add_sub_cancel] at hbefore
    have hlength : monthLength y (mon + 2) = monthLength 1 (mon + 2) := by
      simp [monthLength, show mon ≠ 0 by omega]
    have hy₁ : 1970 ≤ y := by
      unfold marchDays at hmarch
      omega
    refine ⟨⟨y, mon + 2, yday + 31 - 367 * mon / 12⟩, ?_, ⟨by simp only; omega, ?_⟩, hy₁, hy.2, ?_⟩
    · rw [BitVec.ofNat_add]
      rfl
    · simp only [hlength]
      omega
    · obtain ⟨y, rfl⟩ : ∃ k, y = k + 1 := Nat.exists_eq_add_one.mpr (by omega)
      have hsince : Date.daysSince 1970 ⟨y + 1, mon + 2, yday + 31 - 367 * mon / 12⟩ +
          marchDays 1969 = _ := Date.daysSince_add (by omega) _ _
      have hsucc := marchDays_succ y
      rw [yearLength] at hsucc
      omega
  · -- January or February of the next calendar year
    rw [if_pos (by omega)]
    have hyear' : BitVec.ofNat 64 y + 1 = BitVec.ofNat 64 (y + 1) := by
      rw [BitVec.ofNat_add]
      rfl
    have hsince (month day : ℕ) : Date.daysSince 1970 ⟨y + 1, month, day⟩ + marchDays 1969 = _ :=
      Date.daysSince_add hy.1 month day
    have hy₂ : y + 1 ≤ 9999 := by
      unfold marchDays at hmarch
      omega
    by_cases hjanuary : yday < 337
    · have hmon : (yday + 31) * 10 / 306 = 11 := by omega
      refine ⟨⟨y + 1, 1, yday - 305⟩, ?_, ⟨by simp, ?_⟩, by simp only; omega, hy₂, ?_⟩
      · have hsub : BitVec.ofNat 64 11 - 10 = BitVec.ofNat 64 1 := by decide
        rw [hyear', hmon, hsub, show yday + 31 - 367 * 11 / 12 = yday - 305 by omega]
      · have hlength : monthLength (y + 1) 1 = 31 := by simp [monthLength]
        simp only [hlength]
        omega
      · have h := hsince 1 (yday - 305)
        simp only [daysBeforeMonth, Finset.Ico_self, Finset.sum_empty] at h
        omega
    · have hmon : (yday + 31) * 10 / 306 = 12 := by omega
      refine ⟨⟨y + 1, 2, yday - 336⟩, ?_, ⟨by simp, ?_⟩, by simp only; omega, hy₂, ?_⟩
      · have hsub : BitVec.ofNat 64 12 - 10 = BitVec.ofNat 64 2 := by decide
        rw [hyear', hmon, hsub, show yday + 31 - 367 * 12 / 12 = yday - 336 by omega]
      · have hlength : monthLength (y + 1) 2 = 28 + leapDays (y + 1) := by simp [monthLength]
        rw [yearLength] at hlen
        simp only [hlength]
        omega
      · have h := hsince 2 (yday - 336)
        have hjan : daysBeforeMonth (y + 1) 2 = 31 := by simp [daysBeforeMonth, monthLength]
        omega

/-! ## The time -/

/-- The time the calendar date stands for, as the code truncates it. -/
def clamp (t : BitVec 64) : ℤ := max 0 (min t.toInt 253402300799)

lemma gmtimeDays_eq (t : BitVec 64) : ∃ days sec : ℕ,
    gmtimeDays t = (BitVec.ofNat 64 days, BitVec.ofNat 64 sec) ∧ days ≤ 2932896 ∧ sec < 86400 ∧
      (days * 86400 + sec : ℕ) = clamp t := by
  unfold gmtimeDays clamp
  by_cases hneg : t.toInt < 0
  · refine ⟨0, 0, ?_, by omega, by omega, by omega⟩
    simp only [if_pos hneg]
    decide
  · have hmsb : t.msb = false := by
      rw [BitVec.msb_eq_toInt]
      simpa using hneg
    have ht := BitVec.toInt_eq_toNat_of_msb hmsb
    have hdiv : t.sdiv 86400 = t / 86400 := by
      rw [BitVec.sdiv_eq, hmsb]
      rfl
    have hrem : t.srem 86400 = t % 86400 := by
      rw [BitVec.srem_eq, hmsb]
      rfl
    have hdays : (t / 86400).toNat = t.toNat / 86400 := BitVec.toNat_udiv
    have hsec : (t % 86400).toNat = t.toNat % 86400 := BitVec.toNat_umod
    simp only [if_neg hneg, hdiv, hrem]
    by_cases hlast : 2932896 < t / 86400
    · rw [if_pos hlast]
      rw [BitVec.lt_def, hdays] at hlast
      refine ⟨2932896, 86399, rfl, le_rfl, by omega, ?_⟩
      have hlast' : 2932896 < t.toNat / 86400 := hlast
      omega
    · rw [if_neg hlast]
      rw [BitVec.lt_def, hdays] at hlast
      have hlast' : ¬ 2932896 < t.toNat / 86400 := hlast
      refine ⟨t.toNat / 86400, t.toNat % 86400, ?_, by omega, by omega, by omega⟩
      rw [← hdays, ← hsec, BitVec.ofNat_toNat, BitVec.ofNat_toNat, BitVec.setWidth_eq,
        BitVec.setWidth_eq]

/-- `sgmtime` splits the time of day of the truncated time and converts the day to its date in
the Gregorian calendar and its day of the week. -/
theorem sgmtime_calendar (t : BitVec 64) : ∃ (sec min hour : ℕ) (date : Date),
    sgmtime t = ⟨sec, min, hour, date.day, date.month, date.year,
      ((4 + date.daysSince 1970) % 7 : ℕ)⟩ ∧
    sec < 60 ∧ min < 60 ∧ hour < 24 ∧ date.Valid ∧ 1970 ≤ date.year ∧
    (date.daysSince 1970 * 86400 + hour * 3600 + min * 60 + sec : ℕ) = clamp t := by
  obtain ⟨days, sec, hdays, hmax, hsec, hclamp⟩ := gmtimeDays_eq t
  obtain ⟨d, hd⟩ : ∃ d, d = days + 719468 := ⟨_, rfl⟩
  obtain ⟨date, hdate, hvalid, hfirst, hlast, hsince⟩ := gmtimeDate_eq hmax hd
  have hmarch : BitVec.ofNat 64 days - (31 + 28) + 719527 = BitVec.ofNat 64 d := by
    apply BitVec.eq_of_toNat_eq
    rw [BitVec.toNat_add, BitVec.toNat_sub, toNat_ofNat_lt (by omega), toNat_ofNat_lt (by omega)]
    simp
    omega
  have hs : (BitVec.ofNat 64 sec).toNat = sec := toNat_ofNat_lt (by omega)
  have hmod : (BitVec.ofNat 64 sec % 3600).toNat = sec % 3600 := by
    rw [BitVec.toNat_umod, hs]
    rfl
  have hsec₂ : (BitVec.ofNat 64 sec % 3600 % 60).toNat = sec % 3600 % 60 := by
    rw [BitVec.toNat_umod, hmod]
    rfl
  have hmin : (BitVec.ofNat 64 sec % 3600 / 60).toNat = sec % 3600 / 60 := by
    rw [BitVec.toNat_udiv, hmod]
    rfl
  have hhour : (BitVec.ofNat 64 sec / 3600).toNat = sec / 3600 := by
    rw [BitVec.toNat_udiv, hs]
    rfl
  have hwday : ((4 + BitVec.ofNat 64 days) % 7).toNat = (4 + days) % 7 := by
    rw [BitVec.toNat_umod, BitVec.toNat_add, toNat_ofNat_lt (by omega)]
    simp
    omega
  have hday : date.day ≤ 31 := by
    have h := hvalid.day.2
    have hleap := leapDays_le date.year
    unfold monthLength at h
    split_ifs at h <;> omega
  have hmonth := hvalid.month.2
  have hsplit : days * 86400 + sec / 3600 * 3600 + sec % 3600 / 60 * 60 + sec % 3600 % 60 =
      days * 86400 + sec := by omega
  refine ⟨sec % 3600 % 60, sec % 3600 / 60, sec / 3600, date, ?_, by omega, by omega, by omega,
    hvalid, hfirst, by rw [hsince, hsplit, hclamp]⟩
  simp only [sgmtime, hdays, hmarch, hdate, hsince]
  rw [toInt32_of_lt hsec₂ (by omega), toInt32_of_lt hmin (by omega), toInt32_of_lt hhour (by omega),
    toInt32_of_lt hwday (by omega), toInt32_of_lt (toNat_ofNat_lt (by omega)) (by omega),
    toInt32_of_lt (toNat_ofNat_lt (by omega)) (by omega),
    toInt32_of_lt (toNat_ofNat_lt (by omega)) (by omega)]

end Libcn.Times
