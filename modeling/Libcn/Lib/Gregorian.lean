import Mathlib.Algebra.BigOperators.Intervals

/-!
# The Gregorian calendar

Dates, and the number of days from the first day of a year to a date, counted by the leap rule.
Counted from a first of March, a year has the same months whether it is a leap year or not: its
leap day is the last one.
-/

namespace Libcn.Lib.Gregorian

/-- The leap rule. -/
def IsLeap (y : ℕ) : Prop := y % 4 = 0 ∧ (y % 100 ≠ 0 ∨ y % 400 = 0)

instance (y : ℕ) : Decidable (IsLeap y) := inferInstanceAs (Decidable (_ ∧ _))

/-- The number of leap days of a year. -/
def leapDays (y : ℕ) : ℕ := if IsLeap y then 1 else 0

def yearLength (y : ℕ) : ℕ := 365 + leapDays y

/-- The length of a month, numbered from 1. -/
def monthLength (y m : ℕ) : ℕ :=
  if m = 2 then 28 + leapDays y else if m = 4 ∨ m = 6 ∨ m = 9 ∨ m = 11 then 30 else 31

structure Date where
  year : ℕ
  month : ℕ
  day : ℕ
  deriving DecidableEq, Repr

/-- The date is one of the calendar. -/
structure Date.Valid (d : Date) : Prop where
  month : 1 ≤ d.month ∧ d.month ≤ 12
  day : 1 ≤ d.day ∧ d.day ≤ monthLength d.year d.month

/-- The days of the months before a month of a year. -/
def daysBeforeMonth (y m : ℕ) : ℕ := ∑ i ∈ Finset.Ico 1 m, monthLength y i

/-- The number of days from the first of January of the year `epoch`. -/
def Date.daysSince (epoch : ℕ) (d : Date) : ℕ :=
  ∑ y ∈ Finset.Ico epoch d.year, yearLength y + daysBeforeMonth d.year d.month + (d.day - 1)

/-! ## Years -/

/-- The number of days from the first of March of the year 0 to that of the year `y`. -/
def marchDays (y : ℕ) : ℕ := 365 * y + y / 4 - y / 100 + y / 400

lemma leapDays_le (y : ℕ) : leapDays y ≤ 1 := by
  unfold leapDays
  split <;> omega

/-- A year from March to March has the length of the calendar year it ends in. -/
lemma marchDays_succ (y : ℕ) : marchDays (y + 1) = marchDays y + yearLength (y + 1) := by
  have h₁ : y / 100 ≤ 365 * y + y / 4 := by omega
  have h₄ : (y + 1) / 4 = y / 4 + if (y + 1) % 4 = 0 then 1 else 0 := by split <;> omega
  have h₁₀₀ : (y + 1) / 100 = y / 100 + if (y + 1) % 100 = 0 then 1 else 0 := by split <;> omega
  have h₄₀₀ : (y + 1) / 400 = y / 400 + if (y + 1) % 400 = 0 then 1 else 0 := by split <;> omega
  rw [marchDays, marchDays, h₄, h₁₀₀, h₄₀₀, yearLength]
  by_cases c₄ : (y + 1) % 4 = 0
  · by_cases c₁₀₀ : (y + 1) % 100 = 0
    · by_cases c₄₀₀ : (y + 1) % 400 = 0
      · have hleap : leapDays (y + 1) = 1 := by simp [leapDays, IsLeap, c₄, c₄₀₀]
        rw [hleap, if_pos c₄, if_pos c₁₀₀, if_pos c₄₀₀]
        omega
      · have hleap : leapDays (y + 1) = 0 := by simp [leapDays, IsLeap, c₁₀₀, c₄₀₀]
        rw [hleap, if_pos c₄, if_pos c₁₀₀, if_neg c₄₀₀]
        omega
    · have hleap : leapDays (y + 1) = 1 := by simp [leapDays, IsLeap, c₄, c₁₀₀]
      rw [hleap, if_pos c₄, if_neg c₁₀₀, if_neg (show (y + 1) % 400 ≠ 0 by omega)]
      omega
  · have hleap : leapDays (y + 1) = 0 := by simp [leapDays, IsLeap, c₄]
    rw [hleap, if_neg c₄, if_neg (show (y + 1) % 100 ≠ 0 by omega),
      if_neg (show (y + 1) % 400 ≠ 0 by omega)]
    omega

/-- The first of January of a year is 306 days after the first of March before it. -/
lemma sum_yearLength {a b : ℕ} (h : a ≤ b) :
    ∑ y ∈ Finset.Ico (a + 1) (b + 1), yearLength y + marchDays a = marchDays b := by
  induction b, h using Nat.le_induction with
  | base => simp
  | succ b hab ih =>
    rw [Finset.sum_Ico_succ_top (by omega), marchDays_succ, ← ih]
    omega

/-! ## Months -/

lemma daysBeforeMonth_succ (y : ℕ) {m : ℕ} (hm : 1 ≤ m) :
    daysBeforeMonth y (m + 1) = daysBeforeMonth y m + monthLength y m :=
  Finset.sum_Ico_succ_top hm _

/-- The days before a month from March on, in a year of 365 days. -/
def daysBeforeMarch (m : ℕ) : ℕ := daysBeforeMonth 1 m

/-- From March on a leap year is one day late. -/
lemma daysBeforeMonth_of_three_le (y : ℕ) {m : ℕ} (hm : 3 ≤ m) :
    daysBeforeMonth y m = daysBeforeMarch m + leapDays y := by
  induction m, hm using Nat.le_induction with
  | base =>
    have h₁ : leapDays 1 = 0 := by decide
    simp [daysBeforeMarch, daysBeforeMonth, Finset.sum_Ico_succ_top, monthLength, h₁, ← add_assoc]
  | succ m hm ih =>
    have hlen : monthLength y m = monthLength 1 m := by
      simp [monthLength, show m ≠ 2 by omega]
    rw [daysBeforeMonth_succ y (by omega), ih, hlen, daysBeforeMarch, daysBeforeMarch,
      daysBeforeMonth_succ 1 (by omega)]
    omega

/-- Gauss' formula. -/
lemma daysBeforeMarch_eq : ∀ m ≤ 12, 3 ≤ m → daysBeforeMarch m = 367 * (m - 2) / 12 + 29 := by
  decide

/-! ## Dates -/

/-- Days counted from a first of January, against those from the first of March of the year 0. -/
lemma Date.daysSince_add {e y : ℕ} (h : e ≤ y) (m day : ℕ) :
    Date.daysSince (e + 1) ⟨y + 1, m, day⟩ + marchDays e =
      marchDays y + daysBeforeMonth (y + 1) m + (day - 1) := by
  have hyears := sum_yearLength h
  simp only [Date.daysSince]
  omega

end Libcn.Lib.Gregorian
