import Mathlib.Algebra.BigOperators.Intervals
import Mathlib.Algebra.Order.BigOperators.Group.Finset
import Mathlib.Data.Int.ConditionallyCompleteOrder
import Mathlib.Order.SuccPred.IntervalSucc

/-! # The proleptic Gregorian calendar

Dates are valid by construction. They are counted in days from the first one of 1970, and the
count orders them. -/

namespace CeIam.Calendar

/-! ## Years and months -/

/-- Every fourth year, and of the centuries every fourth one. -/
def IsLeap (y : ℤ) : Prop := y % 4 = 0 ∧ (y % 100 ≠ 0 ∨ y % 400 = 0)

instance (y : ℤ) : Decidable (IsLeap y) := inferInstanceAs (Decidable (_ ∧ _))

def monthLength (y : ℤ) : ℕ → ℕ
  | 2 => if IsLeap y then 29 else 28
  | 4 => 30
  | 6 => 30
  | 9 => 30
  | 11 => 30
  | _ => 31

theorem monthLength_pos (y : ℤ) (m : ℕ) : 1 ≤ monthLength y m := by
  unfold monthLength
  split
  · split_ifs <;> decide
  all_goals decide

theorem monthLength_le (y : ℤ) (m : ℕ) : monthLength y m ≤ 31 := by
  unfold monthLength
  split
  · split_ifs <;> decide
  all_goals decide

/-- The days of a year before its month `m`. -/
def daysBeforeMonth (y : ℤ) (m : ℕ) : ℕ := ∑ k ∈ Finset.Ico 1 m, monthLength y k

/-- The days of all years from the first one on that come before the year `y`. -/
def daysBeforeYear (y : ℤ) : ℤ :=
  365 * (y - 1) + (y - 1) / 4 - (y - 1) / 100 + (y - 1) / 400

@[simp] theorem daysBeforeMonth_one (y : ℤ) : daysBeforeMonth y 1 = 0 := by
  simp [daysBeforeMonth]

theorem daysBeforeMonth_succ (y : ℤ) {m : ℕ} (h : 1 ≤ m) :
    daysBeforeMonth y (m + 1) = daysBeforeMonth y m + monthLength y m :=
  Finset.sum_Ico_succ_top h _

theorem daysBeforeMonth_mono (y : ℤ) {m n : ℕ} (h : m ≤ n) :
    daysBeforeMonth y m ≤ daysBeforeMonth y n :=
  Finset.sum_le_sum_of_subset (Finset.Ico_subset_Ico_right h)

theorem daysBeforeMonth_thirteen (y : ℤ) :
    daysBeforeMonth y 13 = if IsLeap y then 366 else 365 := by
  simp only [daysBeforeMonth, Finset.sum_Ico_succ_top, Nat.reduceLeDiff, monthLength,
    Finset.Ico_self, Finset.sum_empty]
  split_ifs <;> rfl

/-- The months of a year make up its length. -/
theorem daysBeforeYear_succ (y : ℤ) :
    daysBeforeYear (y + 1) = daysBeforeYear y + daysBeforeMonth y 13 := by
  rw [daysBeforeMonth_thirteen]
  unfold daysBeforeYear
  split_ifs with hleap <;> unfold IsLeap at hleap <;> push_cast <;> omega

theorem daysBeforeYear_mono : Monotone daysBeforeYear :=
  monotone_int_of_le_succ fun y => by
    rw [daysBeforeYear_succ]
    exact Int.le_add_of_nonneg_right (Int.natCast_nonneg _)

/-! ## Dates -/

@[ext] structure Date where
  year : ℤ
  month : ℕ
  day : ℕ
  month_valid : 1 ≤ month ∧ month ≤ 12
  day_valid : 1 ≤ day ∧ day ≤ monthLength year month

namespace Date

/-- The first day of 1970. -/
def epoch : Date := ⟨1970, 1, 1, by decide, by decide⟩

theorem day_le (d : Date) : d.day ≤ 31 := d.day_valid.2.trans (monthLength_le _ _)

/-- The day after. -/
def next (d : Date) : Date :=
  if hday : d.day < monthLength d.year d.month then
    ⟨d.year, d.month, d.day + 1, d.month_valid, by omega, hday⟩
  else if hmonth : d.month < 12 then
    ⟨d.year, d.month + 1, 1, by omega, le_rfl, monthLength_pos _ _⟩
  else ⟨d.year + 1, 1, 1, by decide, le_rfl, monthLength_pos _ _⟩

/-- The days from the first one of 1970 to a date. -/
def dayNumber (d : Date) : ℤ :=
  daysBeforeYear d.year + daysBeforeMonth d.year d.month + d.day - 719163

theorem dayNumber_epoch : epoch.dayNumber = 0 := by
  simp [dayNumber, epoch, daysBeforeYear]

/-- The day after has the next number. -/
theorem dayNumber_next (d : Date) : d.next.dayNumber = d.dayNumber + 1 := by
  obtain ⟨year, month, day, hmonth, hday⟩ := d
  simp only [next, dayNumber]
  split_ifs with hlast hdecember
  · push_cast
    omega
  · rw [daysBeforeMonth_succ year hmonth.1]
    push_cast
    omega
  · have htwelve : month = 12 := by omega
    subst htwelve
    rw [daysBeforeMonth_one, daysBeforeYear_succ, daysBeforeMonth_succ year hmonth.1]
    push_cast
    omega

/-- Dates are ordered by year, month and day. -/
def Before (d e : Date) : Prop :=
  d.year < e.year ∨ d.year = e.year ∧ (d.month < e.month ∨ d.month = e.month ∧ d.day < e.day)

/-- A date comes before the end of its month. -/
theorem dayOfYear_le (d : Date) :
    daysBeforeMonth d.year d.month + d.day ≤ daysBeforeMonth d.year (d.month + 1) := by
  rw [daysBeforeMonth_succ d.year d.month_valid.1]
  exact Nat.add_le_add_left d.day_valid.2 _

theorem dayNumber_lt_of_before {d e : Date} (h : Before d e) : d.dayNumber < e.dayNumber := by
  have hd := dayOfYear_le d
  have he := e.day_valid.1
  unfold dayNumber
  rcases h with hyear | ⟨hyear, hmonth | ⟨hmonth, hday⟩⟩
  · have hend : daysBeforeMonth d.year (d.month + 1) ≤ daysBeforeMonth d.year 13 :=
      daysBeforeMonth_mono d.year (Nat.succ_le_succ d.month_valid.2)
    have hyears := daysBeforeYear_mono (Int.add_one_le_of_lt hyear)
    rw [daysBeforeYear_succ] at hyears
    omega
  · have hend : daysBeforeMonth d.year (d.month + 1) ≤ daysBeforeMonth d.year e.month :=
      daysBeforeMonth_mono d.year hmonth
    rw [← hyear]
    omega
  · rw [← hyear, ← hmonth]
    omega

theorem before_or_eq (d e : Date) : Before d e ∨ d = e ∨ Before e d := by
  obtain ⟨year, month, day, hmonth, hday⟩ := d
  obtain ⟨year', month', day', hmonth', hday'⟩ := e
  simp only [Before, mk.injEq]
  omega

theorem dayNumber_lt_iff {d e : Date} : d.dayNumber < e.dayNumber ↔ Before d e := by
  constructor
  · intro h
    rcases before_or_eq d e with hlt | rfl | hgt
    · exact hlt
    · exact absurd h (lt_irrefl _)
    · exact absurd (dayNumber_lt_of_before hgt) h.asymm
  · exact dayNumber_lt_of_before

theorem dayNumber_injective : Function.Injective dayNumber := by
  intro d e h
  rcases before_or_eq d e with hlt | heq | hgt
  · exact absurd h (dayNumber_lt_of_before hlt).ne
  · exact heq
  · exact absurd h.symm (dayNumber_lt_of_before hgt).ne

end Date

end CeIam.Calendar
