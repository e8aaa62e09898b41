import CeIam.Library.Calendar
import CeIam.Model.Timestamps
import Mathlib.Tactic.IntervalCases

/-! # Dates and timestamps

The date of a day is computed from the first of March of the year 0, in eras of 400 years. -/

namespace CeIam.Timestamps

open Calendar Numerals Words

/-! ## Years of an era -/

/-- The days of an era before one of its years, which begins in March. -/
def daysBeforeYearOfEra (yoe : ℤ) : ℤ := 365 * yoe + yoe / 4 - yoe / 100

def yearOfEra (doe : ℤ) : ℤ := (doe - doe / 1460 + doe / 36524 - doe / 146096) / 365

section YearOfEra

variable {doe yoe : ℤ} (hlow : 0 ≤ doe) (hhigh : doe < 146097) (hyoe : yoe = yearOfEra doe)

include hlow hhigh hyoe

/-- The leap days that the formula takes off are those of the years before, or one more. -/
theorem leapDays_cases :
    (doe / 1460 = yoe / 4 ∨ doe / 1460 = yoe / 4 + 1) ∧
      (doe / 36524 = yoe / 100 ∨ doe / 36524 = yoe / 100 + 1) ∧
      (doe / 146096 = 0 ∨ doe / 146096 = 1) := by
  unfold yearOfEra at hyoe
  omega

theorem yearOfEra_bounds : 0 ≤ yoe ∧ yoe < 400 := by
  unfold yearOfEra at hyoe
  omega

theorem daysBeforeYearOfEra_le : daysBeforeYearOfEra yoe ≤ doe := by
  have hcases := leapDays_cases hlow hhigh hyoe
  unfold yearOfEra at hyoe
  unfold daysBeforeYearOfEra
  obtain ⟨hfour | hfour, hcentury | hcentury, hera | hera⟩ := hcases <;> omega

theorem dayOfYear_le : doe - daysBeforeYearOfEra yoe ≤ 365 := by
  have hcases := leapDays_cases hlow hhigh hyoe
  unfold yearOfEra at hyoe
  unfold daysBeforeYearOfEra
  obtain ⟨hfour | hfour, hcentury | hcentury, hera | hera⟩ := hcases <;> omega

theorem dayOfYear_bounds :
    0 ≤ doe - daysBeforeYearOfEra yoe ∧ doe - daysBeforeYearOfEra yoe ≤ 365 :=
  ⟨Int.sub_nonneg.mpr (daysBeforeYearOfEra_le hlow hhigh hyoe), dayOfYear_le hlow hhigh hyoe⟩

/-- Only a year that ends with the February of a leap year has 366 days. -/
theorem isLeap_of_dayOfYear (hday : doe - daysBeforeYearOfEra yoe = 365) : IsLeap (yoe + 1) := by
  have hcases := leapDays_cases hlow hhigh hyoe
  have hrest : yoe % 4 = 0 ∨ yoe % 4 = 1 ∨ yoe % 4 = 2 ∨ yoe % 4 = 3 := by omega
  unfold yearOfEra at hyoe
  unfold daysBeforeYearOfEra at hday
  have hfourth : (yoe + 1) % 4 = 0 := by
    obtain ⟨hfour | hfour, hcentury | hcentury, hera | hera⟩ := hcases <;>
      rcases hrest with h | h | h | h <;> omega
  refine ⟨hfourth, ?_⟩
  by_contra hcentennial
  have hhundred : (yoe + 1) % 100 = 0 := by omega
  have hfour_hundred : (yoe + 1) % 400 ≠ 0 := by omega
  obtain ⟨hfour | hfour, hcentury | hcentury, hera | hera⟩ := hcases <;> omega

end YearOfEra

/-! ## Months -/

theorem monthLength_march (y : ℤ) {mp : ℕ} (h : mp < 10) :
    (153 * mp + 2) / 5 + monthLength y (mp + 3) = (153 * (mp + 1) + 2) / 5 := by
  interval_cases mp <;> rfl

/-- The months from March on begin in fifths of 153 days. -/
theorem daysBeforeMonth_march (y : ℤ) {mp : ℕ} (h : mp < 10) :
    daysBeforeMonth y (mp + 3) = daysBeforeMonth y 3 + (153 * mp + 2) / 5 := by
  induction mp with
  | zero => rfl
  | succ mp ih =>
      rw [Nat.add_right_comm, daysBeforeMonth_succ y (by omega), ih (by omega), Nat.add_assoc,
        monthLength_march y (by omega)]

/-- The months from March on make up 306 days. -/
theorem daysBeforeMonth_thirteen_march (y : ℤ) :
    daysBeforeMonth y 13 = daysBeforeMonth y 3 + 306 := by
  rw [daysBeforeMonth_succ y (show 1 ≤ 12 by decide),
    daysBeforeMonth_march y (show 9 < 10 by decide), Nat.add_assoc]
  rfl

/-! ## The date of a day -/

/-- The date of a day of an era. -/
def civil (era doe : ℤ) : ℤ × UInt32 × UInt32 :=
  let yoe := yearOfEra doe
  let doy := doe - daysBeforeYearOfEra yoe
  let mp := (5 * doy + 2) / 153
  (if mp < 10 then yoe + era * 400 else yoe + era * 400 + 1,
    UInt32.ofInt (if mp < 10 then mp + 3 else mp - 9),
    UInt32.ofInt (doy - (153 * mp + 2) / 5 + 1))

/-- The fields of a date as the code has them. -/
def parts (d : Date) : ℤ × UInt32 × UInt32 := (d.year, .ofInt d.month, .ofInt d.day)

/-- The days of the years that end with the February of the year after `yoe`. -/
theorem daysBeforeYear_of_era {yoe : ℤ} (era : ℤ) (h : 0 ≤ yoe ∧ yoe < 400) :
    daysBeforeYear (yoe + era * 400 + 1) = era * 146097 + daysBeforeYearOfEra yoe := by
  unfold daysBeforeYear daysBeforeYearOfEra
  omega

theorem isLeap_add_era {y : ℤ} (era : ℤ) (h : IsLeap y) : IsLeap (y + era * 400) := by
  unfold IsLeap at h ⊢
  omega

/-- From March on, the day belongs to the year in which its era year begins. -/
theorem date_from_march {yoe : ℤ} {doy mp : ℕ} (era : ℤ) (hyoe : 0 ≤ yoe ∧ yoe < 400)
    (hmp : mp = (5 * doy + 2) / 153) (h : mp < 10) :
    ∃ d : Date, (d.year = yoe + era * 400 ∧ d.month = mp + 3 ∧
      d.day + (153 * mp + 2) / 5 = doy + 1) ∧
      d.dayNumber = era * 146097 + daysBeforeYearOfEra yoe + doy - 719468 := by
  have hlength := monthLength_march (yoe + era * 400) h
  have hmonth := daysBeforeMonth_march (yoe + era * 400) h
  have hyear := daysBeforeYear_succ (yoe + era * 400)
  rw [daysBeforeYear_of_era era hyoe, daysBeforeMonth_thirteen_march] at hyear
  refine ⟨⟨yoe + era * 400, mp + 3, doy + 1 - (153 * mp + 2) / 5, by omega, by omega⟩,
    ⟨rfl, rfl, ?_⟩, ?_⟩
  · change doy + 1 - (153 * mp + 2) / 5 + (153 * mp + 2) / 5 = doy + 1
    omega
  · unfold Date.dayNumber
    push_cast at hyear ⊢
    omega

/-- Before March, the day belongs to the year in which its era year ends. -/
theorem date_before_march {yoe : ℤ} {doy mp : ℕ} (era : ℤ) (hyoe : 0 ≤ yoe ∧ yoe < 400)
    (hmp : mp = (5 * doy + 2) / 153) (h : 10 ≤ mp) (hend : doy ≤ 365)
    (hleap : doy = 365 → IsLeap (yoe + 1)) :
    ∃ d : Date, (d.year = yoe + era * 400 + 1 ∧ d.month + 9 = mp ∧
      d.day + (153 * mp + 2) / 5 = doy + 1) ∧
      d.dayNumber = era * 146097 + daysBeforeYearOfEra yoe + doy - 719468 := by
  obtain ⟨y, hy⟩ : ∃ y, y = yoe + era * 400 + 1 := ⟨_, rfl⟩
  have hyear := daysBeforeYear_of_era era hyoe
  have hfebruary : 28 ≤ monthLength y 2 ∧ (doy = 365 → monthLength y 2 = 29) := by
    constructor
    · unfold monthLength
      split_ifs <;> decide
    · intro hlast
      refine if_pos ?_
      rw [hy, add_right_comm]
      exact isLeap_add_era era (hleap hlast)
  rw [← hy] at hyear ⊢
  have hmonths : mp = 10 ∨ mp = 11 := by omega
  rcases hmonths with rfl | rfl
  · refine ⟨⟨y, 1, doy + 1 - 306, by decide, by omega, ?_⟩, ⟨rfl, rfl, ?_⟩, ?_⟩
    · change doy + 1 - 306 ≤ 31
      omega
    · change doy + 1 - 306 + 306 = doy + 1
      omega
    · simp only [Date.dayNumber, daysBeforeMonth_one, hyear]
      omega
  · have hjanuary : daysBeforeMonth y 2 = 31 := rfl
    refine ⟨⟨y, 2, doy + 1 - 337, by decide, by omega, ?_⟩, ⟨rfl, rfl, ?_⟩, ?_⟩
    · omega
    · change doy + 1 - 337 + 337 = doy + 1
      omega
    · simp only [Date.dayNumber, hjanuary, hyear]
      omega

theorem civil_spec {doe : ℤ} (era : ℤ) (hlow : 0 ≤ doe) (hhigh : doe < 146097) :
    ∃ d : Date, civil era doe = parts d ∧ d.dayNumber = era * 146097 + doe - 719468 := by
  obtain ⟨yoe, hyoe⟩ : ∃ yoe, yoe = yearOfEra doe := ⟨_, rfl⟩
  have hyears := yearOfEra_bounds hlow hhigh hyoe
  have hbounds := dayOfYear_bounds hlow hhigh hyoe
  have hleap := isLeap_of_dayOfYear hlow hhigh hyoe
  obtain ⟨doy, hdoy⟩ : ∃ doy : ℕ, doe - daysBeforeYearOfEra yoe = doy :=
    ⟨(doe - daysBeforeYearOfEra yoe).toNat, (Int.toNat_of_nonneg hbounds.1).symm⟩
  obtain ⟨mp, hmp⟩ : ∃ mp, mp = (5 * doy + 2) / 153 := ⟨_, rfl⟩
  have hmp' : (5 * (doy : ℤ) + 2) / 153 = mp := by omega
  simp only [civil, ← hyoe, hdoy, hmp', parts]
  rw [hdoy] at hbounds hleap
  by_cases hmarch : mp < 10
  · obtain ⟨d, ⟨hy, hm, hd⟩, hnumber⟩ := date_from_march era hyears hmp hmarch
    have hcast : (mp : ℤ) < 10 := by omega
    refine ⟨d, ?_, by omega⟩
    rw [if_pos hcast, if_pos hcast, hy, hm, show (doy : ℤ) - (153 * mp + 2) / 5 + 1 = d.day by omega]
    rfl
  · obtain ⟨d, ⟨hy, hm, hd⟩, hnumber⟩ := date_before_march era hyears hmp (by omega) (by omega)
      fun h => hleap (by omega)
    have hcast : ¬ (mp : ℤ) < 10 := by omega
    refine ⟨d, ?_, by omega⟩
    rw [if_neg hcast, if_neg hcast, hy, show (mp : ℤ) - 9 = d.month by omega,
      show (doy : ℤ) - (153 * mp + 2) / 5 + 1 = d.day by omega]

/-! ## No step overflows -/

/-- The division of a negative day is shifted, so that it rounds down. -/
theorem tdiv_era (z : ℤ) : (if 0 ≤ z then z else z - 146096).tdiv 146097 = z / 146097 := by
  split_ifs with hsign
  · exact Int.tdiv_eq_ediv_of_nonneg hsign
  · rw [Int.tdiv_eq_ediv, show Int.sign 146097 = 1 from rfl]
    split_ifs with hexact <;> omega

theorem eraStart_eq {z : ℤ} (hlow : -2 ^ 63 + 146096 ≤ z) :
    (if 0 ≤ z then some z else checked (z - 146096)) = some (if 0 ≤ z then z else z - 146096) := by
  split_ifs with hsign
  · rfl
  · exact checked_eq rfl (by omega) (by omega)

theorem ofInt_le_two_iff {n : ℤ} (hlow : 0 ≤ n) (hhigh : n < 2 ^ 32) :
    UInt32.ofInt n ≤ 2 ↔ n ≤ 2 := by
  obtain ⟨k, rfl⟩ := Int.eq_ofNat_of_zero_le hlow
  rw [UInt32.le_iff_toNat_le, toNat_ofInt (by omega)]
  change k ≤ 2 ↔ (k : ℤ) ≤ 2
  omega

/-- No step overflows, but for the last days that a word can count. -/
theorem civilFromDays_eq {z : Int64} (h : z.toInt + 719468 < 2 ^ 63) :
    civilFromDays z = some (civil ((z.toInt + 719468) / 146097) ((z.toInt + 719468) % 146097)) := by
  have hlow := z.le_toInt
  obtain ⟨days, hdays⟩ : ∃ days, days = z.toInt + 719468 := ⟨_, rfl⟩
  obtain ⟨era, hera⟩ : ∃ era, era = days / 146097 := ⟨_, rfl⟩
  obtain ⟨doe, hdoe⟩ : ∃ doe, doe = days % 146097 := ⟨_, rfl⟩
  obtain ⟨yoe, hyoe⟩ : ∃ yoe, yoe = yearOfEra doe := ⟨_, rfl⟩
  obtain ⟨doy, hdoy⟩ : ∃ doy, doy = doe - daysBeforeYearOfEra yoe := ⟨_, rfl⟩
  obtain ⟨mp, hmp⟩ : ∃ mp, mp = (5 * doy + 2) / 153 := ⟨_, rfl⟩
  have hsum : days - era * 146097 = doe := by omega
  have hdoe' : 0 ≤ doe ∧ doe < 146097 := by omega
  have hera_bounds : -2 ^ 63 ≤ era * 146097 ∧ era * 146097 < 2 ^ 63 := by omega
  have hyears := yearOfEra_bounds hdoe'.1 hdoe'.2 hyoe
  have hdoy' : 0 ≤ doy ∧ doy ≤ 365 := hdoy ▸ dayOfYear_bounds hdoe'.1 hdoe'.2 hyoe
  have hmp' : 0 ≤ mp ∧ mp ≤ 11 := by omega
  -- Only the division by the length of an era can have a negative argument.
  have hera' := tdiv_era days
  have hyear : (doe - doe / 1460 + doe / 36524 - doe / 146096).tdiv 365 = yoe := by
    rw [Int.tdiv_eq_ediv_of_nonneg (by omega)]
    exact hyoe.symm
  have hmonth : (5 * doy + 2).tdiv 153 = mp := by
    rw [Int.tdiv_eq_ediv_of_nonneg (by omega)]
    exact hmp.symm
  have hmonthDays : (153 * mp + 2).tdiv 5 = (153 * mp + 2) / 5 :=
    Int.tdiv_eq_ediv_of_nonneg (by omega)
  rw [← hdays] at h ⊢
  rw [← hera] at hera'
  rw [← hera, ← hdoe, civilFromDays, ← hdays]
  have hlow' : -2 ^ 63 + 146096 ≤ days := by omega
  have hrest : doe - (365 * yoe + yoe / 4 - yoe / 100) = doy := hdoy.symm
  have hcivil : civil era doe = (if mp < 10 then yoe + era * 400 else yoe + era * 400 + 1,
      UInt32.ofInt (if mp < 10 then mp + 3 else mp - 9),
      UInt32.ofInt (doy - (153 * mp + 2) / 5 + 1)) := by
    simp only [civil, ← hyoe, ← hdoy, ← hmp]
  rw [hcivil]
  -- From here on the bounds are all that matters.
  clear hcivil hlow hdays hera hdoe hyoe hdoy hmp
  -- The day of the era.
  refine checked_bind rfl (by omega) h ?_
  refine Option.bind_eq_some_iff.mpr ⟨_, eraStart_eq (by omega), ?_⟩
  rw [hera']
  refine checked_bind rfl (by omega) (by omega) ?_
  refine checked_bind hsum (by omega) (by omega) ?_
  -- The year of the era.
  simp only [Int.tdiv_eq_ediv_of_nonneg hdoe'.1]
  iterate 3 refine checked_bind rfl (by omega) (by omega) ?_
  rw [hyear]
  iterate 2 refine checked_bind rfl (by omega) (by omega) ?_
  -- The day of the year.
  simp only [Int.tdiv_eq_ediv_of_nonneg hyears.1]
  iterate 3 refine checked_bind rfl (by omega) (by omega) ?_
  refine checked_bind hrest (by omega) (by omega) ?_
  -- The month, and the day of it.
  iterate 2 refine checked_bind rfl (by omega) (by omega) ?_
  rw [hmonth]
  iterate 2 refine checked_bind rfl (by omega) (by omega) ?_
  rw [hmonthDays]
  iterate 2 refine checked_bind rfl (by omega) (by omega) ?_
  by_cases hmarch : mp < 10
  · have hlater : ¬ UInt32.ofInt (mp + 3) ≤ 2 := by
      rw [ofInt_le_two_iff (by omega) (by omega)]
      omega
    rw [if_pos hmarch, if_pos hmarch, if_pos hmarch]
    refine checked_bind rfl (by omega) (by omega) ?_
    exact Option.bind_eq_some_iff.mpr ⟨_, if_neg hlater, rfl⟩
  · have hearlier : UInt32.ofInt (mp - 9) ≤ 2 := by
      rw [ofInt_le_two_iff (by omega) (by omega)]
      omega
    rw [if_neg hmarch, if_neg hmarch, if_neg hmarch]
    refine checked_bind rfl (by omega) (by omega) ?_
    have hnext := checked_eq (n := yoe + era * 400 + 1) rfl (by omega) (by omega)
    exact Option.bind_eq_some_iff.mpr ⟨_, (if_pos hearlier).trans hnext, rfl⟩

theorem civilFromDays_spec {z : Int64} (h : z.toInt + 719468 < 2 ^ 63) :
    ∃ d : Date, civilFromDays z = some (parts d) ∧ d.dayNumber = z.toInt := by
  have hlow : 0 ≤ (z.toInt + 719468) % 146097 := by omega
  have hhigh : (z.toInt + 719468) % 146097 < 146097 := by omega
  obtain ⟨d, hd, hnumber⟩ := civil_spec ((z.toInt + 719468) / 146097) hlow hhigh
  exact ⟨d, by rw [civilFromDays_eq h, hd], by omega⟩

/-! ## Instants -/

/-- The day of an instant. -/
def dayOf (ms : UInt64) : Int64 := (ms / 1000 / 86400).toInt64

theorem toInt_dayOf (ms : UInt64) : (dayOf ms).toInt = (ms.toNat / 86400000 : ℕ) := by
  have hlt := ms.toNat_lt
  have hday : (ms / 1000 / 86400).toNat = ms.toNat / 86400000 := by
    rw [UInt64.toNat_div, UInt64.toNat_div]
    exact Nat.div_div_eq_div_mul ..
  rw [dayOf, toInt_toInt64, hday, if_pos (by omega)]

theorem toInt_dayOf_succ (ms : UInt64) : (dayOf ms + 1).toInt = (dayOf ms).toInt + 1 := by
  have hlt := ms.toNat_lt
  have hone : (1 : Int64).toInt = 1 := rfl
  rw [Int64.toInt_add, hone]
  exact Int.bmod_eq_of_le (by rw [toInt_dayOf]; omega) (by rw [toInt_dayOf]; omega)

/-- The numbers in the text of an instant. -/
def numbers (d : Date) (n : ℕ) : List ℕ :=
  [d.year.toNat, d.month, d.day, n % 86400000 / 3600000, n % 3600000 / 60000, n % 60000 / 1000,
    n % 1000]

def isoLayout : List (ℕ × Char) :=
  [(4, '-'), (2, '-'), (2, 'T'), (2, ':'), (2, ':'), (2, '.'), (3, 'Z')]

theorem year_of_dayNumber {d : Date} (h : 0 ≤ d.dayNumber) : 1970 ≤ d.year := by
  by_contra hyear
  have hbefore : Date.Before d .epoch := .inl (not_le.mp hyear)
  have hlt := Date.dayNumber_lt_iff.mpr hbefore
  rw [Date.dayNumber_epoch] at hlt
  omega

/-- Every instant has a text, of the date of its day and the time on it. -/
theorem isoFromUnixMs_eq (ms : UInt64) : ∃ d : Date,
    civilFromDays (dayOf ms) = some (parts d) ∧ d.dayNumber = (ms.toNat / 86400000 : ℕ) ∧
      isoFromUnixMs ms = some (String.ofList (fields isoLayout (numbers d ms.toNat))) := by
  have hlt := ms.toNat_lt
  obtain ⟨d, hd, hnumber⟩ := civilFromDays_spec (z := dayOf ms) (by rw [toInt_dayOf]; omega)
  rw [toInt_dayOf] at hnumber
  have hyear := year_of_dayNumber (d := d) (by omega)
  have hday := d.day_le
  have hm : (UInt32.ofInt d.month).toNat = d.month := toNat_ofInt (by have := d.month_valid; omega)
  have hd' : (UInt32.ofInt d.day).toNat = d.day := toNat_ofInt (by omega)
  have hhour : (ms / 1000 % 86400 / 3600).toNat = ms.toNat % 86400000 / 3600000 := by
    simp only [UInt64.toNat_div, UInt64.toNat_mod, UInt64.reduceToNat]
    omega
  have hminute : (ms / 1000 % 86400 % 3600 / 60).toNat = ms.toNat % 3600000 / 60000 := by
    simp only [UInt64.toNat_div, UInt64.toNat_mod, UInt64.reduceToNat]
    omega
  have hsecond : (ms / 1000 % 86400 % 60).toNat = ms.toNat % 60000 / 1000 := by
    simp only [UInt64.toNat_div, UInt64.toNat_mod, UInt64.reduceToNat]
    omega
  have hmilli : (ms % 1000).toNat = ms.toNat % 1000 := UInt64.toNat_mod ..
  refine ⟨d, hd, hnumber, ?_⟩
  refine Option.bind_eq_some_iff.mpr ⟨parts d, hd, congrArg some (String.toList_inj.mp ?_)⟩
  rw [paddedInt_of_nonneg 4 (show 0 ≤ d.year by omega), hm, hd', hhour, hminute, hsecond, hmilli]
  simp only [String.toList_append, toList_padded, String.toList_ofList, List.append_assoc]
  rfl

/-! ## Injective and ordered -/

/-- Instants are ordered by their day and then by the time on it. -/
theorem lt_iff_day_time (n n' : ℕ) : n < n' ↔ n / 86400000 < n' / 86400000 ∨
    n / 86400000 = n' / 86400000 ∧ (n % 86400000 / 3600000 < n' % 86400000 / 3600000 ∨
      n % 86400000 / 3600000 = n' % 86400000 / 3600000 ∧
        (n % 3600000 / 60000 < n' % 3600000 / 60000 ∨
          n % 3600000 / 60000 = n' % 3600000 / 60000 ∧
            (n % 60000 / 1000 < n' % 60000 / 1000 ∨
              n % 60000 / 1000 = n' % 60000 / 1000 ∧ n % 1000 < n' % 1000))) := by
  omega

theorem numbers_lt_iff {d d' : Date} {n n' : ℕ} (hd : d.dayNumber = (n / 86400000 : ℕ))
    (hd' : d'.dayNumber = (n' / 86400000 : ℕ)) : numbers d n < numbers d' n' ↔ n < n' := by
  have hyear := year_of_dayNumber (d := d) (by omega)
  have hyear' := year_of_dayNumber (d := d') (by omega)
  have hyear_lt : d.year.toNat < d'.year.toNat ↔ d.year < d'.year := by omega
  have hyear_eq : d.year.toNat = d'.year.toNat ↔ d.year = d'.year := by omega
  have hbefore : n / 86400000 < n' / 86400000 ↔ Date.Before d d' := by
    rw [← Date.dayNumber_lt_iff, hd, hd', Nat.cast_lt]
  have hsame : n / 86400000 = n' / 86400000 ↔ d = d' := by
    rw [← Date.dayNumber_injective.eq_iff, hd, hd', Nat.cast_inj]
  rw [lt_iff_day_time n n', hbefore, hsame, Date.ext_iff, Date.Before]
  simp only [numbers, List.cons_lt_cons_iff, List.not_lt_nil, and_false, or_false, hyear_lt,
    hyear_eq, and_or_left, or_assoc, and_assoc]

theorem numbers_inj {d d' : Date} {n n' : ℕ} (hd : d.dayNumber = (n / 86400000 : ℕ))
    (hd' : d'.dayNumber = (n' / 86400000 : ℕ)) (h : numbers d n = numbers d' n') : n = n' := by
  have hlt := numbers_lt_iff hd hd'
  have hgt := numbers_lt_iff hd' hd
  rw [h] at hlt hgt
  have hirrefl : ¬ numbers d' n' < numbers d' n' := List.lt_irrefl _
  exact Nat.le_antisymm (not_lt.mp (hgt.not.mp hirrefl)) (not_lt.mp (hlt.not.mp hirrefl))

/-- The text of an instant fits its layout as long as the year has four digits. -/
theorem numbers_fit {d : Date} {n : ℕ} (hlow : 0 ≤ d.year) (hhigh : d.year ≤ 9999) :
    Fits isoLayout (numbers d n) := by
  have hmonth := d.month_valid
  have hday := d.day_le
  refine .cons ⟨by decide, ?_⟩ (.cons ⟨by decide, ?_⟩ (.cons ⟨by decide, ?_⟩
    (.cons ⟨by decide, ?_⟩ (.cons ⟨by decide, ?_⟩ (.cons ⟨by decide, ?_⟩
      (.cons ⟨by decide, ?_⟩ .nil))))))
  all_goals
    norm_num
    omega

/-- Every instant has a valid date that counts its day, the day after has the next date, and no
step overflows. The text of an instant is of no other one, and while years have four digits the
texts are ordered like the instants. -/
theorem timestamps_exact :
    (∀ ms : UInt64, ∃ d : Date, civilFromDays (dayOf ms) = some (parts d) ∧
      d.dayNumber = (dayOf ms).toInt ∧ civilFromDays (dayOf ms + 1) = some (parts d.next)) ∧
    (∀ ms : UInt64, ∃ text, isoFromUnixMs ms = some text ∧
      ∀ ms', isoFromUnixMs ms' = some text → ms' = ms) ∧
    ∀ (ms ms' : UInt64) (y y' : ℤ) (m m' d d' : UInt32) (text text' : String),
      civilFromDays (dayOf ms) = some (y, m, d) → civilFromDays (dayOf ms') = some (y', m', d') →
      y ≤ 9999 → y' ≤ 9999 → isoFromUnixMs ms = some text → isoFromUnixMs ms' = some text' →
      (text < text' ↔ ms < ms') := by
  refine ⟨?_, ?_, ?_⟩
  · intro ms
    have hlt := ms.toNat_lt
    obtain ⟨d, hd, hnumber⟩ := civilFromDays_spec (z := dayOf ms) (by rw [toInt_dayOf]; omega)
    obtain ⟨e, he, hnext⟩ := civilFromDays_spec (z := dayOf ms + 1)
      (by rw [toInt_dayOf_succ, toInt_dayOf]; omega)
    have hnext' : e = d.next := Date.dayNumber_injective (by
      rw [hnext, Date.dayNumber_next, hnumber, toInt_dayOf_succ])
    exact ⟨d, hd, hnumber, hnext' ▸ he⟩
  · intro ms
    obtain ⟨d, -, hnumber, htext⟩ := isoFromUnixMs_eq ms
    refine ⟨_, htext, fun ms' h => ?_⟩
    obtain ⟨d', -, hnumber', htext'⟩ := isoFromUnixMs_eq ms'
    have hfields := String.ofList_injective (Option.some.inj (htext'.symm.trans h))
    exact UInt64.toNat_inj.mp
      (numbers_inj hnumber' hnumber (fields_inj (by decide) rfl rfl hfields))
  · intro ms ms' y y' m m' day day' text text' hcivil hcivil' hy hy' htext htext'
    obtain ⟨d, hd, hnumber, heq⟩ := isoFromUnixMs_eq ms
    obtain ⟨d', hd', hnumber', heq'⟩ := isoFromUnixMs_eq ms'
    cases htext.symm.trans heq
    cases htext'.symm.trans heq'
    cases hcivil.symm.trans hd
    cases hcivil'.symm.trans hd'
    have hyear := year_of_dayNumber (d := d) (by omega)
    have hyear' := year_of_dayNumber (d := d') (by omega)
    rw [String.lt_iff_toList_lt, String.toList_ofList, String.toList_ofList,
      fields_lt_iff (numbers_fit (by omega) hy) (numbers_fit (by omega) hy'),
      numbers_lt_iff hnumber hnumber', UInt64.lt_iff_toNat_lt]

end CeIam.Timestamps
