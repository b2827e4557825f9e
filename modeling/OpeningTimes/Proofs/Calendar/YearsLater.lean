import OpeningTimes.Proofs.Calendar.Dates

/-!
# Whole years later

The same day of a later year exists as far as the calendar goes. It is as many days away as the
years between have, less one at most: a leap day may have gone by in the first year only, and 29
February becomes 28 February. A later date and more years never lead to an earlier day.
-/

namespace OpeningTimes

namespace Calendar

-- ---------------------------------------------------------------------------
-- The day of the month
-- ---------------------------------------------------------------------------

theorem daysBeforeMonth_monthOf_le (day : Int) :
    daysBeforeMonth (yearOf day) (monthOf day) ≤ dayOfYear day := by
  obtain ⟨hlow, hhigh⟩ := monthOf_bounds day
  exact (le_monthOfOrdinal_iff hlow hhigh (Nat.le_refl _)).mp (Nat.le_refl _)

theorem dayNumber_self (day : Int) :
    dayNumber (yearOf day) (monthOf day) (dayOfMonth day) = day := by
  have hstart := daysBeforeMonth_monthOf_le day
  have hday := dayOfYear_eq day
  unfold dayNumber dayOfMonth
  omega

theorem dayOfMonth_bounds (day : Int) :
    1 ≤ dayOfMonth day ∧ dayOfMonth day ≤ monthLength (yearOf day) (monthOf day) := by
  have hself := dayNumber_self day
  have hend := (lt_monthEnd_iff (monthOf_bounds day)).mpr (.inr ⟨rfl, Nat.le_refl _⟩)
  constructor
  · exact Nat.le_add_left ..
  · unfold dayNumber at hself hend
    omega

theorem month_bounds_of_le_monthLength {year : Int} {month : Nat} (h : 1 ≤ monthLength year month) :
    1 ≤ month ∧ month ≤ 12 := by
  unfold monthLength at h
  split at h <;> omega

theorem yearOf_dayNumber {year : Int} {month day : Nat} (hmonth : 1 ≤ month ∧ month ≤ 12)
    (hday : 1 ≤ day ∧ day ≤ monthLength year month) : yearOf (dayNumber year month day) = year := by
  have hend := daysBeforeMonth_add_monthLength_le year hmonth
  rw [yearOf_eq_iff, ← yearStart_add_yearLength]
  unfold dayNumber
  omega

theorem monthOf_dayNumber {year : Int} {month day : Nat} (hmonth : 1 ≤ month ∧ month ≤ 12)
    (hday : 1 ≤ day ∧ day ≤ monthLength year month) :
    monthOf (dayNumber year month day) = month := by
  have hyear := yearOf_dayNumber hmonth hday
  have hstart : dayNumber year month 1 ≤ dayNumber year month day ↔ _ := monthStart_le_iff hmonth
  have hend : dayNumber year month day < dayNumber year month 1 + monthLength year month ↔ _ :=
    lt_monthEnd_iff hmonth
  rw [hyear] at hstart hend
  unfold dayNumber at *
  omega

theorem dayOfMonth_dayNumber {year : Int} {month day : Nat} (hmonth : 1 ≤ month ∧ month ≤ 12)
    (hday : 1 ≤ day ∧ day ≤ monthLength year month) :
    dayOfMonth (dayNumber year month day) = day := by
  have hself := dayNumber_self (dayNumber year month day)
  rw [yearOf_dayNumber hmonth hday, monthOf_dayNumber hmonth hday] at hself
  generalize dayOfMonth (dayNumber year month day) = actual at *
  unfold dayNumber at hself
  omega

theorem daysBeforeMonth_add_monthLength_le_of_lt (year : Int) {a b : Nat} (ha : 1 ≤ a) (hab : a < b)
    (hb : b ≤ 12) : daysBeforeMonth year a + monthLength year a ≤ daysBeforeMonth year b := by
  rw [← daysBeforeMonth_succ year a ha (by omega)]
  exact daysBeforeMonth_mono year (by omega) hab hb

/-- The day of a year with the month and day of another one, the end of February where there is no
such day. -/
def dayInYear (day year : Int) : Int :=
  dayNumber year (monthOf day) (min (dayOfMonth day) (monthLength year (monthOf day)))

theorem dayInYear_mono {a b : Int} (hyear : yearOf a = yearOf b) (h : a ≤ b) (year : Int) :
    dayInYear a year ≤ dayInYear b year := by
  have hself := dayNumber_self a
  have hself' := dayNumber_self b
  have hday := (dayOfMonth_bounds a).1
  have hday' := (dayOfMonth_bounds b).1
  have hmonth : monthOf a ≤ monthOf b := by
    have hstart := (monthStart_le_iff (monthOf_bounds a)).mpr (.inr ⟨rfl, Nat.le_refl _⟩)
    have := (monthStart_le_iff (monthOf_bounds a)).mp (Int.le_trans hstart h)
    omega
  unfold dayInYear
  rcases Nat.lt_or_eq_of_le hmonth with hlt | heq
  · have hend := daysBeforeMonth_add_monthLength_le_of_lt year (monthOf_bounds a).1 hlt
      (monthOf_bounds b).2
    have hlength := le_monthLength year (monthOf_bounds b)
    unfold dayNumber
    omega
  · rw [hyear, heq] at hself
    rw [heq]
    unfold dayNumber at *
    omega

/-- A day of the year comes at most one day earlier in another year, also where it has to be moved
to the end of February. -/
theorem daysBefore_le_succ (a b : Int) {month day : Nat} (h : day ≤ monthLength a month) :
    daysBeforeMonth a month + day ≤
      daysBeforeMonth b month + min day (monthLength b month) + 1 := by
  cases ha : isLeap a <;> cases hb : isLeap b <;>
    simp only [daysBeforeMonth, monthLength, ha, hb, if_true, if_false,
      Bool.false_eq_true] at h ⊢ <;>
    split at h <;> simp only <;> omega

end Calendar

open Calendar

namespace Date

variable {d e : Date} {year : Int}

theorem hasYear (d : Date) : HasYear d.year := by
  have hlow : (-262143 : Int) ≤ d.year :=
    yearStart_le_iff.mp (show yearStart (-262143) ≤ _ from d.first_le)
  have hhigh : ¬ (262143 : Int) ≤ d.year := fun hle => by
    have hstart : yearStart 262143 ≤ d.number := yearStart_le_iff.mpr hle
    have hlast : yearStart 262143 = 95745765 := rfl
    have := d.le_last
    omega
  exact ⟨hlow, by omega⟩

theorem ofYearMonthDay?_eq_some_iff_parts {month day : Nat} :
    ofYearMonthDay? year month day = some d ↔ d.year = year ∧ d.month = month ∧ d.day = day := by
  rw [ofYearMonthDay?_eq_some_iff]
  constructor
  · rintro ⟨hday, hnumber⟩
    have hmonth := month_bounds_of_le_monthLength (Nat.le_trans hday.1 hday.2)
    unfold Date.year Date.month Date.day
    rw [hnumber]
    exact ⟨yearOf_dayNumber hmonth hday, monthOf_dayNumber hmonth hday,
      dayOfMonth_dayNumber hmonth hday⟩
  · rintro ⟨rfl, rfl, rfl⟩
    exact ⟨dayOfMonth_bounds d.number, (dayNumber_self d.number).symm⟩

theorem inYear?_number (h : d.inYear? year = some e) :
    e.number = dayNumber year d.month (min d.day (monthLength year d.month)) :=
  (ofYearMonthDay?_eq_some_iff.mp h).2

theorem year_of_inYear? (h : d.inYear? year = some e) : e.year = year := by
  obtain ⟨hday, hnumber⟩ := ofYearMonthDay?_eq_some_iff.mp h
  unfold Date.year
  rw [hnumber]
  exact yearOf_dayNumber (monthOf_bounds d.number) hday

theorem exists_inYear? (d : Date) (h : HasYear year) : ∃ e, d.inYear? year = some e := by
  have hmonth : 1 ≤ d.month ∧ d.month ≤ 12 := monthOf_bounds d.number
  have hday : 1 ≤ d.day := (dayOfMonth_bounds d.number).1
  have hlength := le_monthLength year hmonth
  exact exists_ofYearMonthDay? h hmonth (by omega)

theorem HasYear.of_later (d : Date) {n m : Nat} (h : HasYear (d.year + m)) (hle : n ≤ m) :
    HasYear (d.year + n) := by
  have hyear := d.hasYear
  unfold HasYear at *
  omega

theorem le_inYear? (h : d.inYear? year = some e) :
    d.number + (yearStart year - yearStart d.year) ≤ e.number + 1 := by
  have hself : dayNumber d.year d.month d.day = d.number := dayNumber_self d.number
  have hday : d.day ≤ monthLength d.year d.month := (dayOfMonth_bounds d.number).2
  have hshift := daysBefore_le_succ d.year year hday
  rw [inYear?_number h]
  unfold dayNumber at *
  omega

theorem le_yearsLater (d : Date) {n : Nat} (h : HasYear (d.year + n)) :
    d.number + (yearStart (d.year + n) - yearStart d.year) ≤ (d.yearsLater n).number + 1 := by
  obtain ⟨e, he⟩ := d.exists_inYear? h
  have hle := le_inYear? he
  rw [yearsLater, he]
  exact hle

-- ---------------------------------------------------------------------------
-- The order of dates
-- ---------------------------------------------------------------------------

theorem lt_of_year_lt (h : d.year < e.year) : d < e := by
  refine not_le.mp fun hle => ?_
  have hstart : yearStart e.year ≤ d.number := Int.le_trans (yearStart_yearOf_le e.number) hle
  have hyear : e.year ≤ d.year := yearStart_le_iff.mp hstart
  omega

theorem year_le_of_le (h : d ≤ e) : d.year ≤ e.year :=
  Int.not_lt.mp fun hlt => not_lt.mpr h (lt_of_year_lt hlt)

theorem inYear?_mono {a b : Date} {other : Int} (ha : d.inYear? year = some a)
    (hb : e.inYear? other = some b) (h : year < other ∨ year = other ∧ d.year = e.year ∧ d ≤ e) :
    a ≤ b := by
  rcases h with hlt | ⟨rfl, hsame, hde⟩
  · rw [← year_of_inYear? ha, ← year_of_inYear? hb] at hlt
    exact Int.le_of_lt (lt_of_year_lt hlt)
  · rw [le_iff, inYear?_number ha, inYear?_number hb]
    exact dayInYear_mono hsame hde year

theorem inYear?_self (d : Date) : d.inYear? d.year = some d := by
  have hday : 1 ≤ d.day ∧ d.day ≤ monthLength d.year d.month := dayOfMonth_bounds d.number
  unfold inYear?
  rw [Nat.min_eq_left hday.2]
  exact ofYearMonthDay?_eq_some_iff.mpr ⟨hday, (dayNumber_self d.number).symm⟩

theorem yearsLater_mono (hde : d ≤ e) {n m : Nat} (hnm : n ≤ m) :
    d.yearsLater n ≤ e.yearsLater m := by
  have hyear := year_le_of_le hde
  unfold yearsLater
  cases hb : e.inYear? (e.year + m) with
  | none => exact le_last _
  | some b =>
    have hlast := b.hasYear
    have hfirst := d.hasYear
    rw [year_of_inYear? hb] at hlast
    have hhas : HasYear (d.year + n) := by
      unfold HasYear at *
      omega
    obtain ⟨a, ha⟩ := d.exists_inYear? hhas
    rw [ha]
    exact inYear?_mono ha hb (by rw [le_iff] at *; omega)

theorem yearsEarlier_mono (d : Date) {n m : Nat} (hnm : n ≤ m) :
    d.yearsEarlier m ≤ d.yearsEarlier n := by
  unfold yearsEarlier
  cases ha : d.inYear? (d.year - m) with
  | none => exact first_le _
  | some a =>
    have hfirst := a.hasYear
    have hlast := d.hasYear
    rw [year_of_inYear? ha] at hfirst
    have hhas : HasYear (d.year - n) := by
      unfold HasYear at *
      omega
    obtain ⟨b, hb⟩ := d.exists_inYear? hhas
    rw [hb]
    exact inYear?_mono ha hb (by rw [le_iff]; omega)

theorem self_le_yearsLater (d : Date) (n : Nat) : d ≤ d.yearsLater n := by
  have hzero : d.yearsLater 0 = d := by
    simp only [yearsLater, Int.natCast_zero, Int.add_zero, inYear?_self, Option.getD_some]
  have hmono := yearsLater_mono (Std.le_refl d) (Nat.zero_le n)
  rwa [hzero] at hmono

end Date

end OpeningTimes
