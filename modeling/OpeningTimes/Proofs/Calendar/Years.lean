import OpeningTimes.Calendar.Civil

/-!
# Days, months and years

The month and the day of the month depend on the day of the year and on whether the year has a leap
day. Months start in the order of years and months, and the whole calendar comes round after 400
years.
-/

namespace OpeningTimes.Calendar

-- ---------------------------------------------------------------------------
-- The days of a year
-- ---------------------------------------------------------------------------

theorem isLeap_iff (year : Int) :
    isLeap year = true ↔ year % 4 = 0 ∧ (year % 100 ≠ 0 ∨ year % 400 = 0) := by
  unfold isLeap
  simp only [Bool.or_eq_true, Bool.and_eq_true, beq_iff_eq, bne_iff_ne]
  omega

def yearLength (year : Int) : Nat := if isLeap year then 366 else 365

theorem yearStart_add_yearLength (year : Int) :
    yearStart year + yearLength year = yearStart (year + 1) := by
  rw [yearStart_succ, yearLength]
  split <;> rfl

theorem yearStart_lt {a b : Int} (h : a < b) : yearStart a + 365 ≤ yearStart b := by
  unfold yearStart; omega

theorem dayOfYear_eq (day : Int) : (dayOfYear day : Int) = day - yearStart (yearOf day) := by
  have := yearStart_yearOf_le day
  unfold dayOfYear
  omega

theorem dayOfYear_lt (day : Int) : dayOfYear day < yearLength (yearOf day) := by
  have := lt_yearStart_succ_yearOf day
  have := yearStart_add_yearLength (yearOf day)
  have := dayOfYear_eq day
  omega

theorem yearOf_of_ordinal {year : Int} {ordinal : Nat} (h : ordinal < yearLength year) :
    yearOf (yearStart year + ordinal) = year := by
  rw [yearOf_eq_iff, ← yearStart_add_yearLength]
  omega

theorem dayOfYear_of_ordinal {year : Int} {ordinal : Nat} (h : ordinal < yearLength year) :
    dayOfYear (yearStart year + ordinal) = ordinal := by
  unfold dayOfYear
  rw [yearOf_of_ordinal h]
  omega

theorem yearStart_le_iff {year day : Int} : yearStart year ≤ day ↔ year ≤ yearOf day := by
  constructor
  · intro h
    refine Int.not_lt.mp fun hlt => ?_
    have := yearStart_mono (show yearOf day + 1 ≤ year from hlt)
    have := lt_yearStart_succ_yearOf day
    omega
  · intro h
    exact Int.le_trans (yearStart_mono h) (yearStart_yearOf_le day)

-- ---------------------------------------------------------------------------
-- The months of a year
-- ---------------------------------------------------------------------------

theorem daysBeforeMonth_congr {a b : Int} (h : isLeap a = isLeap b) (month : Nat) :
    daysBeforeMonth a month = daysBeforeMonth b month := by
  unfold daysBeforeMonth
  rw [h]

theorem monthLength_congr {a b : Int} (h : isLeap a = isLeap b) (month : Nat) :
    monthLength a month = monthLength b month := by
  unfold monthLength
  rw [h]

theorem le_monthLength (year : Int) {month : Nat} (hmonth : 1 ≤ month ∧ month ≤ 12) :
    28 ≤ monthLength year month := by
  have hshort : 28 ≤ if isLeap year then 29 else 28 := by split <;> decide
  unfold monthLength
  split <;> grind

theorem monthLength_le (year : Int) (month : Nat) : monthLength year month ≤ 31 := by
  unfold monthLength
  split <;> grind

theorem monthOfOrdinal_congr {a b : Int} (h : isLeap a = isLeap b) (ordinal month : Nat) :
    monthOfOrdinal a ordinal month = monthOfOrdinal b ordinal month := by
  induction month with
  | zero => rfl
  | succ month ih => simp only [monthOfOrdinal, daysBeforeMonth_congr h, ih]

theorem monthOf_congr {a b : Int} (hyear : isLeap (yearOf a) = isLeap (yearOf b))
    (hday : dayOfYear a = dayOfYear b) : monthOf a = monthOf b := by
  unfold monthOf
  rw [hday, monthOfOrdinal_congr hyear]

theorem dayOfMonth_congr {a b : Int} (hyear : isLeap (yearOf a) = isLeap (yearOf b))
    (hday : dayOfYear a = dayOfYear b) : dayOfMonth a = dayOfMonth b := by
  unfold dayOfMonth
  rw [hday, monthOf_congr hyear hday, daysBeforeMonth_congr hyear]

theorem daysBeforeMonth_le (year : Int) (month : Nat) : daysBeforeMonth year month ≤ 335 := by
  have : (if isLeap year then 1 else 0) ≤ 1 := by split <;> decide
  unfold daysBeforeMonth
  simp only
  split <;> omega

theorem daysBeforeMonth_december (year : Int) : daysBeforeMonth year 12 + 31 = yearLength year := by
  unfold daysBeforeMonth yearLength
  cases isLeap year <;> rfl

theorem daysBeforeMonth_mono (year : Int) {a b : Nat} (ha : 1 ≤ a) (hab : a ≤ b) (hb : b ≤ 12) :
    daysBeforeMonth year a ≤ daysBeforeMonth year b := by
  induction b with
  | zero => omega
  | succ b ih =>
    rcases Nat.lt_or_eq_of_le hab with hlt | rfl
    · rw [daysBeforeMonth_succ year b (by omega) (by omega)]
      exact Nat.le_trans (ih (by omega) (by omega)) (Nat.le_add_right ..)
    · exact Nat.le_refl _

theorem daysBeforeMonth_add_monthLength_le (year : Int) {month : Nat}
    (hmonth : 1 ≤ month ∧ month ≤ 12) :
    daysBeforeMonth year month + monthLength year month ≤ yearLength year := by
  rcases Nat.lt_or_eq_of_le hmonth.2 with hlt | rfl
  · have := daysBeforeMonth_le year (month + 1)
    have := daysBeforeMonth_succ year month hmonth.1 hlt
    unfold yearLength
    split <;> omega
  · exact Nat.le_of_eq (daysBeforeMonth_december year)

theorem monthOfOrdinal_bounds (year : Int) (ordinal month : Nat) :
    1 ≤ monthOfOrdinal year ordinal month ∧ monthOfOrdinal year ordinal month ≤ max 1 month := by
  induction month with
  | zero => simp [monthOfOrdinal]
  | succ month ih =>
    simp only [monthOfOrdinal]
    split <;> omega

theorem monthOf_bounds (day : Int) : 1 ≤ monthOf day ∧ monthOf day ≤ 12 :=
  monthOfOrdinal_bounds ..

theorem le_monthOfOrdinal_iff {year : Int} {ordinal a month : Nat} (ha : 1 ≤ a) (hle : a ≤ month)
    (hmonth : month ≤ 12) :
    a ≤ monthOfOrdinal year ordinal month ↔ daysBeforeMonth year a ≤ ordinal := by
  induction month with
  | zero => omega
  | succ month ih =>
    simp only [monthOfOrdinal]
    split
    · have := daysBeforeMonth_mono year ha hle hmonth
      constructor <;> intro <;> omega
    · rename_i hlater
      rcases Nat.lt_or_eq_of_le hle with hlt | rfl
      · exact ih (by omega) (by omega)
      · -- the first month has always started, so that there is one before this one
        have hpos : month ≠ 0 := by
          rintro rfl
          exact hlater (Nat.zero_le _)
        have := (monthOfOrdinal_bounds year ordinal month).2
        constructor <;> intro <;> omega

theorem monthStart_le_iff {year day : Int} {month : Nat} (hmonth : 1 ≤ month ∧ month ≤ 12) :
    dayNumber year month 1 ≤ day ↔
      year < yearOf day ∨ year = yearOf day ∧ month ≤ monthOf day := by
  have hstart := daysBeforeMonth_le year month
  unfold dayNumber
  rcases Int.lt_trichotomy year (yearOf day) with hlt | rfl | hgt
  · have := yearStart_lt hlt
    have := yearStart_yearOf_le day
    omega
  · have hle : month ≤ monthOf day ↔ _ := le_monthOfOrdinal_iff hmonth.1 hmonth.2 (Nat.le_refl _)
    have := dayOfYear_eq day
    omega
  · have := yearStart_mono (show yearOf day + 1 ≤ year from hgt)
    have := lt_yearStart_succ_yearOf day
    omega

theorem lt_monthEnd_iff {year day : Int} {month : Nat} (hmonth : 1 ≤ month ∧ month ≤ 12) :
    day < dayNumber year month 1 + monthLength year month ↔
      yearOf day < year ∨ yearOf day = year ∧ monthOf day ≤ month := by
  rcases Nat.lt_or_eq_of_le hmonth.2 with hlt | rfl
  · have hnext : dayNumber year month 1 + monthLength year month =
        dayNumber year (month + 1) 1 := by
      have := daysBeforeMonth_succ year month hmonth.1 hlt
      unfold dayNumber
      omega
    have hiff : dayNumber year (month + 1) 1 ≤ day ↔ _ := monthStart_le_iff ⟨by omega, hlt⟩
    rw [hnext]
    omega
  · have hnext : dayNumber year 12 1 + monthLength year 12 = yearStart (year + 1) := by
      have := daysBeforeMonth_december year
      rw [← yearStart_add_yearLength, dayNumber, monthLength]
      omega
    have hiff : yearStart (year + 1) ≤ day ↔ _ := yearStart_le_iff
    have := (monthOf_bounds day).2
    rw [hnext]
    omega

theorem monthOf_yearStart_sub_one (year : Int) :
    monthOf (yearStart year - 1) = 12 ∧ dayOfMonth (yearStart year - 1) = 31 := by
  have hyear : yearOf (yearStart year - 1) = year - 1 := by
    have hlt := yearStart_lt (show year - 1 < year by omega)
    rw [yearOf_eq_iff, show year - 1 + 1 = year by omega]
    omega
  have hday := dayOfYear_eq (yearStart year - 1)
  have hlast := yearStart_add_yearLength (year - 1)
  rw [show year - 1 + 1 = year by omega] at hlast
  rw [hyear] at hday
  have hmonth : monthOf (yearStart year - 1) = 12 := by
    have hle : 12 ≤ monthOf (yearStart year - 1) ↔ _ :=
      le_monthOfOrdinal_iff (by decide) (Nat.le_refl _) (Nat.le_refl _)
    have := (monthOf_bounds (yearStart year - 1)).2
    rw [hyear] at hle
    unfold yearLength at hlast
    unfold daysBeforeMonth at hle
    cases hleap : isLeap (year - 1) <;> simp [hleap] at hlast hle <;> omega
  refine ⟨hmonth, ?_⟩
  unfold dayOfMonth daysBeforeMonth
  rw [hmonth, hyear]
  unfold yearLength at hlast
  cases hleap : isLeap (year - 1) <;> simp [hleap] at hlast ⊢ <;> omega

theorem monthDay_of_ordinal {a b : Int} (hleap : isLeap a = isLeap b) {ordinal : Nat}
    (h : ordinal < yearLength a) :
    monthOf (yearStart a + ordinal) = monthOf (yearStart b + ordinal) ∧
      dayOfMonth (yearStart a + ordinal) = dayOfMonth (yearStart b + ordinal) := by
  have hb : ordinal < yearLength b := by rwa [yearLength, ← hleap]
  have hyear : isLeap (yearOf (yearStart a + ordinal)) =
      isLeap (yearOf (yearStart b + ordinal)) := by
    rw [yearOf_of_ordinal h, yearOf_of_ordinal hb, hleap]
  have hday : dayOfYear (yearStart a + ordinal) = dayOfYear (yearStart b + ordinal) := by
    rw [dayOfYear_of_ordinal h, dayOfYear_of_ordinal hb]
  exact ⟨monthOf_congr hyear hday, dayOfMonth_congr hyear hday⟩

theorem monthDay_before_ordinal {a b : Int} (hleap : isLeap a = isLeap b) {ordinal : Nat}
    (h : ordinal < yearLength a) :
    monthOf (yearStart a + ordinal - 1) = monthOf (yearStart b + ordinal - 1) ∧
      dayOfMonth (yearStart a + ordinal - 1) = dayOfMonth (yearStart b + ordinal - 1) := by
  cases ordinal with
  | zero =>
    obtain ⟨hmonthA, hdayA⟩ := monthOf_yearStart_sub_one a
    obtain ⟨hmonthB, hdayB⟩ := monthOf_yearStart_sub_one b
    simp only [Int.natCast_zero, Int.add_zero]
    exact ⟨hmonthA.trans hmonthB.symm, hdayA.trans hdayB.symm⟩
  | succ ordinal =>
    have hstep (year : Int) :
        yearStart year + ((ordinal + 1 : Nat) : Int) - 1 = yearStart year + ordinal := by
      omega
    rw [hstep, hstep]
    exact monthDay_of_ordinal hleap (by omega)

end OpeningTimes.Calendar
