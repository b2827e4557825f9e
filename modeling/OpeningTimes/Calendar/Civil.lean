/-!
# The Gregorian calendar on day numbers

Day 0 is 1 January of the year 0 and the rules of the calendar hold for every integer. A day number
splits into a year, a month and a day of the month; `dayNumber` puts them together again.
-/

namespace OpeningTimes.Calendar

def isLeap (year : Int) : Bool :=
  (year % 4 == 0 && year % 100 != 0) || year % 400 == 0

/-- Zero for a month that does not exist. -/
def monthLength (year : Int) : Nat → Nat
  | 1 | 3 | 5 | 7 | 8 | 10 | 12 => 31
  | 4 | 6 | 9 | 11 => 30
  | 2 => if isLeap year then 29 else 28
  | _ => 0

/-- The most days that the month has in any year. -/
def longestMonth (month : Nat) : Nat :=
  monthLength 2000 month

/-- Days of the year before the first of the month. -/
def daysBeforeMonth (year : Int) (month : Nat) : Nat :=
  let leapDay := if isLeap year then 1 else 0
  match month with
  | 2 => 31
  | 3 => 59 + leapDay
  | 4 => 90 + leapDay
  | 5 => 120 + leapDay
  | 6 => 151 + leapDay
  | 7 => 181 + leapDay
  | 8 => 212 + leapDay
  | 9 => 243 + leapDay
  | 10 => 273 + leapDay
  | 11 => 304 + leapDay
  | 12 => 334 + leapDay
  | _ => 0

/-- Day number of 1 January. -/
def yearStart (year : Int) : Int :=
  365 * year + (year + 3) / 4 - (year + 99) / 100 + (year + 399) / 400

/-- Days after which leap years and weekdays repeat. -/
def cycleDays : Nat := 146097

/-- The mean length of a year puts the first guess at most one year away. -/
def yearOf (day : Int) : Int :=
  let guess := day * 400 / 146097
  if day < yearStart guess then guess - 1
  else if yearStart (guess + 1) ≤ day then guess + 1
  else guess

/-- Days since 1 January. -/
def dayOfYear (day : Int) : Nat :=
  (day - yearStart (yearOf day)).toNat

/-- The month that holds the given day of the year, counted down from December. -/
def monthOfOrdinal (year : Int) (ordinal : Nat) : Nat → Nat
  | 0 => 1
  | month + 1 =>
    if daysBeforeMonth year (month + 1) ≤ ordinal then month + 1
    else monthOfOrdinal year ordinal month

def monthOf (day : Int) : Nat :=
  monthOfOrdinal (yearOf day) (dayOfYear day) 12

def dayOfMonth (day : Int) : Nat :=
  dayOfYear day - daysBeforeMonth (yearOf day) (monthOf day) + 1

/-- The day number of a day that need not exist. -/
def dayNumber (year : Int) (month day : Nat) : Int :=
  yearStart year + (daysBeforeMonth year month : Int) + day - 1

theorem yearStart_succ (year : Int) :
    yearStart (year + 1) = yearStart year + (if isLeap year then 366 else 365) := by
  unfold yearStart isLeap
  split <;> rename_i h <;> simp at h <;> omega

theorem yearStart_yearOf_le (day : Int) : yearStart (yearOf day) ≤ day := by
  unfold yearOf
  simp only
  split
  · unfold yearStart at *; omega
  · split
    · assumption
    · omega

theorem lt_yearStart_succ_yearOf (day : Int) : day < yearStart (yearOf day + 1) := by
  unfold yearOf
  simp only
  split
  · simpa using ‹_›
  · split
    · unfold yearStart at *; omega
    · omega

theorem yearStart_mono {a b : Int} (h : a ≤ b) : yearStart a ≤ yearStart b := by
  unfold yearStart; omega

theorem yearOf_eq_iff (day year : Int) :
    yearOf day = year ↔ yearStart year ≤ day ∧ day < yearStart (year + 1) := by
  constructor
  · rintro rfl
    exact ⟨yearStart_yearOf_le day, lt_yearStart_succ_yearOf day⟩
  · rintro ⟨lo, hi⟩
    have lo' := yearStart_yearOf_le day
    have hi' := lt_yearStart_succ_yearOf day
    rcases Int.lt_trichotomy (yearOf day) year with h | h | h
    · have := yearStart_mono (a := yearOf day + 1) (b := year) h
      omega
    · exact h
    · have := yearStart_mono (a := year + 1) (b := yearOf day) h
      omega

theorem daysBeforeMonth_succ (year : Int) (month : Nat) (lo : 1 ≤ month) (hi : month < 12) :
    daysBeforeMonth year (month + 1) = daysBeforeMonth year month + monthLength year month := by
  have : month ∈ [1, 2, 3, 4, 5, 6, 7, 8, 9, 10, 11] := by simp; omega
  simp only [List.mem_cons, List.not_mem_nil, or_false] at this
  rcases this with rfl | rfl | rfl | rfl | rfl | rfl | rfl | rfl | rfl | rfl | rfl <;>
    simp [daysBeforeMonth, monthLength] <;> split <;> rfl

theorem yearStart_add_cycle (year : Int) : yearStart (year + 400) = yearStart year + 146097 := by
  unfold yearStart; omega

end OpeningTimes.Calendar
