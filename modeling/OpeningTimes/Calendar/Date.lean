import OpeningTimes.Calendar.Civil
import OpeningTimes.Calendar.Weekday

/-!
# Dates

A date is a day number inside the calendar, which runs from 1 January of the year -262143 to
31 December of the year 262142. Operations that may leave it return an option, except the
arithmetic of whole years, which stops at either end.
-/

namespace OpeningTimes

open Calendar

structure Date where
  number : Int
  first_le : -95745764 ≤ number := by omega
  le_last : number ≤ 95745764 := by omega
deriving DecidableEq, Repr

namespace Date

instance : LE Date := ⟨fun a b => a.number ≤ b.number⟩
instance : LT Date := ⟨fun a b => a.number < b.number⟩
instance (a b : Date) : Decidable (a ≤ b) := inferInstanceAs (Decidable (a.number ≤ b.number))
instance (a b : Date) : Decidable (a < b) := inferInstanceAs (Decidable (a.number < b.number))
instance : Min Date := minOfLe
instance : Max Date := maxOfLe

theorem le_iff {a b : Date} : a ≤ b ↔ a.number ≤ b.number := Iff.rfl

theorem lt_iff {a b : Date} : a < b ↔ a.number < b.number := Iff.rfl

theorem eq_iff {a b : Date} : a = b ↔ a.number = b.number := by
  cases a; cases b; simp

def first : Date := ⟨-95745764, by decide, by decide⟩

def last : Date := ⟨95745764, by decide, by decide⟩

theorem first_number : first.number = dayNumber (-262143) 1 1 := by decide

theorem last_number : last.number = dayNumber 262142 12 31 := by decide

def ofNumber? (number : Int) : Option Date :=
  if h : -95745764 ≤ number ∧ number ≤ 95745764 then some ⟨number, h.1, h.2⟩ else none

def ofYearMonthDay? (year : Int) (month day : Nat) : Option Date :=
  if 1 ≤ day ∧ day ≤ monthLength year month then ofNumber? (dayNumber year month day) else none

def year (d : Date) : Int := yearOf d.number

def month (d : Date) : Nat := monthOf d.number

def day (d : Date) : Nat := dayOfMonth d.number

def weekday (d : Date) : Weekday := Weekday.ofDay d.number

/-- The number of the week by its Thursday, the first Thursday of a year being in week 1. -/
def isoWeek (d : Date) : Nat :=
  dayOfYear (d.number - Weekday.indexOfDay d.number + 3) / 7 + 1

def shift? (d : Date) (days : Int) : Option Date := ofNumber? (d.number + days)

def succ? (d : Date) : Option Date := d.shift? 1

def pred? (d : Date) : Option Date := d.shift? (-1)

/-- Day 29 of a February that lacks it becomes day 28. -/
def inYear? (d : Date) (year : Int) : Option Date :=
  ofYearMonthDay? year d.month (min d.day (monthLength year d.month))

def yearsLater (d : Date) (years : Nat) : Date := (d.inYear? (d.year + years)).getD last

def yearsEarlier (d : Date) (years : Nat) : Date := (d.inYear? (d.year - years)).getD first

def newYear? (year : Int) : Option Date := ofYearMonthDay? year 1 1

def newYearsEve? (year : Int) : Option Date := ofYearMonthDay? year 12 31

/-- The first day after a month of the calendar. -/
def afterMonth? (year : Int) (month : Nat) : Option Date :=
  (ofYearMonthDay? year month 1).bind fun start => start.shift? (monthLength year month)

/-- Which of the month's days with this weekday it is, counted from 1. -/
def occurrence (d : Date) : Nat := (d.day - 1) / 7 + 1

/-- The same counted from the end of the month. -/
def occurrenceFromEnd (d : Date) : Nat := (monthLength d.year d.month - d.day) / 7 + 1

theorem ofNumber?_eq_some_iff {number : Int} {d : Date} :
    ofNumber? number = some d ↔ d.number = number := by
  unfold ofNumber?
  constructor
  · intro h
    split at h
    · simp at h; simp [← h]
    · simp at h
  · rintro rfl
    simp [d.first_le, d.le_last]

theorem shift?_eq_some_iff {d e : Date} {days : Int} :
    d.shift? days = some e ↔ e.number = d.number + days :=
  ofNumber?_eq_some_iff

theorem ofNumber?_eq_none_iff {number : Int} :
    ofNumber? number = none ↔ number < -95745764 ∨ 95745764 < number := by
  unfold ofNumber?
  split <;> simp <;> omega

end Date

end OpeningTimes
