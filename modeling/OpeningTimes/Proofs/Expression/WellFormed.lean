import Mathlib.Data.List.TakeWhile
import OpeningTimes.Expression.Rule
import OpeningTimes.Expression.Token

/-!
# Well-formed rules

What the text of an expression can say is bounded: years have four digits, days exist in some year,
and times lie within two days. Rules that keep to these bounds are well formed. They are all that
the schedule and its analysis are meant for.
-/

namespace OpeningTimes

open Calendar

/-- A lexeme that some text is read as. -/
def Lexeme.Valid : Lexeme → Prop
  | .month m => 1 ≤ m ∧ m ≤ 12
  | .number value _ => value ≤ numberLimit
  | .comment text => '"' ∉ text.toList
  | _ => True

def IsYear (year : Int) : Prop := 1900 ≤ year ∧ year ≤ 9999

def IsMonth (month : Nat) : Prop := 1 ≤ month ∧ month ≤ 12

/-- A step is a number as it is read, and numbers stop at their limit. -/
def IsStep (step : Nat) : Prop := 1 ≤ step ∧ step ≤ Lexeme.numberLimit

/-- Only a range with both ends has a step. -/
def YearSpan.WellFormed (r : YearSpan) : Prop :=
  IsYear r.start ∧
    match r.stop with
    | none => r.step = 1
    | some stop => r.start ≤ stop ∧ stop ≤ 9999 ∧ IsStep r.step

def MonthDay.WellFormed (d : MonthDay) : Prop :=
  IsMonth d.month ∧ 1 ≤ d.day ∧ d.day ≤ longestMonth d.month

def CalendarDay.WellFormed (d : CalendarDay) : Prop :=
  d.toMonthDay.WellFormed ∧ ∀ year ∈ d.year, IsYear year

/-- An end with a year needs a start with a year, and is no earlier. -/
def CalendarSpan.WellFormed : CalendarSpan → Prop
  | .months year start stop => (∀ y ∈ year, IsYear y) ∧ IsMonth start ∧ IsMonth stop
  | .days start stop => start.WellFormed ∧ ∀ last ∈ stop, last.WellFormed ∧
      ∀ y' ∈ last.year, ∃ y ∈ start.year, y < y' ∨ y = y' ∧ start.toMonthDay ≤ last.toMonthDay

def WeekSpan.WellFormed (r : WeekSpan) : Prop :=
  (1 ≤ r.start ∧ r.start ≤ 53) ∧ (1 ≤ r.stop ∧ r.stop ≤ 53) ∧ IsStep r.step

/-- Weekdays and holidays can only be wanted together where both are named. -/
def DaySelector.WellFormed (s : DaySelector) : Prop :=
  (∀ entry ∈ s.occurrences, entry.2 ≠ ∅) ∧
    (s.join = .both → s.namesWeekday = true ∧ s.holidays ≠ [])

/-- A shift of the sun's time is a day at most. -/
def TimePoint.WellFormed (last : Nat) : TimePoint → Prop
  | .fixed minute => minute ≤ last
  | .solar _ offset => -1440 ≤ offset ∧ offset ≤ 1440

/-- Only an open end may be left out. -/
def TimeRange.WellFormed (s : TimeRange) : Prop :=
  s.start.WellFormed 1440 ∧
    match s.stop with
    | none => s.openEnd = true
    | some stop => stop.WellFormed 2880

/-- A comment ends at the first quote after it starts, so it holds none. -/
structure Rule.WellFormed (r : Rule) : Prop where
  years : ∀ range ∈ r.years, range.WellFormed
  calendar : ∀ range ∈ r.calendar, range.WellFormed
  weeks : ∀ range ∈ r.weeks, range.WellFormed
  days : r.days.WellFormed
  times : ∀ range ∈ r.times, range.WellFormed
  comment : ∀ text ∈ r.comment, '"' ∉ text.toList

-- ---------------------------------------------------------------------------
-- Tokens
-- ---------------------------------------------------------------------------

namespace Lexeme

theorem valid_of_mem_words : ∀ entry ∈ words, entry.2.Valid := by
  simp [words, Valid]

theorem ofWord?_valid {letters : List Char} {lexeme : Lexeme} (h : ofWord? letters = some lexeme) :
    lexeme.Valid := by
  unfold ofWord? at h
  obtain ⟨before, after, hwords, -⟩ := List.lookup_eq_some_iff.mp h
  exact valid_of_mem_words (String.ofList (letters.map Char.toLower), lexeme) (by simp [hwords])

theorem clock?_valid {c : Char} {cs : List Char} {lexeme : Lexeme} {more : Nat}
    (h : clock? c cs = some (lexeme, more)) : lexeme.Valid := by
  unfold clock? at h
  split at h
  all_goals simp only [Option.bind_eq_bind, Option.bind_eq_some_iff, Option.pure_def,
    Option.some.injEq, Prod.mk.injEq, reduceCtorEq] at h
  · obtain ⟨_, _, _, _, rfl, _⟩ := h
    trivial
  · obtain ⟨_, _, _, _, rfl, _⟩ := h
    trivial

theorem read_valid {c : Char} {cs : List Char} {lexeme : Lexeme} {more : Nat}
    (h : read c cs = .ok (lexeme, more)) : lexeme.Valid := by
  unfold read at h
  simp only at h
  split at h
  · split at h <;> cases h
    · exact clock?_valid ‹_›
    · exact Nat.min_le_right ..
  · split at h
    · split at h <;> cases h
      exact ofWord?_valid ‹_›
    · split at h
      · split at h <;> cases h
        intro hquote
        simp only [String.toList_ofList] at hquote
        simpa using List.mem_takeWhile_imp hquote
      · split at h
        · split at h <;> cases h
          trivial
        · split at h <;> cases h
          trivial

end Lexeme

theorem Token.readFrom_valid {position taken : Nat} {cs : List Char} {tokens : List Token}
    (h : readFrom position taken cs = .ok tokens) : ∀ t ∈ tokens, t.lexeme.Valid := by
  induction cs generalizing position taken tokens with
  | nil =>
    cases taken <;> cases h <;> simp
  | cons c cs ih =>
    cases taken with
    | succ taken => exact ih h
    | zero =>
      simp only [readFrom] at h
      split at h
      · exact ih h
      · split at h
        · cases h
        · rename_i lexeme more hread
          cases hrest : readFrom (position + c.utf8Size) more cs with
          | error e => simp [hrest, bind, Except.bind] at h
          | ok rest =>
            simp only [hrest, bind, Except.bind, pure, Except.pure, Except.ok.injEq] at h
            subst h
            intro t ht
            rcases List.mem_cons.mp ht with rfl | ht
            · exact Lexeme.read_valid hread
            · exact ih hrest t ht

end OpeningTimes
