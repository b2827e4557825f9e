import OpeningTimes.Proofs.Calendar.Years
import OpeningTimes.Proofs.Expression.DatesRead
import OpeningTimes.Proofs.Expression.Parts

/-!
# Years, months and days, and weeks as they are written

A range of years is written with both ends and its step, so that none of its years stands before a
month; a range of months or days with both ends, and a day with two digits after its month.
-/

namespace OpeningTimes

open Calendar

def YearSpan.lexemes (r : YearSpan) : List Lexeme :=
  .number r.start.toNat 4 :: match r.stop with
    | none => [.mark .plus]
    | some stop => [.mark .dash, .number stop.toNat 4, .mark .slash, .number r.step 10]

def yearLexemes (year : Option Int) : List Lexeme :=
  (year.map fun y => .number y.toNat 4).toList

def CalendarDay.lexemes (d : CalendarDay) : List Lexeme :=
  yearLexemes d.year ++ [.month d.month, .number d.day 2]

def CalendarSpan.lexemes : CalendarSpan → List Lexeme
  | .months year start stop => yearLexemes year ++ [.month start, .mark .dash, .month stop]
  | .days start none => start.lexemes ++ [.mark .plus]
  | .days start (some stop) => start.lexemes ++ .mark .dash :: stop.lexemes

def WeekSpan.lexemes (r : WeekSpan) : List Lexeme :=
  [.number r.start 2, .mark .dash, .number r.stop 2, .mark .slash, .number r.step 10]

def weekLexemes (weeks : List WeekSpan) : List Lexeme :=
  if weeks.isEmpty then [] else .keyword .week :: Grammar.listed WeekSpan.lexemes weeks

namespace Grammar

variable (rest : List Lexeme)

-- ---------------------------------------------------------------------------
-- Years
-- ---------------------------------------------------------------------------

theorem spellable_year {y : Int} (h : IsYear y) : (Lexeme.number y.toNat 4).Spellable := by
  obtain ⟨hlow, hhigh⟩ := h
  exact Lexeme.spellable_number (by decide) (by decide) (by omega)

theorem spellable_step {n : Nat} (h : IsStep n) : (Lexeme.number n 10).Spellable :=
  ⟨by decide, Nat.lt_of_le_of_lt h.2 (by decide), h.2⟩

theorem year_spelled {y : Int} (h : IsYear y) :
    year (.number y.toNat 4 :: rest) = .ok (y, rest) := by
  obtain ⟨hlow, hhigh⟩ := h
  have bounds : 1900 ≤ y.toNat ∧ y.toNat ≤ 9999 := by omega
  simp [year, one, bounds, Int.toNat_of_nonneg (by omega : 0 ≤ y)]

theorem step_spelled {n : Nat} (h : IsStep n) :
    step (.mark .slash :: .number n 10 :: rest) = .ok (n, rest) := by
  simp [step, one, h.1]

theorem spells_yearSpan {r : YearSpan} (h : r.WellFormed) : Spells yearSpan r.lexemes r := by
  obtain ⟨start, stop, step⟩ := r
  obtain ⟨hstart, hstop⟩ := h
  cases stop with
  | none =>
    obtain rfl : step = 1 := hstop
    refine ⟨?_, fun rest _ => ?_⟩
    · simp [YearSpan.lexemes, spellable_year hstart]
    · simp [YearSpan.lexemes, yearSpan, year_spelled _ hstart, pure, Except.pure]
  | some stop =>
    obtain ⟨hle, hlimit, hstep⟩ := hstop
    have isYear : IsYear stop := ⟨Int.le_trans hstart.1 hle, hlimit⟩
    refine ⟨?_, fun rest _ => ?_⟩
    · simp [YearSpan.lexemes, spellable_year hstart, spellable_year isYear, spellable_step hstep]
    · simp [YearSpan.lexemes, yearSpan, year_spelled _ hstart, year_spelled _ isYear,
        Int.not_lt.mpr hle, step_spelled _ hstep, pure, Except.pure]

theorem place_yearSpan (r : YearSpan) : place (r.lexemes ++ rest) = 1 := by
  cases hstop : r.stop <;> simp [YearSpan.lexemes, hstop, place]

theorem fills_years {years : List YearSpan} (h : ∀ r ∈ years, r.WellFormed) :
    Fills 1 (optionalItems yearSpan startsYear) (listed YearSpan.lexemes years) years :=
  fills_optionalItems startsYear_eq (fun r hr => spells_yearSpan (h r hr)) fun r _ rest =>
    place_yearSpan rest r

-- ---------------------------------------------------------------------------
-- Months and days of the year
-- ---------------------------------------------------------------------------

theorem yearIfAny_spelled {year : Option Int} (h : ∀ y ∈ year, IsYear y) (m : Nat) :
    yearIfAny (yearLexemes year ++ .month m :: rest) = .ok (year, .month m :: rest) := by
  cases year with
  | none => rfl
  | some y => simp [yearLexemes, yearIfAny, year_spelled _ (h y rfl), Except.map]

theorem day_spelled {m d : Nat} (h : 1 ≤ d ∧ d ≤ longestMonth m) :
    day m (.number d 2 :: rest) = .ok (d, rest) := by
  simp [day, one, h]

theorem spellable_yearLexemes {year : Option Int} (h : ∀ y ∈ year, IsYear y) :
    ∀ t ∈ yearLexemes year, t.Spellable := by
  cases year with
  | none => simp [yearLexemes]
  | some y => simpa [yearLexemes] using spellable_year (h y rfl)

theorem spellable_day {m d : Nat} (h : d ≤ longestMonth m) : (Lexeme.number d 2).Spellable := by
  have hlast : longestMonth m ≤ 31 := Calendar.monthLength_le 2000 m
  exact Lexeme.spellable_number (by decide) (by decide) (by omega)

theorem spellable_calendarDay {d : CalendarDay} (h : d.WellFormed) :
    ∀ t ∈ d.lexemes, t.Spellable := by
  obtain ⟨⟨hmonth, hday⟩, hyear⟩ := h
  simp only [CalendarDay.lexemes, List.forall_mem_append]
  exact ⟨spellable_yearLexemes hyear, by simp [hmonth, spellable_day hday.2]⟩

theorem startsDay_calendarDay (d : CalendarDay) : startsDay (d.lexemes ++ rest) = false := by
  cases hyear : d.year <;> simp [CalendarDay.lexemes, yearLexemes, hyear, startsDay]

theorem month_spelled (m : Nat) : month (.month m :: rest) = .ok (m, rest) := rfl

theorem runsBackwards_eq_false {start stop : CalendarDay} (h : EndsRange start stop) :
    runsBackwards start stop = false := by
  obtain ⟨-, horder⟩ := h
  cases hstop : stop.year with
  | none => simp [runsBackwards, hstop]
  | some y' =>
    obtain ⟨y, hy, hle⟩ := horder y' hstop
    rw [Option.mem_def] at hy
    rcases hle with hlt | ⟨rfl, hday⟩
    · simp [runsBackwards, hy, hstop, Int.not_lt.mpr (Int.le_of_lt hlt), Int.ne_of_gt hlt]
    · simp [runsBackwards, hy, hstop, hday]

theorem lastDay_spelled {start stop : CalendarDay} (h : EndsRange start stop) :
    lastDay start (stop.lexemes ++ rest) = .ok (stop, rest) := by
  have hforward := runsBackwards_eq_false h
  obtain ⟨⟨⟨hmonth, hday⟩, hyear⟩, horder⟩ := h
  have hneeds : ¬ (stop.year.isSome && start.year.isNone) = true := by
    cases hstop : stop.year with
    | none => simp
    | some y' =>
      obtain ⟨y, hy, -⟩ := horder y' hstop
      simp [Option.mem_def.mp hy]
  have htext : stop.lexemes ++ rest
      = yearLexemes stop.year ++ .month stop.month :: .number stop.day 2 :: rest := by
    simp [CalendarDay.lexemes]
  rw [lastDay, if_neg (by simp [startsDay_calendarDay]), htext, yearIfAny_spelled _ hyear]
  simp only [ok_bind, if_neg hneeds, month_spelled, day_spelled _ hday]
  rw [if_neg (by simp [hforward])]
  rfl

theorem monthsTo_spelled (year : Option Int) (start stop : Nat) :
    monthsTo year start (.month stop :: rest) = .ok (.months year start stop, rest) := by
  cases year <;> rfl

theorem calendarSpan_day {start : CalendarDay} (h : start.WellFormed) :
    calendarSpan (start.lexemes ++ rest) = daysFrom start rest := by
  obtain ⟨⟨hmonth, hday⟩, hyear⟩ := h
  simp [CalendarDay.lexemes, calendarSpan, yearIfAny_spelled _ hyear, month_spelled, startsDay,
    day_spelled _ hday]

theorem spells_calendarSpan {r : CalendarSpan} (h : r.WellFormed) :
    Spells calendarSpan r.lexemes r := by
  cases r with
  | months year start stop =>
    obtain ⟨hyear, hstart, hstop⟩ := h
    refine ⟨?_, fun rest _ => ?_⟩
    · simp only [CalendarSpan.lexemes, List.forall_mem_append]
      exact ⟨spellable_yearLexemes hyear, by simp [hstart, hstop]⟩
    · simp [CalendarSpan.lexemes, calendarSpan, yearIfAny_spelled _ hyear, month_spelled, startsDay,
        monthsFrom, startsCalendarSpan, monthsTo_spelled]
  | days start stop =>
    obtain ⟨hstart, hstop⟩ := h
    have hspellable := spellable_calendarDay hstart
    cases stop with
    | none =>
      refine ⟨?_, fun rest _ => ?_⟩
      · simp only [CalendarSpan.lexemes, List.forall_mem_append]
        exact ⟨hspellable, by simp⟩
      · simp [CalendarSpan.lexemes, calendarSpan_day _ hstart, daysFrom]
    | some stop =>
      have ends : EndsRange start stop := hstop stop rfl
      refine ⟨?_, fun rest _ => ?_⟩
      · simp only [CalendarSpan.lexemes, List.forall_mem_append, List.forall_mem_cons]
        exact ⟨hspellable, Lexeme.spellable_mark _, spellable_calendarDay ends.1⟩
      · simp [CalendarSpan.lexemes, calendarSpan_day _ hstart, daysFrom, lastDay_spelled _ ends,
          pure, Except.pure]

theorem place_calendarDay (d : CalendarDay) : place (d.lexemes ++ rest) = 2 := by
  cases hyear : d.year <;> simp [CalendarDay.lexemes, yearLexemes, hyear, place]

theorem place_calendarSpan (r : CalendarSpan) : place (r.lexemes ++ rest) = 2 := by
  cases r with
  | months year start stop => cases year <;> simp [CalendarSpan.lexemes, yearLexemes, place]
  | days start stop => cases stop <;> simp [CalendarSpan.lexemes, place_calendarDay]

theorem fills_calendar {calendar : List CalendarSpan} (h : ∀ r ∈ calendar, r.WellFormed) :
    Fills 2 (optionalItems calendarSpan startsCalendarSpan) (listed CalendarSpan.lexemes calendar)
      calendar :=
  fills_optionalItems startsCalendarSpan_eq (fun r hr => spells_calendarSpan (h r hr))
    fun r _ rest => place_calendarSpan rest r

-- ---------------------------------------------------------------------------
-- Weeks
-- ---------------------------------------------------------------------------

theorem week_spelled {n : Nat} (h : 1 ≤ n ∧ n ≤ 53) :
    week (.number n 2 :: rest) = .ok (n, rest) := by
  simp [week, one, h]

theorem spellable_week {n : Nat} (h : 1 ≤ n ∧ n ≤ 53) : (Lexeme.number n 2).Spellable :=
  Lexeme.spellable_number (by decide) (by decide) (by omega)

theorem spells_weekSpan {r : WeekSpan} (h : r.WellFormed) : Spells weekSpan r.lexemes r := by
  obtain ⟨hstart, hstop, hstep⟩ := h
  refine ⟨?_, fun rest _ => ?_⟩
  · simp [WeekSpan.lexemes, spellable_week hstart, spellable_week hstop, spellable_step hstep]
  · simp [WeekSpan.lexemes, weekSpan, week_spelled _ hstart, week_spelled _ hstop,
      step_spelled _ hstep, pure, Except.pure]

theorem fills_weeks {ranges : List WeekSpan} (h : ∀ r ∈ ranges, r.WellFormed) :
    Fills 3 weeks (weekLexemes ranges) ranges where
  spellable := by
    have hlisted : ∀ t ∈ listed WeekSpan.lexemes ranges, t.Spellable :=
      spellable_joined fun r hr => (spells_weekSpan (h r hr)).spellable
    unfold weekLexemes
    split
    · simp
    · simpa using hlisted
  reads rest hrest := by
    cases ranges with
    | nil =>
      show weeks rest = .ok ([], rest)
      unfold weeks
      split
      · exact absurd hrest (by simp [place])
      · rfl
    | cons r ranges =>
      exact items_listed (fun r hr => spells_weekSpan (h r hr)) (fun _ _ _ => rfl)
        (endsList_of_place (Nat.zero_lt_of_lt hrest)) (by simp)
  place_le rest hrest := by
    cases ranges with
    | nil => exact Nat.le_of_lt hrest
    | cons r ranges => exact Nat.le_refl 3

end Grammar

end OpeningTimes
