import OpeningTimes.Proofs.Calendar.YearsLater
import OpeningTimes.Proofs.Expression.RulesRead
import OpeningTimes.Proofs.Recurrence.Alike

/-!
# Ranges of every year

A range without a year is the same range in each year: it covers a date if the one that starts in
the date's year or in the year before does. A range with a year lies between two dates of the
calendar. Both are read off the order of years and of the days in them.
-/

namespace OpeningTimes

open Calendar

-- ---------------------------------------------------------------------------
-- The days of a year
-- ---------------------------------------------------------------------------

theorem Calendar.monthLength_of_ne_february {month : Nat} (h : month ≠ 2) (a b : Int) :
    monthLength a month = monthLength b month := by
  unfold monthLength
  split <;> first | rfl | exact absurd rfl h

/-- A day that the year has. -/
def MonthDay.IsIn (d : MonthDay) (year : Int) : Prop :=
  IsMonth d.month ∧ 1 ≤ d.day ∧ d.day ≤ monthLength year d.month

/-- The last day of its month where the year has no such day. -/
def MonthDay.clamped (d : MonthDay) (year : Int) : MonthDay :=
  ⟨d.month, min d.day (monthLength year d.month)⟩

namespace MonthDay

variable {a b d : MonthDay} {year other : Int}

theorem dayNumber_le_iff (ha : a.IsIn year) (hb : b.IsIn other) :
    dayNumber year a.month a.day ≤ dayNumber other b.month b.day ↔
    year < other ∨ year = other ∧ a ≤ b := by
  obtain ⟨hmonthA, hdayA⟩ := ha
  obtain ⟨hmonthB, hdayB⟩ := hb
  have hendA := daysBeforeMonth_add_monthLength_le year hmonthA
  have hendB := daysBeforeMonth_add_monthLength_le other hmonthB
  have hlengthA := yearStart_add_yearLength year
  have hlengthB := yearStart_add_yearLength other
  rw [le_iff]
  unfold dayNumber
  rcases Int.lt_trichotomy year other with hlt | rfl | hgt
  · have := yearStart_mono (show year + 1 ≤ other from hlt)
    omega
  · rcases Nat.lt_trichotomy a.month b.month with hlt | heq | hgt
    · have := daysBeforeMonth_add_monthLength_le_of_lt year hmonthA.1 hlt hmonthB.2
      omega
    · rw [heq]
      omega
    · have := daysBeforeMonth_add_monthLength_le_of_lt year hmonthB.1 hgt hmonthA.2
      omega
  · have := yearStart_mono (show other + 1 ≤ year from hgt)
    omega

theorem isIn_clamped (h : d.WellFormed) (year : Int) : (d.clamped year).IsIn year := by
  obtain ⟨hmonth, hday⟩ := h
  have := le_monthLength year hmonth
  refine ⟨hmonth, ?_⟩
  simp only [clamped]
  omega

/-- Only 29 February is missing in some years. -/
theorem clamped_eq (h : d.WellFormed) (hleap : d ≠ ⟨2, 29⟩) (year : Int) : d.clamped year = d := by
  obtain ⟨month, day⟩ := d
  obtain ⟨hmonth, -, hday⟩ := h
  have hlength : day ≤ monthLength year month := by
    by_cases hfebruary : month = 2
    · subst hfebruary
      have hday : day ≤ 29 := hday
      have hne : day ≠ 29 := fun heq => hleap (congrArg (mk 2) heq)
      have hshort : 28 ≤ monthLength year 2 := le_monthLength year hmonth
      omega
    · rwa [monthLength_of_ne_february hfebruary year 2000]
  rw [clamped, Nat.min_eq_left hlength]

theorem le_clamped_iff (hd : d.IsIn year) : d ≤ a.clamped year ↔ d ≤ a := by
  obtain ⟨-, -, hday⟩ := hd
  simp only [le_iff, clamped]
  constructor
  · omega
  · rintro (hlt | ⟨hmonth, hle⟩)
    · exact .inl hlt
    · rw [hmonth] at hday
      exact .inr ⟨hmonth, by omega⟩

end MonthDay

namespace Date

variable {d e : Date} {year : Int} {a : MonthDay}

theorem monthDay_isIn (d : Date) : d.monthDay.IsIn d.year :=
  ⟨monthOf_bounds d.number, dayOfMonth_bounds d.number⟩

theorem number_eq (d : Date) : dayNumber d.year d.monthDay.month d.monthDay.day = d.number :=
  dayNumber_self d.number

theorem ofClamped?_number (h : ofClamped? year a = some e) :
    e.number = dayNumber year (a.clamped year).month (a.clamped year).day :=
  (ofYearMonthDay?_eq_some_iff.mp h).2

theorem exists_ofClamped? (ha : a.WellFormed) (h : HasYear year) :
    ∃ e, ofClamped? year a = some e :=
  exists_ofYearMonthDay? h ha.1 (a.isIn_clamped ha year).2

theorem year_of_ofClamped? (ha : a.WellFormed) (h : ofClamped? year a = some e) :
    e.year = year := by
  have hin := a.isIn_clamped ha year
  unfold Date.year
  rw [ofClamped?_number h]
  exact yearOf_dayNumber hin.1 hin.2

theorem ofClamped?_le_iff (ha : a.WellFormed) (hleap : a ≠ ⟨2, 29⟩)
    (h : ofClamped? year a = some e) :
    e ≤ d ↔ year < d.year ∨ year = d.year ∧ a ≤ d.monthDay := by
  have hin := a.isIn_clamped ha year
  have hnumber := ofClamped?_number h
  rw [a.clamped_eq ha hleap] at hin hnumber
  rw [le_iff, hnumber, ← d.number_eq]
  exact MonthDay.dayNumber_le_iff hin d.monthDay_isIn

theorem le_ofClamped?_iff (ha : a.WellFormed) (h : ofClamped? year a = some e) :
    d ≤ e ↔ d.year < year ∨ d.year = year ∧ d.monthDay ≤ a := by
  rw [le_iff, ofClamped?_number h, ← d.number_eq,
    MonthDay.dayNumber_le_iff d.monthDay_isIn (a.isIn_clamped ha year)]
  refine or_congr_right (and_congr_right ?_)
  rintro rfl
  exact MonthDay.le_clamped_iff d.monthDay_isIn

end Date

-- ---------------------------------------------------------------------------
-- Ranges with a year
-- ---------------------------------------------------------------------------

namespace CalendarSpan

def startYear? : CalendarSpan → Option Int
  | .months year _ _ => year
  | .days start _ => start.year

def startingIn (year : Int) : CalendarSpan → CalendarSpan
  | .months _ start stop => .months (some year) start stop
  | .days start stop => .days { start with year := some year } stop

theorem exists_bounds?_days {start : CalendarDay} {stop : Option CalendarDay} {year : Int}
    (hyear : start.year = some year) (h : (CalendarSpan.days start stop).WellFormed) :
    ∃ b, (CalendarSpan.days start stop).bounds? = some b := by
  obtain ⟨⟨hstart, hstartYear⟩, hstop⟩ := h
  have hstartYear : IsYear year := hstartYear year hyear
  obtain ⟨first, hfirst⟩ := Date.exists_ofClamped? hstart hstartYear.hasYear
  cases stop with
  | none => exact ⟨⟨first, none⟩, by simp [bounds?, hyear, hfirst]⟩
  | some stop =>
    obtain ⟨⟨hday, hstopYear⟩, -⟩ := hstop stop rfl
    let lastYear := stop.year.getD (stopYear year (!decide (start.toMonthDay ≤ stop.toMonthDay)))
    have hlastYear : 1900 ≤ lastYear ∧ lastYear ≤ 10000 := by
      unfold IsYear at hstartYear hstopYear
      cases hsome : stop.year with
      | none =>
        simp only [lastYear, hsome, Option.getD_none, stopYear]
        split <;> omega
      | some y =>
        have := hstopYear y hsome
        simp only [lastYear, hsome, Option.getD_some]
        omega
    have hhas : Date.HasYear lastYear := by
      unfold Date.HasYear
      omega
    obtain ⟨last, hlast⟩ := Date.exists_ofClamped? hday hhas
    -- the last date of the calendar is in a much later year
    have hend : last < Date.last := by
      refine Date.lt_of_year_lt ?_
      rw [Date.year_of_ofClamped? hday hlast, show Date.last.year = 262142 from rfl]
      omega
    obtain ⟨after, hafter⟩ := Date.exists_shift? (d := last) (e := Date.last) (n := 1) (by decide)
      (by rw [Date.lt_iff] at hend; omega)
    refine ⟨⟨first, some after⟩, ?_⟩
    have hlast : Date.ofClamped?
        (stop.year.getD (stopYear year (!decide (start.toMonthDay ≤ stop.toMonthDay))))
        stop.toMonthDay = some last := hlast
    have hafter : last.succ? = some after := hafter
    simp [bounds?, hyear, hfirst, hlast, hafter]

theorem exists_bounds? {r : CalendarSpan} (h : r.WellFormed) (hyear : r.startYear?.isSome) :
    ∃ b, r.bounds? = some b := by
  obtain ⟨year, hyear⟩ := Option.isSome_iff_exists.mp hyear
  cases r with
  | months y start stop =>
    obtain rfl : y = some year := hyear
    exact exists_bounds?_months h
  | days start stop => exact exists_bounds?_days hyear h

-- ---------------------------------------------------------------------------
-- Ranges without a year
-- ---------------------------------------------------------------------------

/-- The range comes in every year, and it starts on the same day in each of them. -/
inductive ComesEveryYear : CalendarSpan → Prop where
  | months (start stop : Nat) : ComesEveryYear (.months none start stop)
  | days {start stop : MonthDay} (start_wellFormed : start.WellFormed)
      (stop_wellFormed : stop.WellFormed)
    (not_leap_day : start ≠ ⟨2, 29⟩) : ComesEveryYear (.days ⟨start, none⟩ (some ⟨stop, none⟩))

theorem covers_days_startingIn {start stop : MonthDay} (hstart : start.WellFormed)
    (hstop : stop.WellFormed) (hleap : start ≠ ⟨2, 29⟩) {year : Int} (hyear : IsYear year)
    (d : Date) : (CalendarSpan.days ⟨start, some year⟩ (some ⟨stop, none⟩)).covers d = true ↔
      (year < d.year ∨ year = d.year ∧ start ≤ d.monthDay) ∧
        (d.year < stopYear year (!decide (start ≤ stop)) ∨
          d.year = stopYear year (!decide (start ≤ stop)) ∧ d.monthDay ≤ stop) := by
  have wellFormed : (CalendarSpan.days ⟨start, some year⟩ (some ⟨stop, none⟩)).WellFormed := by
    refine ⟨⟨hstart, ?_⟩, ?_⟩
    · rintro y ⟨⟩
      exact hyear
    · rintro last ⟨⟩
      exact ⟨⟨hstop, by simp⟩, by simp⟩
  obtain ⟨b, hb⟩ := exists_bounds? wellFormed rfl
  rw [covers_of_bounds? wellFormed hb]
  simp only [bounds?, Option.bind_eq_bind, Option.bind_eq_some_iff, Option.pure_def,
    Option.some.injEq] at hb
  obtain ⟨y, rfl, first, hfirst, last, hlast, after, hafter, rfl⟩ := hb
  simp only [DateBounds.contains, Bool.and_eq_true, decide_eq_true_eq, Option.all_some]
  rw [Date.ofClamped?_le_iff hstart hleap hfirst, Date.lt_succ_iff hafter,
    Date.le_ofClamped?_iff hstop hlast]
  rfl

/-- A value lies in a cycle if it does so in the turn of its own year or in that of the year
before. -/
theorem withinCycle_iff_exists_year [LE α] [DecidableLE α] {x start stop : α} {year : Int}
    (hyear : 1901 ≤ year ∧ year ≤ 9999) :
    withinCycle x start stop = true ↔ ∃ y, IsYear y ∧ (y < year ∨ y = year ∧ start ≤ x) ∧
      (year < stopYear y (!decide (start ≤ stop)) ∨
        year = stopYear y (!decide (start ≤ stop)) ∧ x ≤ stop) := by
  unfold withinCycle IsYear
  by_cases hwraps : start ≤ stop
  · simp only [hwraps, if_true, decide_true, Bool.not_true, stopYear, Bool.and_eq_true,
      decide_eq_true_eq, Bool.false_eq_true, if_false]
    constructor
    · rintro ⟨hlow, hhigh⟩
      exact ⟨year, by omega, .inr ⟨rfl, hlow⟩, .inr ⟨rfl, hhigh⟩⟩
    · rintro ⟨y, -, hlow, hhigh⟩
      obtain rfl : y = year := by omega
      exact ⟨by simpa using hlow, by simpa using hhigh⟩
  · simp only [hwraps, if_false, decide_false, Bool.not_false, stopYear, Bool.or_eq_true,
      decide_eq_true_eq, if_true]
    constructor
    · rintro (hlow | hhigh)
      · exact ⟨year, by omega, .inr ⟨rfl, hlow⟩, .inl (by omega)⟩
      · exact ⟨year - 1, by omega, .inl (by omega), .inr ⟨by omega, hhigh⟩⟩
    · rintro ⟨y, -, hlow, hhigh⟩
      rcases hlow with hlt | ⟨-, hlow⟩
      · rcases hhigh with hle | ⟨-, hhigh⟩
        · omega
        · exact .inr hhigh
      · exact .inl hlow

theorem covers_iff_exists_year {r : CalendarSpan} (h : r.ComesEveryYear) {d : Date}
    (hyear : 1901 ≤ d.year ∧ d.year ≤ 9999) :
    r.covers d = true ↔ ∃ year, IsYear year ∧ (r.startingIn year).covers d = true := by
  cases h with
  | months start stop =>
    have hwraps : decide (stop < start) = !decide (start ≤ stop) := by
      rw [← decide_not, decide_eq_decide, Nat.not_le]
    rw [covers_months_none, withinCycle_iff_exists_year hyear]
    simp only [startingIn, covers_months, hwraps, Bool.and_eq_true, Bool.or_eq_true,
      decide_eq_true_eq, beq_iff_eq]
  | @days start stop hstart hstop hleap =>
    have hcycle : (CalendarSpan.days ⟨start, none⟩ (some ⟨stop, none⟩)).covers d =
      withinCycle d.monthDay start stop := rfl
    rw [hcycle, withinCycle_iff_exists_year hyear]
    refine exists_congr fun year => and_congr_right fun hisYear => ?_
    exact (covers_days_startingIn hstart hstop hleap hisYear d).symm

/-- A range without a year covers what the ranges do that start with it in some year, and a range
with a year covers what lies between its bounds, which it always has. -/
theorem covers_year_by_year :
    (∀ r : CalendarSpan, r.ComesEveryYear → ∀ d : Date, 1901 ≤ d.year ∧ d.year ≤ 9999 →
      (r.covers d = true ↔ ∃ year, IsYear year ∧ (r.startingIn year).covers d = true)) ∧
    ∀ (raw : String) (rules : List Rule), Rule.ofText raw = .ok rules → ∀ rule ∈ rules,
      ∀ r ∈ rule.calendar, r.startYear?.isSome = true →
        ∃ b, r.bounds? = some b ∧
          ∀ d : Date, r.covers d = true ↔ b.start ≤ d ∧ ∀ stop ∈ b.stop, d < stop := by
  refine ⟨fun r hr d hyear => covers_iff_exists_year hr hyear, ?_⟩
  intro raw rules hparsed rule hrule r hr hstart
  have wellFormed := (Rule.wellFormed_of_ofText hparsed rule hrule).calendar r hr
  obtain ⟨b, hb⟩ := exists_bounds? wellFormed hstart
  refine ⟨b, hb, fun d => ?_⟩
  rw [covers_of_bounds? wellFormed hb, DateBounds.contains, Bool.and_eq_true, decide_eq_true_eq,
    Option.all_eq_true]
  simp only [Option.mem_def, decide_eq_true_eq]

/-- The end of February is the 29th in 2024 and the 28th in 2023. -/
theorem covers_year_by_year_over_new_year :
    ∃ rules, Rule.ofText "2022 Dec 24-Feb 29 off; Dec 24-Feb 29 off" = .ok rules ∧
      ∃ pinned recurring : CalendarSpan, rules.flatMap Rule.calendar = [pinned, recurring] ∧
        pinned = recurring.startingIn 2022 ∧ pinned.startYear? = some 2022 ∧
        recurring.ComesEveryYear ∧
        (∃ d, Date.ofYearMonthDay? 2024 2 29 = some d ∧ recurring.covers d = true ∧
          pinned.covers d = false ∧
          (recurring.covers d = true ↔
            ∃ year, IsYear year ∧ (recurring.startingIn year).covers d = true)) ∧
        ∃ b, pinned.bounds? = some b ∧ b.stop = Date.ofYearMonthDay? 2023 3 1 ∧
          ∀ d : Date, pinned.covers d = true ↔ b.start ≤ d ∧ ∀ stop ∈ b.stop, d < stop := by
  have parsed : Rule.ofText "2022 Dec 24-Feb 29 off; Dec 24-Feb 29 off" = .ok
      [⟨[], [.days ⟨⟨12, 24⟩, some 2022⟩ (some ⟨⟨2, 29⟩, none⟩)], [], {}, [], .closed, none,
        .replace⟩,
      ⟨[], [.days ⟨⟨12, 24⟩, none⟩ (some ⟨⟨2, 29⟩, none⟩)], [], {}, [], .closed, none,
        .replace⟩] := rfl
  have recurring : ComesEveryYear (.days ⟨⟨12, 24⟩, none⟩ (some ⟨⟨2, 29⟩, none⟩)) :=
    .days ⟨⟨by decide, by decide⟩, by decide, by decide⟩
      ⟨⟨by decide, by decide⟩, by decide, by decide⟩
      (by decide)
  have leapDay : Date.ofYearMonthDay? 2024 2 29 = some ⟨739310, by decide, by decide⟩ := by decide
  refine ⟨_, parsed, _, _, rfl, rfl, rfl, recurring, ⟨_, leapDay, by decide, by decide, ?_⟩, ?_⟩
  · exact covers_year_by_year.1 _ recurring _ (by decide)
  · obtain ⟨b, hb, hcovers⟩ := covers_year_by_year.2 _ _ parsed _ (.head _) _ (.head _) rfl
    refine ⟨b, hb, ?_, hcovers⟩
    cases hb
    decide

/-- A start on 29 February is the 28th in a common year, which the range without a year
leaves out. -/
example : (Date.ofYearMonthDay? 2023 2 28).map (fun d =>
    ((CalendarSpan.days ⟨⟨2, 29⟩, none⟩ (some ⟨⟨3, 1⟩, none⟩)).covers d,
      (CalendarSpan.days ⟨⟨2, 29⟩, some 2023⟩ (some ⟨⟨3, 1⟩, none⟩)).covers d)) =
        some (false, true) := by
  decide

end CalendarSpan

end OpeningTimes
