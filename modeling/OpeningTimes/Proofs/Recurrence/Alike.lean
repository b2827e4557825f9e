import OpeningTimes.Proofs.Recurrence.Reach

/-!
# Dates that rules cannot tell apart

A rule covers two dates alike if they lie on the same side of all dates that it names and agree in
what selectors of its kinds look at. Selectors that cover every day look at nothing.
-/

namespace OpeningTimes

-- ---------------------------------------------------------------------------
-- On the same side of the dates that are named
-- ---------------------------------------------------------------------------

/-- Both dates come after all of the named ones, or both before all of them. -/
def SameSide (named : List Date) (d e : Date) : Prop :=
  (∀ x ∈ named, x < d ∧ x < e) ∨ ∀ x ∈ named, d < x ∧ e < x

namespace SameSide

variable {named : List Date} {d e : Date}

theorem mono {part : List Date} (h : SameSide named d e) (hsub : ∀ x ∈ part, x ∈ named) :
    SameSide part d e :=
  h.imp (fun h x hx => h x (hsub x hx)) fun h x hx => h x (hsub x hx)

theorem le_iff (h : SameSide named d e) {x : Date} (hx : x ∈ named) : x ≤ d ↔ x ≤ e := by
  rcases h with h | h <;> have := h x hx <;> simp only [Date.le_iff, Date.lt_iff] at * <;> omega

theorem ge_iff (h : SameSide named d e) {x : Date} (hx : x ∈ named) : d ≤ x ↔ e ≤ x := by
  rcases h with h | h <;> have := h x hx <;> simp only [Date.le_iff, Date.lt_iff] at * <;> omega

end SameSide

/-- After the last year of a span no year is covered, and without a last year there is no step. -/
theorem YearSpan.covers_congr {r : YearSpan} (hr : r.WellFormed) {d e : Date}
    (side : SameSide (r.reach.first.toList ++ r.reach.last.toList) d e) :
    r.covers d.year = r.covers e.year := by
  obtain ⟨hyear, hstop⟩ := hr
  obtain ⟨first, hfirst⟩ := Date.exists_newYear? hyear.hasYear
  have hstart : r.start ≤ d.year ↔ r.start ≤ e.year := by
    rw [← Date.newYear_le_iff hfirst, ← Date.newYear_le_iff hfirst]
    exact side.le_iff (by simp [reach, hfirst])
  cases hs : r.stop with
  | none =>
    rw [hs] at hstop
    simp [covers, hs, hstop, hstart]
  | some stop =>
    rw [hs] at hstop
    obtain ⟨last, hlast⟩ := Date.exists_newYearsEve? (show Date.HasYear stop by
      have := hyear.1; unfold Date.HasYear; omega)
    have hmem : last ∈ r.reach.first.toList ++ r.reach.last.toList := by simp [reach, hs, hlast]
    have hmem' : first ∈ r.reach.first.toList ++ r.reach.last.toList := by simp [reach, hfirst]
    have outside {x : Date} (hx : last < x ∨ x < first) : r.covers x.year = false := by
      have hfrom := Date.newYear_le_iff (d := x) hfirst
      have huntil := Date.le_newYearsEve_iff (d := x) hlast
      rw [Bool.eq_false_iff]
      intro hcovers
      simp only [covers, hs, Bool.and_eq_true, decide_eq_true_eq, Option.all_some] at hcovers
      rcases hx with hx | hx
      · exact absurd (huntil.mpr hcovers.1.2) (Date.not_le.mpr hx)
      · exact absurd (hfrom.mpr hcovers.1.1) (Date.not_le.mpr hx)
    rcases side with h | h
    · rw [outside (.inl (h last hmem).1), outside (.inl (h last hmem).2)]
    · rw [outside (.inr (h first hmem').1), outside (.inr (h first hmem').2)]

theorem CalendarSpan.covers_congr_of_bounds? {r : CalendarSpan} (hr : r.WellFormed) {b : DateBounds}
    (hb : r.bounds? = some b) {d e : Date}
    (side : SameSide (r.reach.first.toList ++ r.reach.last.toList) d e) :
    r.covers d = r.covers e := by
  rw [covers_of_bounds? hr hb, covers_of_bounds? hr hb, DateBounds.contains, DateBounds.contains]
  congr 1
  · rw [decide_eq_decide]
    exact side.le_iff (by simp [reach, hb])
  · cases hstop : b.stop with
    | none => rfl
    | some stop =>
      obtain ⟨last, hlast⟩ := exists_pred?_of_bounds? hb hstop
      rw [Option.all_some, Option.all_some, decide_eq_decide, ← Date.le_pred_iff hlast,
        ← Date.le_pred_iff hlast]
      exact side.ge_iff (by simp [reach, hb, hstop, hlast])

namespace DateSet

theorem first?_le {s : DateSet} {first d : Date} (h : s.first? = some first)
    (hd : s.contains d = true) : first ≤ d := by
  obtain ⟨dates, sorted⟩ := s
  cases dates with
  | nil => simp [first?] at h
  | cons a as =>
    obtain rfl : a = first := by simpa [first?] using h
    rcases List.mem_cons.mp (by simpa [contains] using hd : d ∈ a :: as) with rfl | hmem
    · exact Std.le_refl _
    · exact Int.le_of_lt ((List.pairwise_cons.mp sorted).1 d hmem)

theorem le_last? {s : DateSet} {last d : Date} (h : s.last? = some last)
    (hd : s.contains d = true) : d ≤ last := by
  obtain ⟨dates, sorted⟩ := s
  obtain ⟨before, rfl⟩ := List.getLast?_eq_some_iff.mp h
  rcases List.mem_append.mp (by simpa [contains] using hd : d ∈ before ++ [last]) with hmem | hmem
  · exact Int.le_of_lt ((List.pairwise_append.mp sorted).2.2 d hmem last (by simp))
  · rw [List.mem_singleton.mp hmem]
    exact Std.le_refl _

theorem contains_eq_false_of_sameSide {s : DateSet} {d e : Date}
    (side : SameSide (s.first?.toList ++ s.last?.toList) d e) :
    s.contains d = false ∧ s.contains e = false := by
  have outside {x : Date} (hx : (∀ a ∈ s.first?.toList ++ s.last?.toList, a < x) ∨
      ∀ a ∈ s.first?.toList ++ s.last?.toList, x < a) : s.contains x = false := by
    rw [Bool.eq_false_iff]
    intro hcontains
    have hne : s.dates ≠ [] := List.ne_nil_of_mem (List.contains_iff_mem.mp hcontains)
    rcases hx with hx | hx
    · have hlast : s.last? = some (s.dates.getLast hne) := List.getLast?_eq_some_getLast hne
      exact absurd (le_last? hlast hcontains) (Date.not_le.mpr (hx _ (by simp [hlast])))
    · have hfirst : s.first? = some (s.dates.head hne) := List.head?_eq_some_head hne
      exact absurd (first?_le hfirst hcontains) (Date.not_le.mpr (hx _ (by simp [hfirst])))
  rcases side with h | h
  · exact ⟨outside (.inl fun a ha => (h a ha).1), outside (.inl fun a ha => (h a ha).2)⟩
  · exact ⟨outside (.inr fun a ha => (h a ha).1), outside (.inr fun a ha => (h a ha).2)⟩

end DateSet

-- ---------------------------------------------------------------------------
-- What selectors look at
-- ---------------------------------------------------------------------------

/-- Two dates agree in what selectors of these kinds look at. -/
structure SelectorKinds.Agree (k : SelectorKinds) (d e : Date) : Prop where
  weekday : k.weekday = true → d.weekday = e.weekday
  occurrence : k.occurrence = true → d.weekday = e.weekday ∧ d.occurrence = e.occurrence ∧
    d.occurrenceFromEnd = e.occurrenceFromEnd
  month : k.month = true → d.month = e.month
  day : k.day = true → d.monthDay = e.monthDay
  week : k.week = true → d.isoWeek = e.isoWeek

namespace Weekdays

theorem contains_of_isEmpty {s : Weekdays} (h : s.isEmpty = true) (w : Weekday) :
    s.contains w = false := by
  have hbits : s.bits = 0 := by simpa [isEmpty] using h
  simp [contains, hbits]

theorem contains_full (w : Weekday) : full.contains w = true := by
  cases w <;> rfl

end Weekdays

namespace DaySelector

variable {s : DaySelector} {d e : Date}

theorem coversWeekday_congr
    (hweekday : (!s.weekdays.isEmpty && s.weekdays != Weekdays.full) = true → d.weekday = e.weekday)
    (hoccurrence : (!s.occurrences.isEmpty) = true → d.weekday = e.weekday ∧
      d.occurrence = e.occurrence ∧ d.occurrenceFromEnd = e.occurrenceFromEnd) :
    s.coversWeekday d = s.coversWeekday e := by
  have hplain : s.weekdays.contains d.weekday = s.weekdays.contains e.weekday := by
    by_cases hempty : s.weekdays.isEmpty = true
    · rw [Weekdays.contains_of_isEmpty hempty, Weekdays.contains_of_isEmpty hempty]
    · by_cases hfull : s.weekdays = Weekdays.full
      · rw [hfull, Weekdays.contains_full, Weekdays.contains_full]
      · rw [hweekday (by simp [hempty, hfull])]
  unfold coversWeekday
  rw [hplain]
  congr 1
  cases hnth : s.occurrences with
  | nil => rfl
  | cons entry entries =>
    obtain ⟨hday, hfirst, hlast⟩ := hoccurrence (by simp [hnth])
    simp only [Occurrences.covers, hday, hfirst, hlast]

theorem coversHoliday_congr {c : Context}
    (side : SameSide (s.holidays.flatMap fun kind =>
      (c.holidays kind).first?.toList ++ (c.holidays kind).last?.toList) d e) :
    s.coversHoliday c d = s.coversHoliday c e := by
  have none {x : Date} (hx : ∀ kind ∈ s.holidays, (c.holidays kind).contains x = false) :
      s.coversHoliday c x = false :=
    List.any_eq_false.mpr fun kind hkind => by simp [hx kind hkind]
  have both (kind) (hkind : kind ∈ s.holidays) := DateSet.contains_eq_false_of_sameSide
    (side.mono fun x hx => List.mem_flatMap.mpr ⟨kind, hkind, hx⟩)
  rw [none fun kind hkind => (both kind hkind).1, none fun kind hkind => (both kind hkind).2]

end DaySelector

namespace CalendarSpan

theorem covers_months_none (start stop : Nat) (d : Date) :
    (CalendarSpan.months none start stop).covers d = withinCycle d.month start stop :=
  rfl

theorem covers_of_isWholeYear {start stop : Nat} (hstop : IsMonth stop)
    (h : (CalendarSpan.months none start stop).isWholeYear = true) (d : Date) :
    (CalendarSpan.months none start stop).covers d = true := by
  have hmonth := Calendar.monthOf_bounds d.number
  unfold IsMonth at hstop
  simp only [isWholeYear, beq_iff_eq] at h
  rw [covers_months_none]
  unfold withinCycle Date.month
  split <;> simp only [Bool.and_eq_true, Bool.or_eq_true, decide_eq_true_eq] <;> omega

theorem covers_congr {r : CalendarSpan} (hr : r.WellFormed) {d e : Date}
    (side : SameSide (r.reach.first.toList ++ r.reach.last.toList) d e)
    (hmonth : (!r.isDays && !r.isWholeYear) = true → d.month = e.month)
    (hday : r.isDays = true → d.monthDay = e.monthDay) : r.covers d = r.covers e := by
  cases r with
  | months year start stop =>
    cases year with
    | none =>
      by_cases hwhole : (CalendarSpan.months none start stop).isWholeYear = true
      · rw [covers_of_isWholeYear hr.2.2 hwhole, covers_of_isWholeYear hr.2.2 hwhole]
      · rw [covers_months_none, covers_months_none, hmonth (by simp [isDays, hwhole])]
    | some year =>
      obtain ⟨b, hb⟩ := exists_bounds?_months hr
      exact covers_congr_of_bounds? hr hb side
  | days start stop =>
    obtain ⟨monthDay, year⟩ := start
    have hsame : d.monthDay = e.monthDay := hday rfl
    cases year with
    | none =>
      cases stop with
      | none =>
        show decide (monthDay ≤ d.monthDay) = decide (monthDay ≤ e.monthDay)
        rw [hsame]
      | some stop =>
        show withinCycle d.monthDay monthDay stop.toMonthDay = _
        rw [hsame]
        rfl
    | some year =>
      cases hb : (CalendarSpan.days ⟨monthDay, some year⟩ stop).bounds? with
      | none => rw [covers_days_of_year rfl, covers_days_of_year rfl, hb]; rfl
      | some b => exact covers_congr_of_bounds? hr hb side

end CalendarSpan

theorem Rule.anyCovers_congr {selectors : List α} {f g : α → Bool}
    (h : ∀ s ∈ selectors, f s = g s) :
    anyCovers selectors f = anyCovers selectors g := by
  unfold anyCovers
  congr 1
  rw [Bool.eq_iff_iff, List.any_eq_true, List.any_eq_true]
  exact exists_congr fun s => and_congr_right fun hs => by rw [h s hs]

/-- A rule covers both of two dates or neither, if they lie on the same side of the dates that it
names and agree in what its kinds look at. -/
theorem Rule.covers_congr {r : Rule} (hr : r.WellFormed) {c : Context} {d e : Date}
    (side : SameSide (r.namedDates c) d e) (agree : r.kinds.Agree d e) :
    r.covers c d = r.covers c e := by
  have hyears : anyCovers r.years (·.covers d.year) = anyCovers r.years (·.covers e.year) :=
    anyCovers_congr fun range hrange => YearSpan.covers_congr (hr.years range hrange)
      (side.mono fun x hx => by
        simp only [namedDates, List.mem_append, List.mem_flatMap] at hx ⊢
        exact .inl (.inl ⟨range, hrange, hx⟩))
  have hcalendar : anyCovers r.calendar (·.covers d) = anyCovers r.calendar (·.covers e) :=
    anyCovers_congr fun range hrange => CalendarSpan.covers_congr (hr.calendar range hrange)
      (side.mono fun x hx => by
        simp only [namedDates, List.mem_append, List.mem_flatMap] at hx ⊢
        exact .inl (.inr ⟨range, hrange, hx⟩))
      (fun hmonth => agree.month (List.any_eq_true.mpr ⟨range, hrange, hmonth⟩))
      (fun hday => agree.day (List.any_eq_true.mpr ⟨range, hrange, hday⟩))
  have hweeks : anyCovers r.weeks (·.covers d) = anyCovers r.weeks (·.covers e) :=
    anyCovers_congr fun range hrange => by
      have hweek := agree.week (by simp [kinds, List.ne_nil_of_mem hrange])
      simp only [WeekSpan.covers, hweek]
  have hdays : r.days.covers c d = r.days.covers c e := by
    have hweekday := DaySelector.coversWeekday_congr agree.weekday agree.occurrence
    have hholiday := DaySelector.coversHoliday_congr (side.mono fun x hx => by
      simp only [namedDates, List.mem_append]
      exact .inr hx)
    unfold DaySelector.covers
    rw [hweekday, hholiday]
  unfold covers
  rw [hyears, hcalendar, hweeks, hdays]

end OpeningTimes
