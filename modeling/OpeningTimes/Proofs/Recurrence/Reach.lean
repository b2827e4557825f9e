import OpeningTimes.Proofs.Calendar.Dates
import OpeningTimes.Proofs.Expression.WellFormed
import OpeningTimes.Recurrence.Window

/-!
# What lies within reach

A rule covers no date out of its reach. A range that is pinned to a year covers the dates between
its bounds, and these exist for every year that a text can name.
-/

namespace OpeningTimes

open Calendar

theorem IsYear.hasYear {year : Int} (h : IsYear year) : Date.HasYear year := by
  unfold IsYear at h
  unfold Date.HasYear
  omega

-- ---------------------------------------------------------------------------
-- Ranges with a year
-- ---------------------------------------------------------------------------

namespace CalendarSpan

theorem covers_months (year : Int) (start stop : Nat) (d : Date) :
    (CalendarSpan.months (some year) start stop).covers d =
      ((year < d.year || year == d.year && start ≤ d.month) &&
        (d.year < stopYear year (stop < start) ||
          d.year == stopYear year (stop < start) && d.month ≤ stop)) :=
  rfl

theorem covers_days_of_year {start : CalendarDay} {year : Int} (h : start.year = some year)
    (stop : Option CalendarDay) (d : Date) :
    (CalendarSpan.days start stop).covers d =
      (CalendarSpan.days start stop).bounds?.any (·.contains d) := by
  obtain ⟨monthDay, y⟩ := start
  obtain rfl : y = some year := h
  rfl

theorem months_hasYear {year : Int} (h : IsYear year) (wraps : Bool) :
    Date.HasYear (stopYear year wraps) ∧ Date.HasYear (stopYear year wraps + 1) := by
  unfold IsYear at h
  unfold stopYear Date.HasYear
  split <;> omega

theorem exists_bounds?_months {year : Int} {start stop : Nat}
    (h : (CalendarSpan.months (some year) start stop).WellFormed) :
    ∃ b, (CalendarSpan.months (some year) start stop).bounds? = some b := by
  obtain ⟨hyear, hstart, hstop⟩ := h
  have hyear : IsYear year := hyear year rfl
  have hlength := le_monthLength year hstart
  obtain ⟨first, hfirst⟩ := Date.exists_ofYearMonthDay? hyear.hasYear hstart
    (by omega : 1 ≤ 1 ∧ 1 ≤ monthLength year start)
  obtain ⟨hlast, hnext⟩ := months_hasYear hyear (stop < start)
  obtain ⟨after, hafter⟩ := Date.exists_afterMonth? hlast hnext hstop
  exact ⟨⟨first, some after⟩, by simp [bounds?, hfirst, hafter]⟩

theorem covers_of_bounds? {r : CalendarSpan} (h : r.WellFormed) {b : DateBounds}
    (hb : r.bounds? = some b) (d : Date) : r.covers d = b.contains d := by
  cases r with
  | months year start stop =>
    obtain ⟨-, hstart, hstop⟩ := h
    cases year with
    | none => simp [bounds?] at hb
    | some year =>
      simp only [bounds?, Option.bind_eq_bind, Option.bind_eq_some_iff, Option.pure_def,
        Option.some.injEq] at hb
      obtain ⟨first, hfirst, after, hafter, rfl⟩ := hb
      rw [Bool.eq_iff_iff]
      simp only [covers_months, DateBounds.contains, Option.all_some, Bool.and_eq_true,
        Bool.or_eq_true, decide_eq_true_eq, beq_iff_eq]
      rw [Date.monthStart_le_iff hstart hfirst, Date.lt_afterMonth_iff hstop hafter]
  | days start stop =>
    cases hyear : start.year with
    | none => simp [bounds?, hyear] at hb
    | some year => simp [covers_days_of_year hyear, hb]

theorem exists_pred?_of_bounds? {r : CalendarSpan} {b : DateBounds} {stop : Date}
    (hb : r.bounds? = some b) (hstop : b.stop = some stop) : ∃ last, stop.pred? = some last := by
  cases r with
  | months year start last =>
    cases year with
    | none => simp [bounds?] at hb
    | some year =>
      simp only [bounds?, Option.bind_eq_bind, Option.bind_eq_some_iff, Option.pure_def,
        Option.some.injEq] at hb
      obtain ⟨first, -, after, hafter, rfl⟩ := hb
      obtain rfl : after = stop := by simpa using hstop
      obtain ⟨monthStart, hstart, hnumber⟩ := Date.afterMonth?_eq_some_iff.mp hafter
      obtain ⟨⟨-, hlength⟩, -⟩ := Date.ofYearMonthDay?_eq_some_iff.mp hstart
      exact Date.exists_pred? (a := monthStart) (by rw [Date.lt_iff]; omega)
  | days start last =>
    cases last with
    | none =>
      simp only [bounds?, Option.bind_eq_bind, Option.bind_eq_some_iff, Option.pure_def,
        Option.some.injEq] at hb
      obtain ⟨year, -, first, -, rfl⟩ := hb
      simp at hstop
    | some last =>
      simp only [bounds?, Option.bind_eq_bind, Option.bind_eq_some_iff, Option.pure_def,
        Option.some.injEq] at hb
      obtain ⟨year, -, first, -, final, -, after, hafter, rfl⟩ := hb
      obtain rfl : after = stop := by simpa using hstop
      have := Date.shift?_eq_some_iff.mp hafter
      exact Date.exists_pred? (a := final) (by rw [Date.lt_iff]; omega)

end CalendarSpan

-- ---------------------------------------------------------------------------
-- The reach of selectors and rules
-- ---------------------------------------------------------------------------

namespace Reach

def Contains (r : Reach) (d : Date) : Prop :=
  (∀ first ∈ r.first, first ≤ d) ∧ ∀ last ∈ r.last, d ≤ last

theorem contains_unbounded (d : Date) : Contains {} d := by simp [Contains]

theorem exists_mem_of_mapM {f : Reach → Option Date} {reaches : List Reach} {dates : List Date}
    (h : reaches.mapM f = some dates) : ∀ r ∈ reaches, ∃ d ∈ dates, f r = some d := by
  induction reaches generalizing dates with
  | nil => simp
  | cons r rs ih =>
    simp only [List.mapM_cons, Option.bind_eq_bind, Option.bind_eq_some_iff, Option.pure_def,
      Option.some.injEq] at h
    obtain ⟨d, hd, ds, hds, rfl⟩ := h
    refine List.forall_mem_cons.mpr ⟨⟨d, by simp, hd⟩, fun r hr => ?_⟩
    obtain ⟨e, he, hre⟩ := ih hds r hr
    exact ⟨e, .tail _ he, hre⟩

theorem Contains.ofAny {reaches : List Reach} {r : Reach} {d : Date} (hr : r ∈ reaches)
    (h : r.Contains d) : (ofAny reaches).Contains d := by
  unfold Reach.ofAny
  cases hfirsts : reaches.mapM Reach.first with
  | none => exact contains_unbounded d
  | some firsts =>
    refine ⟨fun first hfirst => ?_, fun last hlast => ?_⟩
    · obtain ⟨e, he, hre⟩ := exists_mem_of_mapM hfirsts r hr
      have hmin := (List.min?_eq_some_iff.mp (Option.mem_def.mp hfirst)).2 e he
      exact Std.le_trans hmin (h.1 e hre)
    · simp only [Option.mem_def, Option.bind_eq_some_iff] at hlast
      obtain ⟨lasts, hlasts, hmax⟩ := hlast
      obtain ⟨e, he, hre⟩ := exists_mem_of_mapM hlasts r hr
      exact Std.le_trans (h.2 e hre) ((List.max?_eq_some_iff.mp hmax).2 e he)

theorem Contains.meet {a b : Reach} {d : Date} (ha : a.Contains d) (hb : b.Contains d) :
    (a.meet b).Contains d := by
  obtain ⟨afirst, alast⟩ := a
  obtain ⟨bfirst, blast⟩ := b
  constructor
  · intro first hfirst
    cases afirst <;> cases bfirst <;> simp only [Reach.meet, Option.merge, Option.mem_def,
      Option.some.injEq, reduceCtorEq] at hfirst <;> subst hfirst
    · exact hb.1 _ rfl
    · exact ha.1 _ rfl
    · exact Std.max_le_iff.mpr ⟨ha.1 _ rfl, hb.1 _ rfl⟩
  · intro last hlast
    cases alast <;> cases blast <;> simp only [Reach.meet, Option.merge, Option.mem_def,
      Option.some.injEq, reduceCtorEq] at hlast <;> subst hlast
    · exact hb.2 _ rfl
    · exact ha.2 _ rfl
    · exact Std.le_min_iff.mpr ⟨ha.2 _ rfl, hb.2 _ rfl⟩

theorem Contains.lastsTo {r : Reach} {d e : Date} (h : r.Contains e) (hle : d ≤ e) :
    r.lastsTo d = true := by
  unfold Reach.lastsTo
  cases hlast : r.last with
  | none => rfl
  | some last => exact decide_eq_true (Std.le_trans hle (h.2 last hlast))

theorem Contains.startsBy {r : Reach} {d e : Date} (h : r.Contains e) (hle : e ≤ d) :
    r.startsBy d = true := by
  unfold Reach.startsBy
  cases hfirst : r.first with
  | none => rfl
  | some first => exact decide_eq_true (Std.le_trans (h.1 first hfirst) hle)

end Reach

theorem YearSpan.reach_contains {r : YearSpan} {d : Date} (h : r.covers d.year = true) :
    r.reach.Contains d := by
  simp only [covers, Bool.and_eq_true, decide_eq_true_eq] at h
  obtain ⟨⟨hstart, hstop⟩, -⟩ := h
  refine ⟨fun first hfirst => (Date.newYear_le_iff hfirst).mpr hstart, fun last hlast => ?_⟩
  obtain ⟨stop, hstop', hlast⟩ := Option.bind_eq_some_iff.mp hlast
  rw [hstop'] at hstop
  exact (Date.le_newYearsEve_iff hlast).mpr (by simpa using hstop)

theorem CalendarSpan.reach_contains {r : CalendarSpan} (hr : r.WellFormed) {d : Date}
    (h : r.covers d = true) : r.reach.Contains d := by
  unfold reach
  cases hb : r.bounds? with
  | none => exact Reach.contains_unbounded d
  | some b =>
    rw [covers_of_bounds? hr hb, DateBounds.contains, Bool.and_eq_true, decide_eq_true_eq] at h
    refine ⟨fun first hfirst => ?_, fun last hlast => ?_⟩
    · obtain rfl : b.start = first := by simpa using hfirst
      exact h.1
    · obtain ⟨stop, hstop, hpred⟩ := Option.bind_eq_some_iff.mp hlast
      have hlt : d < stop := by simpa [hstop] using h.2
      exact (Date.le_pred_iff hpred).mpr hlt

namespace Rule

theorem anyCovers_eq_true_iff {selectors : List α} {covers : α → Bool} :
    anyCovers selectors covers = true ↔ selectors = [] ∨ ∃ s ∈ selectors, covers s = true := by
  simp [anyCovers]

theorem reach_contains {r : Rule} (hr : r.WellFormed) {c : Context} {d : Date}
    (h : r.covers c d = true) : r.reach.Contains d := by
  simp only [covers, Bool.and_eq_true, anyCovers_eq_true_iff] at h
  obtain ⟨⟨⟨hyears, hcalendar⟩, -⟩, -⟩ := h
  refine Reach.Contains.meet ?_ ?_
  · rcases hyears with hnil | ⟨range, hrange, hcovers⟩
    · rw [hnil]
      exact Reach.contains_unbounded d
    · exact .ofAny (List.mem_map_of_mem hrange) (YearSpan.reach_contains hcovers)
  · rcases hcalendar with hnil | ⟨range, hrange, hcovers⟩
    · rw [hnil]
      exact Reach.contains_unbounded d
    · exact .ofAny (List.mem_map_of_mem hrange)
        (CalendarSpan.reach_contains (hr.calendar range hrange) hcovers)

end Rule

end OpeningTimes
