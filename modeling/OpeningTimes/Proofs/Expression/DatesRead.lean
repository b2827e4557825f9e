import OpeningTimes.Expression.Grammar.Dates
import OpeningTimes.Proofs.Expression.Reading

/-!
# Date selectors as they are read

Each reader of a date selector gives a well-formed one: it checks the bounds of every number it
takes and the order of the two ends of a range.
-/

namespace OpeningTimes.Grammar

open Calendar

-- ---------------------------------------------------------------------------
-- Years
-- ---------------------------------------------------------------------------

theorem reads_year : Reads year IsYear := by
  refine reads_one fun t y ht hy => ?_
  split at hy
  · split at hy <;> cases hy
    unfold IsYear
    omega
  · cases hy

theorem reads_yearIfAny : Reads yearIfAny fun year => ∀ y ∈ year, IsYear y := by
  intro ts hts
  unfold yearIfAny
  split
  · exact (reads_year _ hts).map fun y rest hy hrest => ⟨by simpa using hy, hrest⟩
  · exact .ok (by simp) (List.suffix_refl _)

theorem isStep_one : IsStep 1 := ⟨Nat.le_refl _, by decide⟩

theorem reads_step : Reads step IsStep := by
  intro ts hts
  unfold step
  split
  · refine Reads.after (reads_one fun t n ht hn => ?_) hts (List.suffix_cons ..)
    split at hn
    · split at hn <;> cases hn
      exact ⟨‹_›, ht⟩
    · cases hn
  · exact .ok isStep_one (List.suffix_refl _)

theorem reads_yearSpan : Reads yearSpan YearSpan.WellFormed := by
  intro ts hts
  refine (reads_year ts hts).bind fun start ts' hstart hts' => ?_
  simp only
  split
  · exact .ok ⟨hstart, rfl⟩ ((List.suffix_cons ..).trans hts')
  · have hdash := (List.suffix_cons ..).trans hts'
    refine (reads_year.after hts hdash).bind fun stop rest hstop hrest => ?_
    simp only
    split
    · exact .fail hdash
    · refine (reads_step.after hts hrest).bind fun step rest hstep hrest => ?_
      exact .ok ⟨hstart, Int.not_lt.mp ‹_›, hstop.2, hstep⟩ hrest
  · exact .ok ⟨hstart, Int.le_refl _, hstart.2, isStep_one⟩ hts'

-- ---------------------------------------------------------------------------
-- Months and days of the year
-- ---------------------------------------------------------------------------

theorem reads_month : Reads month IsMonth := by
  refine reads_one fun t m ht hm => ?_
  split at hm <;> cases hm
  exact ht

theorem reads_day (month : Nat) : Reads (day month) fun d => 1 ≤ d ∧ d ≤ longestMonth month := by
  refine reads_one fun t d ht hd => ?_
  split at hd
  · split at hd <;> cases hd
    assumption
  · split at hd <;> cases hd
    assumption
  · cases hd

/-- The end of a range that starts with the given day. -/
def EndsRange (start last : CalendarDay) : Prop :=
  last.WellFormed ∧
    ∀ y' ∈ last.year, ∃ y ∈ start.year, y < y' ∨ y = y' ∧ start.toMonthDay ≤ last.toMonthDay

theorem exists_year_of_not_runsBackwards (start last : CalendarDay)
    (hyear : (last.year.isSome && start.year.isNone) = false)
    (h : runsBackwards start last = false) :
    ∀ y' ∈ last.year, ∃ y ∈ start.year, y < y' ∨ y = y' ∧ start.toMonthDay ≤ last.toMonthDay := by
  intro y' hy'
  cases hy : start.year with
  | none => simp_all
  | some y =>
    refine ⟨y, rfl, ?_⟩
    simp only [runsBackwards, hy, Option.mem_def.mp hy', Bool.or_eq_false_iff,
      decide_eq_false_iff_not, Bool.and_eq_false_iff, beq_eq_false_iff_ne, Bool.not_eq_false',
      decide_eq_true_eq] at h
    obtain ⟨hle, hne | hday⟩ := h
    · exact .inl (by omega)
    · rcases Int.lt_or_eq_of_le (Int.not_lt.mp hle) with hlt | heq
      · exact .inl hlt
      · exact .inr ⟨heq, hday⟩

theorem reads_lastDay {start : CalendarDay} (hstart : start.WellFormed) :
    Reads (lastDay start) (EndsRange start) := by
  intro ts hts
  unfold lastDay
  split
  · refine (reads_day start.month ts hts).bind fun d rest hd hrest => ?_
    exact .ok ⟨⟨⟨hstart.1.1, hd⟩, by simp⟩, by simp⟩ hrest
  · refine (reads_yearIfAny ts hts).bind fun y rest hy hrest => ?_
    simp only
    split
    · exact .fail (List.suffix_refl _)
    · rename_i hyear
      refine (reads_month.after hts hrest).bind fun m rest hm hrest => ?_
      refine ((reads_day m).after hts hrest).bind fun d rest hd hrest => ?_
      simp only
      split
      · exact .fail (List.suffix_refl _)
      · rename_i hback
        have horder := exists_year_of_not_runsBackwards start ⟨⟨m, d⟩, y⟩
          (Bool.eq_false_iff.mpr hyear)
          (Bool.eq_false_iff.mpr hback)
        exact .ok ⟨⟨⟨hm, hd⟩, hy⟩, horder⟩ hrest

theorem reads_daysFrom {start : CalendarDay} (hstart : start.WellFormed) :
    Reads (daysFrom start) CalendarSpan.WellFormed := by
  intro ts hts
  unfold daysFrom
  split
  · exact .ok ⟨hstart, by simp⟩ (List.suffix_cons ..)
  · refine ((reads_lastDay hstart).after hts (List.suffix_cons ..)).bind
      fun last rest hlast hrest => ?_
    refine .ok ⟨hstart, ?_⟩ hrest
    intro stop hstop
    cases hstop
    exact hlast
  · refine .ok ⟨hstart, ?_⟩ (List.suffix_refl _)
    intro stop hstop
    cases hstop
    exact ⟨⟨hstart.1, by simp⟩, by simp⟩

theorem reads_monthsTo {y : Option Int} {start : Nat} (hy : ∀ year ∈ y, IsYear year)
    (hstart : IsMonth start) : Reads (monthsTo y start) CalendarSpan.WellFormed := by
  intro ts hts
  refine (reads_yearIfAny ts hts).bind fun y' rest _ hrest => ?_
  refine (reads_month.after hts hrest).bind fun stop rest hstop hrest => ?_
  simp only
  split
  · split
    · exact .ok ⟨hy, hstart, hstop⟩ hrest
    · exact .fail (List.suffix_refl _)
  · exact .fail (List.suffix_refl _)
  · exact .ok ⟨hy, hstart, hstop⟩ hrest

theorem reads_monthsFrom {y : Option Int} {start : Nat} (hy : ∀ year ∈ y, IsYear year)
    (hstart : IsMonth start) : Reads (monthsFrom y start) CalendarSpan.WellFormed := by
  intro ts hts
  unfold monthsFrom
  split
  · split
    · exact (reads_monthsTo hy hstart).after hts (List.suffix_cons ..)
    · exact .ok ⟨hy, hstart, hstart⟩ (List.suffix_refl _)
  · exact .ok ⟨hy, hstart, hstart⟩ (List.suffix_refl _)

theorem reads_calendarSpan : Reads calendarSpan CalendarSpan.WellFormed := by
  intro ts hts
  refine (reads_yearIfAny ts hts).bind fun y rest hy hrest => ?_
  refine (reads_month.after hts hrest).bind fun m rest hm hrest => ?_
  simp only
  split
  · refine ((reads_day m).after hts hrest).bind fun d rest hd hrest => ?_
    exact (reads_daysFrom ⟨⟨hm, hd⟩, hy⟩).after hts hrest
  · exact (reads_monthsFrom hy hm).after hts hrest

-- ---------------------------------------------------------------------------
-- Weeks
-- ---------------------------------------------------------------------------

theorem reads_week : Reads week fun w => 1 ≤ w ∧ w ≤ 53 := by
  refine reads_one fun t w ht hw => ?_
  split at hw
  · split at hw <;> cases hw
    assumption
  · cases hw

theorem reads_weekSpan : Reads weekSpan WeekSpan.WellFormed := by
  intro ts hts
  refine (reads_week ts hts).bind fun start rest hstart hrest => ?_
  simp only
  split
  · refine (reads_week.after hts ((List.suffix_cons ..).trans hrest)).bind
      fun stop rest hstop hrest => ?_
    refine (reads_step.after hts hrest).bind fun step rest hstep hrest => ?_
    exact .ok ⟨hstart, hstop, hstep⟩ hrest
  · exact .ok ⟨hstart, hstart, isStep_one⟩ hrest

theorem reads_weeks : Reads weeks fun weeks => ∀ range ∈ weeks, range.WellFormed := by
  intro ts hts
  unfold weeks
  split
  · exact ((reads_items reads_weekSpan _).after hts (List.suffix_cons ..)).mono fun _ h => h.2
  · exact .ok (by simp) (List.suffix_refl _)

end OpeningTimes.Grammar
