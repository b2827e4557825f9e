import OpeningTimes.Calendar.Date
import OpeningTimes.Proofs.Calendar.Years

/-!
# The calendar comes round

After 400 years all that depends on the calendar and on the weekday repeats. Any eight years hold
both a leap year and a common one.
-/

namespace OpeningTimes

namespace Calendar

theorem yearStart_add_cycles (year k : Int) :
    yearStart (year + 400 * k) = yearStart year + 146097 * k := by
  unfold yearStart; omega

theorem isLeap_add_cycles (year k : Int) : isLeap (year + 400 * k) = isLeap year := by
  rw [Bool.eq_iff_iff, isLeap_iff, isLeap_iff]
  omega

theorem yearOf_add_cycles (day k : Int) : yearOf (day + 146097 * k) = yearOf day + 400 * k := by
  have hlo := yearStart_yearOf_le day
  have hhi := lt_yearStart_succ_yearOf day
  have hnext : yearOf day + 400 * k + 1 = yearOf day + 1 + 400 * k := by omega
  rw [yearOf_eq_iff, hnext, yearStart_add_cycles, yearStart_add_cycles]
  omega

theorem dayOfYear_add_cycles (day k : Int) : dayOfYear (day + 146097 * k) = dayOfYear day := by
  have hday := dayOfYear_eq day
  have hlater := dayOfYear_eq (day + 146097 * k)
  rw [yearOf_add_cycles, yearStart_add_cycles] at hlater
  omega

theorem isLeap_yearOf_add_cycles (day k : Int) :
    isLeap (yearOf (day + 146097 * k)) = isLeap (yearOf day) := by
  rw [yearOf_add_cycles, isLeap_add_cycles]

/-- Leap years are at most eight years apart, and two years on end are never both leap years. -/
theorem exists_year_alike (after year : Int) :
    ∃ y, after < y ∧ y ≤ after + 8 ∧ isLeap y = isLeap year := by
  cases hleap : isLeap year with
  | true =>
    by_cases hnext : isLeap (after + 4 - after % 4) = true
    · exact ⟨_, by omega, by omega, hnext⟩
    · refine ⟨after + 8 - after % 4, by omega, by omega, ?_⟩
      rw [isLeap_iff] at hnext ⊢
      omega
  | false =>
    by_cases hnext : isLeap (after + 1) = true
    · refine ⟨after + 2, by omega, by omega, ?_⟩
      rw [Bool.eq_false_iff, ne_eq, isLeap_iff]
      rw [isLeap_iff] at hnext
      omega
    · exact ⟨after + 1, by omega, by omega, by simpa using hnext⟩

end Calendar

open Calendar

namespace Weekday

theorem indexOfDay_add_weeks (day k : Int) : indexOfDay (day + 7 * k) = indexOfDay day := by
  unfold indexOfDay
  omega

end Weekday

namespace Date

variable {d e : Date}

theorem weekday_of_weeks (h : d.number % 7 = e.number % 7) : d.weekday = e.weekday := by
  have he : e.number = d.number + 7 * (e.number / 7 - d.number / 7) := by omega
  unfold weekday Weekday.ofDay
  rw [he, Weekday.indexOfDay_add_weeks]

section

variable (h : d.number % 146097 = e.number % 146097)
include h

theorem exists_cycles : ∃ k, e.number = d.number + 146097 * k :=
  ⟨e.number / 146097 - d.number / 146097, by omega⟩

theorem month_of_cycle : d.month = e.month := by
  obtain ⟨k, hk⟩ := exists_cycles h
  unfold month
  rw [hk]
  exact (monthOf_congr (isLeap_yearOf_add_cycles ..) (dayOfYear_add_cycles ..)).symm

theorem day_of_cycle : d.day = e.day := by
  obtain ⟨k, hk⟩ := exists_cycles h
  unfold day
  rw [hk]
  exact (dayOfMonth_congr (isLeap_yearOf_add_cycles ..) (dayOfYear_add_cycles ..)).symm

theorem weekday_of_cycle : d.weekday = e.weekday :=
  weekday_of_weeks (by omega)

theorem isoWeek_of_cycle : d.isoWeek = e.isoWeek := by
  obtain ⟨k, hk⟩ := exists_cycles h
  have hweeks : d.number + 146097 * k = d.number + 7 * (20871 * k) := by omega
  have hindex : Weekday.indexOfDay e.number = Weekday.indexOfDay d.number := by
    rw [hk, hweeks, Weekday.indexOfDay_add_weeks]
  have hthursday : e.number - Weekday.indexOfDay d.number + 3 =
      d.number - Weekday.indexOfDay d.number + 3 + 146097 * k := by omega
  unfold isoWeek
  rw [hindex, hthursday, dayOfYear_add_cycles]

theorem occurrence_of_cycle : d.occurrence = e.occurrence := by
  unfold occurrence
  rw [day_of_cycle h]

theorem occurrenceFromEnd_of_cycle : d.occurrenceFromEnd = e.occurrenceFromEnd := by
  obtain ⟨k, hk⟩ := exists_cycles h
  have hlength := monthLength_congr (isLeap_yearOf_add_cycles d.number k) d.month
  unfold occurrenceFromEnd
  rw [← day_of_cycle h, ← month_of_cycle h, year, year, hk, hlength]

end

end Date

end OpeningTimes
