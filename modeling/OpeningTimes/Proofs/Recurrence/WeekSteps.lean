import OpeningTimes.Proofs.Calendar.Cycle
import OpeningTimes.Proofs.Expression.RulesRead
import OpeningTimes.Schedule.Day

/-!
# Weeks in steps

A range of weeks that stays within a year selects every so many weeks from its first one on. One
that goes over the end of the year selects all of its weeks, whatever its step: so it keeps its step
only where that is a single week, or where no week comes after its first one.
-/

namespace OpeningTimes

open Calendar

namespace Date

theorem isoWeek_le (d : Date) : d.isoWeek ≤ 53 := by
  have hday := dayOfYear_lt (d.number - Weekday.indexOfDay d.number + 3)
  unfold yearLength at hday
  unfold isoWeek
  split at hday <;> omega

/-- Every week comes in some year; 2020 has 53 of them. -/
theorem exists_isoWeek (week : Nat) (hlow : 1 ≤ week) (hhigh : week ≤ 53) :
    ∃ d : Date, d.isoWeek = week := by
  have hstart : yearStart 2020 = 737790 := rfl
  let monday : Int := yearStart 2020 + (7 * (week - 1) + 1 : Nat) - 3
  have hindex : Weekday.indexOfDay monday = 0 := by
    unfold Weekday.indexOfDay
    omega
  have hthursday : monday - (0 : Nat) + 3 = yearStart 2020 + (7 * (week - 1) + 1 : Nat) := by omega
  have hlength : yearLength 2020 = 366 := rfl
  refine ⟨⟨monday, by omega, by omega⟩, ?_⟩
  rw [isoWeek, hindex, hthursday, dayOfYear_of_ordinal (by omega)]
  omega

end Date

namespace WeekSpan

def Wraps (s : WeekSpan) : Prop := s.stop < s.start

instance (s : WeekSpan) : Decidable s.Wraps := inferInstanceAs (Decidable (_ < _))

/-- From its first week on the range selects no week between its steps. -/
def KeepsStep (s : WeekSpan) : Prop :=
  ∀ d : Date, s.start ≤ d.isoWeek → s.covers d = true → s.step ∣ d.isoWeek - s.start

variable {s : WeekSpan} (h : s.WellFormed)
include h

theorem covers_from_start {d : Date} (hstart : s.start ≤ d.isoWeek) :
    s.covers d = true ↔ s.Wraps ∨ d.isoWeek ≤ s.stop ∧ s.step ∣ d.isoWeek - s.start := by
  obtain ⟨-, -, hstep, -⟩ := h
  have hmax : max s.step 1 = s.step := Nat.max_eq_left hstep
  unfold covers Wraps
  split
  · simp only [hmax, Bool.and_eq_true, decide_eq_true_eq, beq_iff_eq, ← Nat.dvd_iff_mod_eq_zero]
    grind
  · simp only [Bool.or_eq_true, decide_eq_true_eq]
    omega

theorem keepsStep_iff : s.KeepsStep ↔ ¬ s.Wraps ∨ s.step = 1 ∨ s.start = 53 := by
  constructor
  · intro hkeeps
    refine or_iff_not_imp_left.mpr fun hwraps => or_iff_not_imp_right.mpr fun hlast => ?_
    -- the week after the first one shows whether the range has another step
    obtain ⟨d, hd⟩ := Date.exists_isoWeek (s.start + 1) (by omega) (by have := h.1.2; omega)
    have hstart : s.start ≤ d.isoWeek := by omega
    have hdvd := hkeeps d hstart ((covers_from_start h hstart).mpr (.inl (not_not.mp hwraps)))
    rw [hd, Nat.add_sub_cancel_left] at hdvd
    exact Nat.dvd_one.mp hdvd
  · rintro hcases d hstart hcovers
    rcases hcases with hwithin | hstep | hlast
    · exact (((covers_from_start h hstart).mp hcovers).resolve_left hwithin).2
    · rw [hstep]
      exact Nat.one_dvd _
    · have hweek : d.isoWeek = s.start := by
        have := d.isoWeek_le
        omega
      rw [hweek, Nat.sub_self]
      exact Nat.dvd_zero _

end WeekSpan

namespace Rule

/-- From its first week on a range of weeks selects what its step and its end leave, but where it
goes over the end of the year it selects every week. So it keeps its step if it stays within the
year, counts single weeks or starts with the last week that a year can have. -/
theorem weeks_keep_step_within_year {raw : String} {rules : List Rule}
    (h : ofText raw = .ok rules) :
    ∀ r ∈ rules, ∀ s ∈ r.weeks,
      (∀ d : Date, s.start ≤ d.isoWeek →
        (s.covers d = true ↔ s.Wraps ∨ d.isoWeek ≤ s.stop ∧ s.step ∣ d.isoWeek - s.start)) ∧
      (s.KeepsStep ↔ ¬ s.Wraps ∨ s.step = 1 ∨ s.start = 53) := by
  intro r hr s hs
  have wellFormed : s.WellFormed := (wellFormed_of_ofText h r hr).weeks s hs
  exact ⟨fun d hstart => WeekSpan.covers_from_start wellFormed hstart,
    WeekSpan.keepsStep_iff wellFormed⟩

/-- Every fourth week from the first one on reaches the last week of 2020. -/
theorem weeks_keep_step_in_long_year :
    ∃ rules, ofText "week 01-53/4 Mo-Fr 08:00-12:00" = .ok rules ∧
      ∃ r ∈ rules, ∃ s ∈ r.weeks, s.KeepsStep ∧
        ∃ d, Date.ofYearMonthDay? 2020 12 31 = some d ∧ d.isoWeek = 53 ∧ s.covers d = true := by
  have parsed : ofText "week 01-53/4 Mo-Fr 08:00-12:00" = .ok
      [⟨[], [], [⟨1, 53, 4⟩], { weekdays := .range .monday .friday },
        [⟨.fixed 480, some (.fixed 720), false⟩], .opened, none, .replace⟩] := rfl
  obtain ⟨hcovers, hkeeps⟩ :=
    weeks_keep_step_within_year parsed _ (List.mem_singleton_self _) ⟨1, 53, 4⟩
      (List.mem_singleton_self _)
  exact ⟨_, parsed, _, List.mem_singleton_self _, _, List.mem_singleton_self _,
    hkeeps.mpr (.inl (by decide)), ⟨738155, by decide, by decide⟩, by decide, by decide,
    (hcovers _ (by decide)).mpr (.inr (by decide))⟩

/-- Week 51 of 2024 lies between the steps of a range that goes over the end of the year. -/
theorem weeks_skip_step_over_new_year :
    ∃ rules, ofText "week 50-10/2" = .ok rules ∧
      ∃ d, Date.ofYearMonthDay? 2024 12 16 = some d ∧
        (∃ r ∈ rules, ∃ s ∈ r.weeks, s.start ≤ d.isoWeek ∧ s.covers d = true ∧
          ¬ s.step ∣ d.isoWeek - s.start) ∧
        ((⟨rules, {}⟩ : Schedule).status ⟨d, .ofMinute 720 (by decide)⟩).state = .opened := by
  have parsed : ofText "week 50-10/2" = .ok
      [⟨[], [], [⟨50, 10, 2⟩], {}, [], .opened, none, .replace⟩] := rfl
  exact ⟨_, parsed, ⟨739601, by decide, by decide⟩, by decide,
    ⟨_, List.mem_singleton_self _, _, List.mem_singleton_self _, by decide, by decide, by decide⟩,
    by decide +kernel⟩

end Rule

end OpeningTimes
