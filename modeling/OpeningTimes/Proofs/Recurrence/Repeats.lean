import OpeningTimes.Proofs.Recurrence.Period

/-!
# How rules come round

On the dates after all that its rules name, and on those before, a schedule is covered by the same
rules over and over. The period of the rules that are alive says after how long.
-/

namespace OpeningTimes

namespace Schedule

def SameRules (s : Schedule) (d e : Date) : Prop :=
  ∀ r ∈ s.rules, r.covers s.context d = r.covers s.context e

/-- What a period says of the dates on one side: no rule covers any of them, or the same rules cover
two of them that are a week apart, on the same day of the year, or a whole cycle of the calendar
apart. -/
def RepeatsOn (s : Schedule) (side : Date → Prop) : Period → Prop
  | .constant => ∀ d, side d → ∀ r ∈ s.rules, r.covers s.context d = false
  | .weekly => ∀ d e, side d → side e → d.shift? 7 = some e → s.SameRules d e
  | .yearly => ∀ d e, side d → side e → d.month = e.month → d.day = e.day → s.SameRules d e
  | .gregorian => ∀ d e, side d → side e → d.shift? 146097 = some e → s.SameRules d e

theorem not_alive_of_constant {s : Schedule} {alive : Rule → Bool}
    (h : periodOf (s.rules.filter alive) = .constant) : ∀ r ∈ s.rules, ¬ alive r = true := by
  cases hfilter : s.rules.filter alive with
  | nil => exact List.filter_eq_nil_iff.mp hfilter
  | cons r rs =>
    simp only [hfilter, periodOf, Period.ofKinds, List.isEmpty_cons, Bool.false_eq_true,
      if_false] at h
    split at h
    · cases h
    · split at h <;> cases h

/-- The period of the rules that are alive on some side holds there, if no other rule covers a date
of it and dates alike in the period have the same rules. -/
theorem repeatsOn_of_alike {s : Schedule} {side : Date → Prop} {alive : Rule → Bool}
    (dead : ∀ d, side d → ∀ r ∈ s.rules, r.covers s.context d = true → alive r = true)
    (same : ∀ d e, side d → side e → (periodOf (s.rules.filter alive)).Alike d e →
      s.SameRules d e) :
    s.RepeatsOn side (periodOf (s.rules.filter alive)) := by
  cases hperiod : periodOf (s.rules.filter alive) with
  | constant =>
    intro d hd r hr
    rw [Bool.eq_false_iff]
    exact fun hcovers => not_alive_of_constant hperiod r hr (dead d hd r hr hcovers)
  | weekly =>
    intro d e hd he hshift
    have hweek := Date.shift?_eq_some_iff.mp hshift
    apply same d e hd he
    rw [hperiod]
    exact Date.weekday_of_weeks (by omega)
  | yearly =>
    intro d e hd he hmonth hday
    apply same d e hd he
    rw [hperiod]
    show d.monthDay = e.monthDay
    simp [Date.monthDay, hmonth, hday]
  | gregorian =>
    intro d e hd he hshift
    have hcycle := Date.shift?_eq_some_iff.mp hshift
    apply same d e hd he
    rw [hperiod]
    show d.number % 146097 = e.number % 146097
    omega

-- ---------------------------------------------------------------------------
-- Both directions
-- ---------------------------------------------------------------------------

/-- After all dates that the rules name, the period of the rules that still last holds, and before
all of them, the period of the rules that have started by then. -/
theorem periods_hold_beyond_window {raw : String} {rules : List Rule}
    (h : Rule.ofText raw = .ok rules) (c : Context) (base : Date) :
    let s : Schedule := ⟨rules, c⟩
    ((∀ window ∈ s.window?, window.2 < base) → s.RepeatsOn (base ≤ ·) (s.periodAfter base)) ∧
      ((∀ window ∈ s.window?, base < window.1) → s.RepeatsOn (· ≤ base) (s.periodBefore base)) := by
  intro s
  have wellFormed : s.WellFormed := Rule.wellFormed_of_ofText h
  constructor
  · intro hwindow
    apply repeatsOn_of_alike
    · intro d hd r hr hcovers
      exact (Rule.reach_contains (wellFormed r hr) hcovers).lastsTo hd
    · intro d e hd he alike
      exact covers_congr_after wellFormed hwindow hd he alike
  · intro hwindow
    apply repeatsOn_of_alike
    · intro d hd r hr hcovers
      exact (Rule.reach_contains (wellFormed r hr) hcovers).startsBy hd
    · intro d e hd he alike
      exact covers_congr_before wellFormed hwindow hd he alike

/-- From 2031 on the Mondays of January come round with the calendar, and by the end of 2023 no rule
has started. -/
theorem periods_hold_beyond_window_2031 :
    ∃ rules, Rule.ofText "2024+ Jan Mo 10:00-12:00; 2030 off" = .ok rules ∧
      let s : Schedule := ⟨rules, {}⟩
      let after : Date := ⟨741808, by decide, by decide⟩
      let before : Date := ⟨739250, by decide, by decide⟩
      Date.newYear? 2031 = some after ∧ Date.newYearsEve? 2023 = some before ∧
        (∀ window ∈ s.window?, window.2 < after) ∧ (∀ window ∈ s.window?, before < window.1) ∧
        s.periodAfter after = .gregorian ∧ s.RepeatsOn (after ≤ ·) .gregorian ∧
        s.periodBefore before = .constant ∧ s.RepeatsOn (· ≤ before) .constant := by
  have parsed : Rule.ofText "2024+ Jan Mo 10:00-12:00; 2030 off" = .ok
      [⟨[⟨2024, none, 1⟩], [.months none 1 1], [], { weekdays := .ofDay .monday },
        [⟨.fixed 600, some (.fixed 720), false⟩], .opened, none, .replace⟩,
      ⟨[⟨2030, some 2030, 1⟩], [], [], {}, [], .closed, none, .replace⟩] := rfl
  refine ⟨_, parsed, ?_⟩
  intro s after before
  have afterWindow : ∀ window ∈ s.window?, window.2 < after := by decide +kernel
  have beforeWindow : ∀ window ∈ s.window?, before < window.1 := by decide +kernel
  have gregorian : s.periodAfter after = .gregorian := by decide +kernel
  have constant : s.periodBefore before = .constant := by decide +kernel
  refine ⟨by decide +kernel, by decide +kernel, afterWindow, beforeWindow, gregorian, ?_,
    constant, ?_⟩
  · rw [← gregorian]
    exact (periods_hold_beyond_window parsed {} after).1 afterWindow
  · rw [← constant]
    exact (periods_hold_beyond_window parsed {} before).2 beforeWindow

end Schedule

end OpeningTimes
