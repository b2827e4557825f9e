import Mathlib.Algebra.Group.Int.Defs
import Mathlib.Algebra.Group.Nat.Defs
import OpeningTimes.Proofs.Expression.RulesRead
import OpeningTimes.Schedule.Day

/-!
# Spans of time go forward

A span of a rule that is read from a text has its start and its stop within two days, and no step on
the way to them overflows a word of 32 bits. It goes forward, but for one that starts with the last
midnight of its day and stops with the first one: a day is added to its stop, which is then where it
starts.
-/

namespace OpeningTimes

-- ---------------------------------------------------------------------------
-- Bounds
-- ---------------------------------------------------------------------------

theorem TimePoint.minute_le {p : TimePoint} {last : Nat} (h : p.WellFormed last)
    (hlast : 1440 ≤ last) (c : Context) : p.minute c ≤ last := by
  cases p with
  | fixed minute => exact h
  | solar event offset => simp only [minute]; omega

namespace TimeRange

/-- From the last midnight of a day to its first one. -/
def RunsMidnightToMidnight (s : TimeRange) (c : Context) : Prop :=
  s.start.minute c = 1440 ∧ ∃ stop ∈ s.stop, stop.minute c = 0

section

variable {s : TimeRange} (h : s.WellFormed) (c : Context)
include h

theorem minutes_cases :
    ((¬ s.RunsMidnightToMidnight c ∧ (s.minutes c).start < (s.minutes c).stop) ∨
      (s.RunsMidnightToMidnight c ∧ (s.minutes c).start = 1440 ∧ (s.minutes c).stop = 1440)) ∧
      (s.minutes c).stop ≤ 2880 := by
  obtain ⟨hstart, hstop⟩ := h
  have hstart := TimePoint.minute_le hstart (Nat.le_refl _) c
  cases hs : s.stop with
  | none =>
    simp only [RunsMidnightToMidnight, minutes, hs, Option.not_mem_none, false_and, exists_false,
      and_false, not_false_eq_true, true_and, or_false]
    split <;> split <;> omega
  | some stop =>
    simp only [hs] at hstop
    have hstop := TimePoint.minute_le hstop (by decide) c
    simp only [RunsMidnightToMidnight, minutes, hs, Option.mem_some_iff, exists_eq_left']
    split <;> omega

theorem minutes_bounds :
    ((s.minutes c).start < (s.minutes c).stop ∨
      (s.minutes c).start = 1440 ∧ (s.minutes c).stop = 1440) ∧ (s.minutes c).stop ≤ 2880 := by
  obtain ⟨hcases, hstop⟩ := minutes_cases h c
  exact ⟨hcases.imp And.right And.right, hstop⟩

theorem minutes_start_lt_stop_iff :
    (s.minutes c).start < (s.minutes c).stop ↔ ¬ s.RunsMidnightToMidnight c := by
  rcases (minutes_cases h c).1 with ⟨hruns, hlt⟩ | ⟨hruns, hstart, hstop⟩
  · exact iff_of_true hlt hruns
  · exact iff_of_false (by omega) (not_not_intro hruns)

end

end TimeRange

-- ---------------------------------------------------------------------------
-- Words
-- ---------------------------------------------------------------------------

/-- A number that a word of 32 bits holds. -/
def word? (n : Nat) : Option Nat := if n < 2 ^ 32 then some n else none

/-- A number that a word of 32 bits with a sign holds. -/
def signedWord? (n : Int) : Option Int := if -2 ^ 31 ≤ n ∧ n < 2 ^ 31 then some n else none

theorem word?_of_lt {n : Nat} (h : n < 2 ^ 32) : word? n = some n := if_pos h

theorem signedWord?_of_bounds {n : Int} (h : -2 ^ 31 ≤ n ∧ n < 2 ^ 31) : signedWord? n = some n :=
  if_pos h

/-- The minute of a time by words, unless one overflows on the way. -/
def TimePoint.minuteInWords? (c : Context) : TimePoint → Option Nat
  | .fixed minute => word? minute
  | .solar event offset => do
    let base ← signedWord? (c.solar.minute event).val
    let shift ← signedWord? offset
    let shifted ← signedWord? (base + shift)
    word? (max 0 (min 1440 shifted)).toNat

/-- The stop of a span by words, a day later where it does not come after the start. -/
def stopAfterInWords? (start stop : Nat) : Option Nat :=
  if stop ≤ start then word? (stop + 1440) else some stop

def TimeRange.minutesInWords? (s : TimeRange) (c : Context) : Option MinuteSpan := do
  let start ← s.start.minuteInWords? c
  let written ← match s.stop with
    | some stop => stop.minuteInWords? c
    | none => some (if start < 1440 then 1440 else 2880)
  let stop ← stopAfterInWords? start written
  return ⟨start, min stop 2880, s.openEnd⟩

theorem TimePoint.minuteInWords?_eq {p : TimePoint} {last : Nat} (h : p.WellFormed last)
    (hlast : last ≤ 2880) (c : Context) : p.minuteInWords? c = some (p.minute c) := by
  cases p with
  | fixed minute => exact word?_of_lt (Nat.lt_of_le_of_lt h (by omega))
  | solar event offset =>
    have hbase := (c.solar.minute event).isLt
    obtain ⟨hlow, hhigh⟩ : -1440 ≤ offset ∧ offset ≤ 1440 := h
    have base : signedWord? (c.solar.minute event).val = some ((c.solar.minute event).val : Int) :=
      signedWord?_of_bounds (by omega)
    have shift : signedWord? offset = some offset := signedWord?_of_bounds (by omega)
    have shifted : signedWord? ((c.solar.minute event).val + offset) =
      some ((c.solar.minute event).val + offset) := signedWord?_of_bounds (by omega)
    simp only [minuteInWords?, base, shift, shifted, Option.bind_eq_bind, Option.bind_some]
    exact word?_of_lt (by omega)

theorem stopAfterInWords?_eq {start stop : Nat} (h : stop ≤ 2880) :
    stopAfterInWords? start stop = some (if stop ≤ start then stop + 1440 else stop) := by
  unfold stopAfterInWords?
  split
  · exact word?_of_lt (by omega)
  · rfl

theorem TimeRange.minutesInWords?_eq {s : TimeRange} (h : s.WellFormed) (c : Context) :
    s.minutesInWords? c = some (s.minutes c) := by
  obtain ⟨hstart, hstop⟩ := h
  have start := TimePoint.minuteInWords?_eq hstart (by decide) c
  cases hs : s.stop with
  | none =>
    have hle : (if s.start.minute c < 1440 then 1440 else 2880) ≤ 2880 := by split <;> omega
    simp only [minutesInWords?, minutes, hs, start, stopAfterInWords?_eq hle, Option.bind_eq_bind,
      Option.bind_some, Option.pure_def]
  | some stop =>
    simp only [hs] at hstop
    have written := TimePoint.minuteInWords?_eq hstop (Nat.le_refl _) c
    have hle := TimePoint.minute_le hstop (by decide) c
    simp only [minutesInWords?, minutes, hs, start, written, stopAfterInWords?_eq hle,
      Option.bind_eq_bind, Option.bind_some, Option.pure_def]

-- ---------------------------------------------------------------------------
-- The spans of an expression
-- ---------------------------------------------------------------------------

namespace Rule

/-- A span of a rule lies within two days, without an overflow on the way, and goes forward unless
it runs from the last midnight of its day to the first one. -/
theorem minutes_go_forward {raw : String} {rules : List Rule} (h : ofText raw = .ok rules)
    (c : Context) : ∀ r ∈ rules, ∀ s ∈ r.times,
      s.minutesInWords? c = some (s.minutes c) ∧
        (s.minutes c).start ≤ (s.minutes c).stop ∧ (s.minutes c).stop ≤ 2880 ∧
        ((s.minutes c).start < (s.minutes c).stop ↔ ¬ s.RunsMidnightToMidnight c) := by
  intro r hr s hs
  have wellFormed : s.WellFormed := (wellFormed_of_ofText h r hr).times s hs
  have hbounds := TimeRange.minutes_bounds wellFormed c
  refine ⟨TimeRange.minutesInWords?_eq wellFormed c, ?_, hbounds.2,
    TimeRange.minutes_start_lt_stop_iff wellFormed c⟩
  omega

/-- A shifted sunset that stays at the end of its day, and the shortest span that can follow it. -/
theorem minutes_go_forward_one_minute :
    ∃ rules, ofText "Mo (sunset+08:00)-00:01" = .ok rules ∧
      ∃ r ∈ rules, ∃ s ∈ r.times, s.minutes {} = ⟨1440, 1441, false⟩ ∧
        s.minutesInWords? {} = some (s.minutes {}) ∧
        (s.minutes {}).start < (s.minutes {}).stop := by
  let span : TimeRange := ⟨.solar .sunset 480, some (.fixed 1), false⟩
  have parsed : ofText "Mo (sunset+08:00)-00:01" = .ok
      [⟨[], [], [], { weekdays := .ofDay .monday }, [span], .opened, none, .replace⟩] := rfl
  refine ⟨_, parsed, _, List.mem_singleton_self _, span,
    List.mem_singleton_self _, by decide +kernel, ?_⟩
  obtain ⟨words, -, -, forward⟩ :=
    minutes_go_forward parsed {} _ (List.mem_singleton_self _) span (List.mem_singleton_self _)
  refine ⟨words, forward.mpr ?_⟩
  rintro ⟨-, stop, hstop, hzero⟩
  obtain rfl : TimePoint.fixed 1 = stop := Option.some.inj hstop
  exact absurd hzero (by decide)

/-- A span that starts with the last midnight of Monday and stops with the first one is empty, and
the place is closed on Tuesday at midnight. -/
theorem minutes_midnight_to_midnight :
    ∃ rules, ofText "Mo 24:00-00:00" = .ok rules ∧
      (∃ r ∈ rules, ∃ s ∈ r.times, ¬ (s.minutes {}).start < (s.minutes {}).stop) ∧
      ((⟨rules, {}⟩ : Schedule).status (.midnight ⟨739385, by decide, by decide⟩)).state =
        .closed := by
  let span : TimeRange := ⟨.fixed 1440, some (.fixed 0), false⟩
  have parsed : ofText "Mo 24:00-00:00" = .ok
      [⟨[], [], [], { weekdays := .ofDay .monday }, [span], .opened, none, .replace⟩] := rfl
  exact ⟨_, parsed, ⟨_, List.mem_singleton_self _, span, List.mem_singleton_self _, by decide⟩,
    by decide +kernel⟩

end Rule

end OpeningTimes
