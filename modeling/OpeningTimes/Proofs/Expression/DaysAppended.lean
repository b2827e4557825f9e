import OpeningTimes.Proofs.Expression.DatesAppended

/-!
# Day selectors with others after them

Weekdays and holidays, and with them all date selectors of a rule.
-/

namespace OpeningTimes.Grammar

-- ---------------------------------------------------------------------------
-- Weekdays and holidays
-- ---------------------------------------------------------------------------

theorem carries_weekday {tail : List Lexeme} (ts : List Lexeme) :
    Carries tail Lexeme.isDaily ts (weekday ts) (weekday (ts ++ tail)) := by
  refine carries_one (fun u w hw => ?_) ts
  split at hw
  · rfl
  · cases hw

theorem carries_occurrenceNumber {tail : List Lexeme} (ts : List Lexeme) :
    Carries tail Lexeme.isDaily ts (occurrenceNumber ts) (occurrenceNumber (ts ++ tail)) := by
  refine carries_one (fun u n hn => ?_) ts
  split at hn
  · rfl
  · cases hn

section

variable {t : Lexeme} {T : List Lexeme} (ht : t.isBreak = true)
include ht

theorem startsWeekday_append (ts : List Lexeme) :
    startsWeekday (ts ++ t :: T) = startsWeekday ts := by
  cases ts with
  | nil => cases t <;> first | rfl | cases ht
  | cons u ts => cases u <;> rfl

theorem carries_occurrenceEntry (ts : List Lexeme) :
    Carries (t :: T) Lexeme.isDaily ts (occurrenceEntry ts) (occurrenceEntry (ts ++ t :: T)) := by
  fun_cases occurrenceEntry ts
  case case1 ts => exact .cons rfl ((carries_occurrenceNumber ts).bind fun n rest _ => .ok _)
  case case2 hnegative =>
    rw [occurrenceEntry.eq_2 _ (first_append ht hnegative rfl)]
    refine (carries_occurrenceNumber ts).bind fun first rest _ => ?_
    simp only
    split
    · refine .cons rfl ((carries_occurrenceNumber _).bind fun last rest _ => ?_)
      simp only
      split
      · exact .fail
      · exact .ok _
    · rename_i hdash
      split
      · exact absurd ‹_› (first_append ht hdash rfl _)
      · exact .ok _

theorem carries_weekdayEntry (ts : List Lexeme) :
    Carries (t :: T) Lexeme.isDaily ts (weekdayEntry ts) (weekdayEntry (ts ++ t :: T)) := by
  refine (carries_weekday ts).bind fun first rest _ => ?_
  simp only
  split
  · refine .cons rfl ?_
    refine (carries_items (carries_occurrenceEntry ht _)
      (fun _ us _ => carries_occurrenceEntry ht us) rfl fun _ => rfl).bind fun entries rest _ => ?_
    exact (carries_mark (rfl) rest).bind fun _ rest _ => .ok _
  · exact .cons rfl ((carries_weekday _).bind fun last rest _ => .ok _)
  · rename_i hbracket hdash
    split
    · exact absurd ‹_› (first_append ht hbracket rfl _)
    · exact absurd ‹_› (first_append ht hdash rfl _)
    · exact .ok _

theorem carries_dayEntry (ts : List Lexeme) :
    Carries (t :: T) Lexeme.isDaily ts (dayEntry ts) (dayEntry (ts ++ t :: T)) := by
  fun_cases dayEntry ts
  case case1 kind ts => exact .cons rfl (.ok _)
  case case2 w ts => exact carries_weekdayEntry ht (.weekday w :: ts)
  case case3 => exact .fail

theorem carries_daySelector (ts : List Lexeme) :
    Carries (t :: T) Lexeme.isDaily ts (daySelector ts) (daySelector (ts ++ t :: T)) := by
  refine (carries_items (carries_dayEntry ht ts) (fun _ us _ => carries_dayEntry ht us) rfl
    (startsDayEntry_append ht)).bind fun entries rest _ => ?_
  simp only [startsWeekday_append ht]
  split
  · exact (carries_items (carries_weekdayEntry ht rest)
      (fun _ us _ => carries_weekdayEntry ht us) rfl
      (startsWeekday_append ht)).bind fun more rest _ => .ok _
  · exact .ok _

theorem carries_optionalDaySelector (ts : List Lexeme) : Carries (t :: T) Lexeme.isDaily ts
    (optionalDaySelector ts) (optionalDaySelector (ts ++ t :: T)) := by
  unfold optionalDaySelector
  rw [startsDayEntry_append ht]
  split
  · exact carries_daySelector ht ts
  · exact .ok _

end

-- ---------------------------------------------------------------------------
-- All date selectors
-- ---------------------------------------------------------------------------

/-- Weeks, and then weekdays and holidays, between which a colon may stand if fewer lexemes are left
than the number says. -/
def weeksAndDays (start : Nat) : Reader (List WeekSpan × DaySelector) := fun ts => do
  let (weeks, ts) ← weeks ts
  let (days, ts) ← optionalDaySelector (if ts.length < start then skipColon ts else ts)
  return ((weeks, days), ts)

/-- The first part of a rule, before its times. -/
def dates :
    Reader (List YearSpan × List CalendarSpan × List WeekSpan × DaySelector) := fun start => do
  let (years, ts) ← optionalItems yearSpan startsYear start
  let (calendar, ts) ← optionalItems calendarSpan startsCalendarSpan ts
  let ((weeks, days), ts) ← weeksAndDays start.length ts
  return ((years, calendar, weeks, days), ts)

theorem rule_eq (layering : Layering) (start : List Lexeme) : rule layering start = (do
    let ((years, calendar, weeks, days), ts) ← dates start
    let (times, ts) ← times ts
    let (state, ts) := stated ts
    let (comment, rest) := comment ts
    if rest.length < start.length then
      let commentAlone := comment.isSome && ts.length == start.length
      let state := state.getD (impliedState commentAlone)
      return ({ years, calendar, weeks, days, times, state, comment, layering }, rest)
    else fail .rule start) := by
  simp only [rule, dates, weeksAndDays, bind_assoc, pure_bind]

theorem endsInLoneMonth_of_isCount {before : List Lexeme} (h : ∀ u ∈ before, u.isCount = true)
    (ts : List Lexeme) : endsInLoneMonth (before ++ ts) = endsInLoneMonth ts := by
  induction before with
  | nil => rfl
  | cons u before ih =>
    obtain ⟨hu, hbefore⟩ := List.forall_mem_cons.mp h
    rw [← ih hbefore]
    cases u <;> first | rfl | cases hu

theorem endsInLoneMonth_of_comma (before ts : List Lexeme) :
    endsInLoneMonth (before ++ .mark .comma :: ts) = endsInLoneMonth ts := by
  induction before with
  | nil => rfl
  | cons u before ih =>
    have hne {us : List Lexeme} (hus : .mark .comma ∉ us) : before ++ .mark .comma :: ts ≠ us := by
      rintro rfl
      exact hus (by simp)
    rw [← ih]
    exact endsInLoneMonth.eq_4 _ _ (fun _ _ _ => hne (by simp)) (fun _ _ _ _ => hne (by simp))
      fun _ _ => hne (by simp)

theorem skipColon_taken (ts : List Lexeme) :
    ∃ taken, ts = taken ++ skipColon ts ∧ ∀ u ∈ taken, u.isDaily = true := by
  fun_cases skipColon ts
  case case1 ts => exact ⟨[.mark .colon], rfl, List.forall_mem_singleton.mpr rfl⟩
  case case2 => exact ⟨[], rfl, by simp⟩

section

variable {t : Lexeme} {T ts rest : List Lexeme} (ht : t.isBreak = true)
include ht

theorem skipColon_append (ts : List Lexeme) :
    skipColon (ts ++ t :: T) = skipColon ts ++ t :: T := by
  fun_cases skipColon ts
  case case1 => rfl
  case case2 hcolon => rw [skipColon.eq_2 _ (first_append ht hcolon rfl)]

theorem carries_optionalYears (ts : List Lexeme) : Carries (t :: T) Lexeme.isCount ts
    (optionalItems yearSpan startsYear ts) (optionalItems yearSpan startsYear (ts ++ t :: T)) :=
  carries_optionalItems (carries_yearSpan ht ts) (fun _ us _ => carries_yearSpan ht us) rfl
    (startsYear_append ht)

theorem carries_optionalCalendar (hday : startsDay (t :: T) = false ∨ endsInLoneMonth ts = false) :
    Carries (t :: T) Lexeme.isCalendar ts (optionalItems calendarSpan startsCalendarSpan ts)
      (optionalItems calendarSpan startsCalendarSpan (ts ++ t :: T)) := by
  refine carries_optionalItems (carries_calendarSpan ht hday) (fun before us hus => ?_) rfl
    (startsCalendarSpan_append ht)
  rw [hus, endsInLoneMonth_of_comma] at hday
  exact carries_calendarSpan ht hday

theorem carries_colonAndDays (start : Nat) (ts : List Lexeme) : Carries (t :: T) Lexeme.isDaily ts
    (optionalDaySelector (if ts.length < start then skipColon ts else ts))
    (optionalDaySelector
      (if (ts ++ t :: T).length < start + (t :: T).length then skipColon (ts ++ t :: T)
        else ts ++ t :: T)) := by
  rw [List.length_append, skipColon_append ht]
  simp only [Nat.add_lt_add_iff_right]
  split
  · intro days rest h
    obtain ⟨taken, hts, htaken⟩ := skipColon_taken ts
    obtain ⟨⟨more, hmore, hselects⟩, hcarry⟩ := carries_optionalDaySelector ht _ days rest h
    refine ⟨⟨taken ++ more, ?_, List.forall_mem_append.mpr ⟨htaken, hselects⟩⟩, hcarry⟩
    rw [List.append_assoc, ← hmore, ← hts]
  · exact carries_optionalDaySelector ht ts

theorem weeksAndDays_append {start : Nat} {found : List WeekSpan × DaySelector}
    (h : weeksAndDays start ts = .ok (found, rest)) :
    (∃ taken, ts = taken ++ rest ∧ ∀ u ∈ taken, u.isDaily = true) ∧
      (Separate (t :: T) rest → (rest = [.mark .comma] → startsNumber (t :: T) = false) →
        weeksAndDays (start + (t :: T).length) (ts ++ t :: T) = .ok (found, rest ++ t :: T)) := by
  obtain ⟨⟨weeks, mid⟩, hweeks, h⟩ := exists_of_bind_ok h
  obtain ⟨⟨days, last⟩, hdays, h⟩ := exists_of_bind_ok h
  cases h
  obtain ⟨⟨taken, rfl, htaken⟩, hcarry⟩ := weeks_append ht (T := T) hweeks
  obtain ⟨⟨more, hmore, hselects⟩, hcarry'⟩ :=
    carries_colonAndDays ht (T := T) start mid days _ hdays
  refine ⟨⟨taken ++ more, ?_, List.forall_mem_append.mpr ⟨htaken, hselects⟩⟩,
    fun hseparate hlast => ?_⟩
  · rw [hmore, List.append_assoc]
  · have hcomma (hmid : mid = [.mark .comma]) : startsNumber (t :: T) = false := by
      rw [hmid, show skipColon [.mark .comma] = [.mark .comma] from rfl, ite_self] at hdays
      cases hdays
      exact hlast rfl
    have hmid : Separate (t :: T) mid := hmore ▸ hseparate.of_append
    rw [weeksAndDays, hcarry hmid hcomma]
    simp only [ok_bind, hcarry' hseparate]
    rfl

/-- A tail that starts with a number may be a day after a last month, and a week after a last
comma. -/
theorem dates_append {found : List YearSpan × List CalendarSpan × List WeekSpan × DaySelector}
    (hday : startsDay (t :: T) = false ∨ endsInLoneMonth ts = false)
    (h : dates ts = .ok (found, rest)) :
    (∃ taken, ts = taken ++ rest ∧ ∀ u ∈ taken, u.selects = true) ∧
      (Separate (t :: T) rest → (rest = [.mark .comma] → startsNumber (t :: T) = false) →
        dates (ts ++ t :: T) = .ok (found, rest ++ t :: T)) := by
  obtain ⟨⟨years, ts₁⟩, hyears, h⟩ := exists_of_bind_ok h
  obtain ⟨⟨calendar, ts₂⟩, hcalendar, h⟩ := exists_of_bind_ok h
  obtain ⟨⟨⟨weeks, days⟩, last⟩, hdays, h⟩ := exists_of_bind_ok h
  cases h
  obtain ⟨⟨taken₁, rfl, hcount⟩, hcarry₁⟩ := carries_optionalYears ht (T := T) ts years ts₁ hyears
  rw [endsInLoneMonth_of_isCount hcount] at hday
  obtain ⟨⟨taken₂, rfl, htaken₂⟩, hcarry₂⟩ :=
    carries_optionalCalendar ht (T := T) hday calendar ts₂ hcalendar
  obtain ⟨⟨taken₃, rfl, htaken₃⟩, hcarry₃⟩ := weeksAndDays_append ht (T := T) hdays
  refine ⟨⟨taken₁ ++ (taken₂ ++ taken₃), by simp only [List.append_assoc], ?_⟩,
    fun hseparate hlast => ?_⟩
  · simp only [List.forall_mem_append]
    exact ⟨fun u hu => Lexeme.selects_of_isCount (hcount u hu),
      fun u hu => Lexeme.selects_of_isCalendar (htaken₂ u hu),
      fun u hu => Lexeme.selects_of_isDaily (htaken₃ u hu)⟩
  · rw [dates, hcarry₁ hseparate.of_append.of_append]
    simp only [ok_bind]
    rw [hcarry₂ hseparate.of_append]
    simp only [ok_bind]
    rw [List.length_append, hcarry₃ hseparate hlast]
    rfl

end

end OpeningTimes.Grammar
