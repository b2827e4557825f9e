import OpeningTimes.Proofs.Expression.Appending

/-!
# Date selectors with others after them

Years, months and days, and weeks do not go on with a separator, and not with a number of fewer than
four digits either. Only a month alone takes such a number as its day, and a list of weeks as its
next week.
-/

namespace OpeningTimes

/-- Lexemes that no selector starts or goes on with, apart from a day of a month, a week of a list
and the next item of a list. -/
def Lexeme.isBreak : Lexeme → Bool
  | .number _ width => width != 4
  | .mark .semicolon => true
  | .mark .comma => true
  | .mark .doubleBar => true
  | _ => false

/-- Numbers and marks, which years are made of. -/
def Lexeme.isCount : Lexeme → Bool
  | .number _ _ => true
  | .mark _ => true
  | _ => false

/-- What months and days of the year are made of. -/
def Lexeme.isCalendar : Lexeme → Bool
  | .number _ _ => true
  | .month _ => true
  | .mark .dash => true
  | .mark .plus => true
  | .mark .comma => true
  | _ => false

/-- What weeks, weekdays and holidays are made of. -/
def Lexeme.isDaily : Lexeme → Bool
  | .number _ _ => true
  | .mark _ => true
  | .weekday _ => true
  | .keyword (.holiday _) => true
  | .keyword .week => true
  | _ => false

/-- What spans of time are made of. -/
def Lexeme.isTime : Lexeme → Bool
  | .clock _ _ => true
  | .keyword (.solar _) => true
  | .mark _ => true
  | _ => false

/-- Comments and the words that say what holds, which end a rule. -/
def Lexeme.isStatement : Lexeme → Bool
  | .keyword .off => true
  | .keyword .closed => true
  | .keyword .opened => true
  | .keyword .unknown => true
  | .comment _ => true
  | _ => false

/-- What selectors and times are made of. -/
def Lexeme.selects (t : Lexeme) : Bool := !t.isStatement

theorem Lexeme.selects_of_isCount {t : Lexeme} (h : t.isCount = true) : t.selects = true := by
  unfold isCount at h
  split at h <;> first | rfl | cases h

theorem Lexeme.selects_of_isCalendar {t : Lexeme} (h : t.isCalendar = true) : t.selects = true := by
  unfold isCalendar at h
  split at h <;> first | rfl | cases h

theorem Lexeme.isDaily_of_isCount {t : Lexeme} (h : t.isCount = true) : t.isDaily = true := by
  unfold isCount at h
  split at h <;> first | rfl | cases h

theorem Lexeme.selects_of_isDaily {t : Lexeme} (h : t.isDaily = true) : t.selects = true := by
  unfold isDaily at h
  split at h <;> first | rfl | cases h

theorem Lexeme.selects_of_isTime {t : Lexeme} (h : t.isTime = true) : t.selects = true := by
  unfold isTime at h
  split at h <;> first | rfl | cases h

namespace Grammar

theorem carries_year {tail : List Lexeme} {kind : Lexeme → Bool}
    (hkind : ∀ value, kind (.number value 4) = true) (ts : List Lexeme) :
    Carries tail kind ts (year ts) (year (ts ++ tail)) := by
  refine carries_one (fun u y hy => ?_) ts
  split at hy
  · exact hkind _
  · cases hy

theorem carries_month {tail : List Lexeme} (ts : List Lexeme) :
    Carries tail Lexeme.isCalendar ts (month ts) (month (ts ++ tail)) := by
  refine carries_one (fun u m hm => ?_) ts
  split at hm
  · rfl
  · cases hm

theorem carries_day {tail : List Lexeme} (m : Nat) (ts : List Lexeme) :
    Carries tail Lexeme.isCalendar ts (day m ts) (day m (ts ++ tail)) := by
  refine carries_one (fun u d hd => ?_) ts
  split at hd
  · rfl
  · rfl
  · cases hd

theorem carries_week {tail : List Lexeme} (ts : List Lexeme) :
    Carries tail Lexeme.isDaily ts (week ts) (week (ts ++ tail)) := by
  refine carries_one (fun u w hw => ?_) ts
  split at hw
  · rfl
  · cases hw

theorem startsDay_cons (u : Lexeme) (ts us : List Lexeme) :
    startsDay (u :: ts) = startsDay (u :: us) := by
  unfold startsDay
  split <;> simp_all

theorem startsNumber_cons (u : Lexeme) (ts us : List Lexeme) :
    startsNumber (u :: ts) = startsNumber (u :: us) := by
  cases u <;> rfl

theorem month_eq_ok {m : Nat} {ts rest : List Lexeme} (h : month ts = .ok (m, rest)) :
    ts = .month m :: rest := by
  obtain ⟨u, rfl, hu⟩ := one_eq_ok h
  cases u <;> cases hu
  rfl

theorem yearIfAny_eq_ok {y : Option Int} {ts rest : List Lexeme}
    (h : yearIfAny ts = .ok (y, rest)) :
    ts = rest ∨ ∃ value, ts = .number value 4 :: rest := by
  fun_cases yearIfAny ts
  case case1 value ts =>
    rw [yearIfAny] at h
    cases hyear : year (.number value 4 :: ts) with
    | error failure => rw [hyear] at h; cases h
    | ok result =>
      rw [hyear] at h
      cases h
      obtain ⟨u, hu, -⟩ := one_eq_ok hyear
      cases hu
      exact .inr ⟨value, rfl⟩
  case case2 hne =>
    rw [yearIfAny.eq_2 _ hne] at h
    cases h
    exact .inl rfl

/-- The last lexeme is a month that is no end of a range of months. -/
def endsInLoneMonth : List Lexeme → Bool
  | [.month _, .mark .dash, .month _] => false
  | [.month _, .mark .dash, .number _ 4, .month _] => false
  | [.month _] => true
  | _ :: ts => endsInLoneMonth ts
  | [] => false

section

variable {t : Lexeme} {T : List Lexeme} (ht : t.isBreak = true)
include ht

theorem first_append {u : Lexeme} {ts : List Lexeme} (h : ∀ us, ts = u :: us → False)
    (hu : u.isBreak = false) : ∀ us, ts ++ t :: T = u :: us → False := by
  intro us heq
  cases ts with
  | nil =>
    cases heq
    exact Bool.false_ne_true (hu.symm.trans ht)
  | cons a ts =>
    cases heq
    exact h ts rfl

/-- A tail starts no part of a rule, and makes no part of what comes before it. -/
theorem place_append (ts : List Lexeme) : place (ts ++ t :: T) = place ts := by
  fun_cases place ts
  case case2 value rest hmonth =>
    have hnext (m : Nat) := first_append ht (T := T) (hmonth m) rfl
    simp [place]
  case case10 => simp [place]
  case case11 hdate hyear hmonth hweek hweekday hholiday hclock hparen hsolar hkeyword =>
    exact place.eq_11 _ (fun value _ us => first_append ht (hyear value) rfl _)
      (fun value => first_append ht (hyear value) rfl) (fun m => first_append ht (hmonth m) rfl)
      (first_append ht hweek rfl) (fun w => first_append ht (hweekday w) rfl)
      (fun kind => first_append ht (hholiday kind) rfl)
      (fun h m => first_append ht (hclock h m) rfl)
      (first_append ht hparen rfl) (fun event => first_append ht (hsolar event) rfl)
      fun k => first_append ht (hkeyword k) rfl
  all_goals rfl

theorem startsYear_append (ts : List Lexeme) : startsYear (ts ++ t :: T) = startsYear ts := by
  rw [startsYear_eq, startsYear_eq, place_append ht]

theorem startsCalendarSpan_append (ts : List Lexeme) :
    startsCalendarSpan (ts ++ t :: T) = startsCalendarSpan ts := by
  rw [startsCalendarSpan_eq, startsCalendarSpan_eq, place_append ht]

theorem startsDayEntry_append (ts : List Lexeme) :
    startsDayEntry (ts ++ t :: T) = startsDayEntry ts := by
  rw [startsDayEntry_eq, startsDayEntry_eq, place_append ht]

theorem startsTime_append (ts : List Lexeme) : startsTime (ts ++ t :: T) = startsTime ts := by
  rw [startsTime_eq, startsTime_eq, place_append ht]

-- ---------------------------------------------------------------------------
-- Years
-- ---------------------------------------------------------------------------

theorem carries_step (ts : List Lexeme) :
    Carries (t :: T) Lexeme.isCount ts (step ts) (step (ts ++ t :: T)) := by
  fun_cases step ts
  case case1 ts =>
    refine .cons rfl (carries_one (fun u y hy => ?_) ts)
    split at hy
    · rfl
    · cases hy
  case case2 hslash =>
    rw [step.eq_2 _ (first_append ht hslash rfl)]
    exact .ok _

theorem carries_yearSpan (ts : List Lexeme) :
    Carries (t :: T) Lexeme.isCount ts (yearSpan ts) (yearSpan (ts ++ t :: T)) := by
  refine (carries_year (fun _ => rfl) ts).bind fun start rest _ => ?_
  simp only
  split
  · exact .cons rfl (.ok _)
  · refine .cons rfl ?_
    refine (carries_year (fun _ => rfl) _).bind fun stop rest _ => ?_
    simp only
    split
    · exact .fail
    · exact (carries_step ht rest).bind fun step rest _ => .ok _
  · rename_i hplus hdash
    split
    · exact absurd ‹_› (first_append ht hplus rfl _)
    · exact absurd ‹_› (first_append ht hdash rfl _)
    · exact .ok _

-- ---------------------------------------------------------------------------
-- Months and days of the year
-- ---------------------------------------------------------------------------

theorem carries_yearIfAny (ts : List Lexeme) :
    Carries (t :: T) Lexeme.isCalendar ts (yearIfAny ts) (yearIfAny (ts ++ t :: T)) := by
  fun_cases yearIfAny ts
  case case1 value ts => exact (carries_year (fun _ => rfl) _).map
  case case2 hyear =>
    have hnone (value : Nat) := first_append ht (T := T) (hyear value) rfl
    rw [yearIfAny.eq_2 _ hnone]
    exact .ok _

theorem carries_lastDay (start : CalendarDay) (ts : List Lexeme) :
    Carries (t :: T) Lexeme.isCalendar ts (lastDay start ts) (lastDay start (ts ++ t :: T)) := by
  cases ts with
  | nil =>
    rintro _ _ h
    cases h
  | cons u ts =>
    unfold lastDay
    rw [List.cons_append, startsDay_cons u (ts ++ t :: T) ts, ← List.cons_append]
    split
    · exact (carries_day _ _).bind fun d rest _ => .ok _
    · refine (carries_yearIfAny ht _).bind fun y rest _ => ?_
      simp only
      split
      · exact .fail
      · refine (carries_month rest).bind fun m rest _ =>
          (carries_day m rest).bind fun d rest _ => ?_
        simp only
        split
        · exact .fail
        · exact .ok _

theorem carries_daysFrom (start : CalendarDay) (ts : List Lexeme) :
    Carries (t :: T) Lexeme.isCalendar ts (daysFrom start ts) (daysFrom start (ts ++ t :: T)) := by
  fun_cases daysFrom start ts
  case case1 ts => exact .cons rfl (.ok _)
  case case2 ts => exact .cons rfl ((carries_lastDay ht start ts).bind fun stop rest _ => .ok _)
  case case3 hplus hdash =>
    rw [daysFrom.eq_3 _ _ (first_append ht hplus rfl) (first_append ht hdash rfl)]
    exact .ok _

theorem carries_monthsTo (y : Option Int) (start : Nat) (ts : List Lexeme) :
    Carries (t :: T) Lexeme.isCalendar ts (monthsTo y start ts)
      (monthsTo y start (ts ++ t :: T)) := by
  refine (carries_yearIfAny ht ts).bind fun y' rest _ =>
    (carries_month rest).bind fun stop rest _ => ?_
  simp only
  split
  · split
    · exact .ok _
    · exact .fail
  · exact .fail
  · exact .ok _

theorem carries_monthsFrom (y : Option Int) (start : Nat) (ts : List Lexeme) :
    Carries (t :: T) Lexeme.isCalendar ts (monthsFrom y start ts)
      (monthsFrom y start (ts ++ t :: T)) := by
  fun_cases monthsFrom y start ts
  case case1 ts hstarts =>
    rw [List.cons_append, monthsFrom, startsCalendarSpan_append ht, if_pos hstarts]
    exact .cons rfl (carries_monthsTo ht y start ts)
  case case2 ts hstarts =>
    rw [List.cons_append, monthsFrom, startsCalendarSpan_append ht, if_neg hstarts]
    exact .ok _
  case case3 hdash =>
    rw [monthsFrom.eq_2 _ _ _ (first_append ht hdash rfl)]
    exact .ok _

/-- After a month alone a number is taken as its day. -/
theorem carries_calendarSpan {ts : List Lexeme}
    (hday : startsDay (t :: T) = false ∨ endsInLoneMonth ts = false) :
    Carries (t :: T) Lexeme.isCalendar ts (calendarSpan ts) (calendarSpan (ts ++ t :: T)) := by
  refine (carries_yearIfAny ht ts).bind fun y rest hyear => ?_
  refine (carries_month rest).bind fun m last hmonth => ?_
  have hstarts : startsDay (last ++ t :: T) = startsDay last := by
    cases last with
    | cons u last => exact startsDay_cons u _ _
    | nil =>
      refine hday.resolve_right fun hlone => ?_
      obtain rfl := month_eq_ok hmonth
      rcases yearIfAny_eq_ok hyear with rfl | ⟨value, rfl⟩ <;> cases hlone
  simp only [hstarts]
  split
  · exact (carries_day m last).bind fun d rest _ => carries_daysFrom ht _ rest
  · exact carries_monthsFrom ht y m last

-- ---------------------------------------------------------------------------
-- Weeks
-- ---------------------------------------------------------------------------

theorem carries_weekSpan (ts : List Lexeme) :
    Carries (t :: T) Lexeme.isDaily ts (weekSpan ts) (weekSpan (ts ++ t :: T)) := by
  refine (carries_week ts).bind fun start rest _ => ?_
  simp only
  split
  · refine .cons rfl ((carries_week _).bind fun stop rest _ => ?_)
    exact ((carries_step ht rest).mono fun _ => Lexeme.isDaily_of_isCount).bind
      fun step rest _ => .ok _
  · rename_i hdash
    split
    · exact absurd ‹_› (first_append ht hdash rfl _)
    · exact .ok _

/-- A number after a last comma would be one more week. -/
theorem weeks_append {ts rest : List Lexeme} {found : List WeekSpan}
    (h : weeks ts = .ok (found, rest)) :
    (∃ taken, ts = taken ++ rest ∧ ∀ u ∈ taken, u.isDaily = true) ∧
      (Separate (t :: T) rest → (rest = [.mark .comma] → startsNumber (t :: T) = false) →
        weeks (ts ++ t :: T) = .ok (found, rest ++ t :: T)) := by
  fun_cases weeks ts
  case case1 ts =>
    rw [weeks] at h
    have hstarts (us : List Lexeme) (hus : startsNumber us = true) :
        startsNumber (us ++ t :: T) = true := by
      cases us with
      | nil => cases hus
      | cons u us => exact (startsNumber_cons u _ us).trans hus
    obtain ⟨⟨taken, rfl, htaken⟩, hend, hcarry⟩ := items_append (carries_weekSpan ht ts)
      (fun _ us _ => carries_weekSpan ht us) rfl hstarts h
    refine ⟨⟨.keyword .week :: taken, rfl, List.forall_mem_cons.mpr ⟨rfl, htaken⟩⟩,
      fun hseparate hlast => ?_⟩
    exact hcarry (noItemNext_append (fun u us => startsNumber_cons u _ _) hend hseparate hlast)
      hseparate
  case case2 hweek =>
    rw [weeks.eq_2 _ hweek] at h
    cases h
    refine ⟨⟨[], rfl, by simp⟩, fun _ _ => ?_⟩
    rw [weeks.eq_2 _ (first_append ht hweek rfl)]

end

end Grammar

end OpeningTimes
