import OpeningTimes.Proofs.Expression.RulesAppended

/-!
# Date selectors before 24/7

24/7 after date selectors says the same as the selectors alone, which hold for whole days. But its
first number is taken as a day where it comes right after a month that does not end a range of
months, and then the rest of it is left over.
-/

namespace OpeningTimes

/-- What 24/7 is cut into. -/
def Lexeme.allDay : List Lexeme := [.number 24 2, .mark .slash, .number 7 1]

namespace Grammar

-- ---------------------------------------------------------------------------
-- 24/7 after other selectors
-- ---------------------------------------------------------------------------

/-- Nothing but years, months and days, weeks, weekdays and holidays, with the colon among them. -/
def OnlyDates (ts : List Lexeme) : Prop := ∃ found, dates ts = .ok (found, [])

theorem rule_of_dates {layering : Layering} {ts : List Lexeme} {years : List YearSpan}
    {calendar : List CalendarSpan} {weeks : List WeekSpan} {days : DaySelector}
    (h : dates ts = .ok ((years, calendar, weeks, days), [])) (hne : ts ≠ []) :
    rule layering ts = .ok (⟨years, calendar, weeks, days, [], .opened, none, layering⟩, []) :=
  rule_eq_ok_iff.mpr ⟨years, calendar, weeks, days, [], [], [], h, rfl, rfl, rfl,
    List.length_pos_iff.mpr hne⟩

theorem rule_allDay {layering : Layering} {ts : List Lexeme} {years : List YearSpan}
    {calendar : List CalendarSpan} {weeks : List WeekSpan} {days : DaySelector}
    (h : dates ts = .ok ((years, calendar, weeks, days), [])) (hlone : endsInLoneMonth ts = false) :
    rule layering (ts ++ Lexeme.allDay)
      = .ok (⟨years, calendar, weeks, days, [], .opened, none, layering⟩, []) := by
  have ht : (Lexeme.number 24 2).isBreak = true := rfl
  have hseparate : Separate Lexeme.allDay [] := by simp [Separate, Lexeme.allDay]
  have hdates := (dates_append ht (.inr hlone) h).2 hseparate (by simp)
  exact rule_eq_ok_iff.mpr
    ⟨years, calendar, weeks, days, _, [], [], hdates, rfl, rfl, rfl, by simp [Lexeme.allDay]⟩

theorem rules_allDay {ts : List Lexeme} {rs : List Rule} (h : rules ts = .ok rs)
    (hdates : OnlyDates ts) (hlone : endsInLoneMonth ts = false) :
    rules (ts ++ Lexeme.allDay) = .ok rs := by
  obtain ⟨⟨years, calendar, weeks, days⟩, hdates⟩ := hdates
  have hne := ne_nil_of_rulesUpTo h
  have hfirst : rulesUpTo (ts.length + 1) .replace ts
      = .ok [⟨years, calendar, weeks, days, [], .opened, none, .replace⟩] :=
    rulesUpTo_succ_eq_ok_iff.mpr ⟨_, _, rule_of_dates hdates hne, .inl ⟨rfl, .inl rfl⟩⟩
  obtain rfl : [⟨years, calendar, weeks, days, [], .opened, none, .replace⟩] = rs :=
    Except.ok.inj (hfirst.symm.trans h)
  exact rulesUpTo_succ_eq_ok_iff.mpr ⟨_, _, rule_allDay hdates hlone, .inl ⟨rfl, .inl rfl⟩⟩

-- ---------------------------------------------------------------------------
-- Months alone
-- ---------------------------------------------------------------------------

theorem eq_concat_of_endsInLoneMonth {ts : List Lexeme} (h : endsInLoneMonth ts = true) :
    ∃ before m, ts = before ++ [.month m] := by
  fun_induction endsInLoneMonth ts with
  | case1 => cases h
  | case2 => cases h
  | case3 m => exact ⟨[], m, rfl⟩
  | case4 u ts _ _ _ ih =>
    obtain ⟨before, m, rfl⟩ := ih h
    exact ⟨u :: before, m, rfl⟩
  | case5 => cases h

theorem endsInLoneMonth_concat {u : Lexeme} (hu : u.isCount = true) (ts : List Lexeme) :
    endsInLoneMonth (ts ++ [u]) = false := by
  refine Bool.eq_false_iff.mpr fun hlone => ?_
  obtain ⟨before, m, hts⟩ := eq_concat_of_endsInLoneMonth hlone
  obtain rfl : u = .month m := List.singleton_inj.mp (List.append_inj' hts rfl).2
  cases hu

theorem day_eq_ok {m d : Nat} {ts rest : List Lexeme} (h : day m ts = .ok (d, rest)) :
    ∃ u, ts = u :: rest ∧ u.isCount = true := by
  obtain ⟨u, hts, hu⟩ := one_eq_ok h
  refine ⟨u, hts, ?_⟩
  split at hu
  · rfl
  · rfl
  · cases hu

theorem lastDay_eq_ok {start stop : CalendarDay} {ts rest : List Lexeme}
    (h : lastDay start ts = .ok (stop, rest)) :
    ∃ before u, ts = before ++ u :: rest ∧ u.isCount = true := by
  unfold lastDay at h
  split at h
  · obtain ⟨⟨d, last⟩, hday, h⟩ := exists_of_bind_ok h
    cases h
    obtain ⟨u, rfl, hu⟩ := day_eq_ok hday
    exact ⟨[], u, rfl, hu⟩
  · obtain ⟨⟨y, mid⟩, hyear, h⟩ := exists_of_bind_ok h
    simp only at h
    split at h
    · cases h
    · obtain ⟨⟨m, last⟩, hmonth, h⟩ := exists_of_bind_ok h
      obtain ⟨⟨d, end_⟩, hday, h⟩ := exists_of_bind_ok h
      simp only at h
      split at h <;> cases h
      obtain ⟨u, rfl, hu⟩ := day_eq_ok hday
      obtain rfl := month_eq_ok hmonth
      rcases yearIfAny_eq_ok hyear with rfl | ⟨value, rfl⟩
      · exact ⟨[.month m], u, rfl, hu⟩
      · exact ⟨[.number value 4, .month m], u, rfl, hu⟩

theorem daysFrom_eq_ok {start : CalendarDay} {x : CalendarSpan} {ts rest : List Lexeme}
    (h : daysFrom start ts = .ok (x, rest)) :
    ts = rest ∨ ∃ before u, ts = before ++ u :: rest ∧ u.isCount = true := by
  unfold daysFrom at h
  split at h
  · cases h
    exact .inr ⟨[], .mark .plus, rfl, rfl⟩
  · obtain ⟨⟨stop, last⟩, hlast, h⟩ := exists_of_bind_ok h
    cases h
    obtain ⟨before, u, rfl, hu⟩ := lastDay_eq_ok hlast
    exact .inr ⟨.mark .dash :: before, u, rfl, hu⟩
  · cases h
    exact .inl rfl

theorem monthsTo_eq_ok {y : Option Int} {start : Nat} {x : CalendarSpan} {ts rest : List Lexeme}
    (h : monthsTo y start ts = .ok (x, rest)) :
    ∃ stop, ts = .month stop :: rest ∨ ∃ value, ts = .number value 4 :: .month stop :: rest := by
  obtain ⟨⟨y', mid⟩, hyear, h⟩ := exists_of_bind_ok h
  obtain ⟨⟨stop, last⟩, hmonth, h⟩ := exists_of_bind_ok h
  obtain rfl : last = rest := by
    simp only at h
    split at h
    · split at h <;> cases h
      rfl
    · cases h
    · cases h
      rfl
  obtain rfl := month_eq_ok hmonth
  rcases yearIfAny_eq_ok hyear with rfl | ⟨value, rfl⟩
  · exact ⟨stop, .inl rfl⟩
  · exact ⟨stop, .inr ⟨value, rfl⟩⟩

/-- Where a span of months and days stops before what could be a day, it does not end with a month
alone. -/
theorem calendarSpan_stops {x : CalendarSpan} {ts rest : List Lexeme}
    (h : calendarSpan ts = .ok (x, rest)) (hrest : startsDay rest = true) :
    ∃ taken, ts = taken ++ rest ∧ endsInLoneMonth taken = false := by
  obtain ⟨⟨y, mid⟩, hyear, hmid⟩ := exists_of_bind_ok h
  obtain ⟨⟨m, last⟩, hmonth, hlast⟩ := exists_of_bind_ok hmid
  obtain ⟨first, hfirst, rfl⟩ :
      ∃ first, (∀ u ∈ first, u.isCount = true) ∧ ts = first ++ .month m :: last := by
    rcases yearIfAny_eq_ok hyear with rfl | ⟨value, rfl⟩
    · exact ⟨[], by simp, month_eq_ok hmonth⟩
    · exact ⟨[.number value 4], List.forall_mem_singleton.mpr rfl, congrArg _ (month_eq_ok hmonth)⟩
  simp only at hlast
  split at hlast
  · obtain ⟨⟨d, after⟩, hday, hafter⟩ := exists_of_bind_ok hlast
    obtain ⟨u, rfl, hu⟩ := day_eq_ok hday
    rcases daysFrom_eq_ok hafter with rfl | ⟨before, v, rfl, hv⟩
    · exact ⟨first ++ [.month m] ++ [u], by simp, endsInLoneMonth_concat hu _⟩
    · exact ⟨first ++ .month m :: u :: before ++ [v], by simp, endsInLoneMonth_concat hv _⟩
  · rename_i hnoday
    unfold monthsFrom at hlast
    split at hlast
    · split at hlast
      · obtain ⟨stop, rfl | ⟨value, rfl⟩⟩ := monthsTo_eq_ok hlast
        · exact ⟨first ++ [.month m, .mark .dash, .month stop], by simp,
            endsInLoneMonth_of_isCount hfirst _⟩
        · exact ⟨first ++ [.month m, .mark .dash, .number value 4, .month stop], by simp,
            endsInLoneMonth_of_isCount hfirst _⟩
      · cases hlast
        cases hrest
    · cases hlast
      exact absurd hrest hnoday

section

variable {item : Reader α} {starts : List Lexeme → Bool}
  (hitem : ∀ us x rest, item us = .ok (x, rest) → rest <:+ us)
include hitem

theorem moreItems_last {bound : Nat} {ts rest : List Lexeme} {xs : List α}
    (h : moreItems item starts bound ts = .ok (xs, rest)) :
    ts = rest ∨ ∃ before us x, ts = before ++ .mark .comma :: us ∧ item us = .ok (x, rest) := by
  induction bound generalizing ts xs with
  | zero =>
    cases h
    exact .inl rfl
  | succ bound ih =>
    unfold moreItems at h
    split at h
    · rename_i us heq
      cases heq
      split at h
      · obtain ⟨⟨x, mid⟩, hread, h⟩ := exists_of_bind_ok h
        obtain ⟨⟨xs, last⟩, hmore, h⟩ := exists_of_bind_ok h
        cases h
        rcases ih hmore with rfl | ⟨before, vs, y, rfl, hy⟩
        · exact .inr ⟨[], us, x, rfl, hread⟩
        · obtain ⟨taken, rfl⟩ := hitem us x _ hread
          exact .inr ⟨.mark .comma :: (taken ++ before), vs, y, by simp, hy⟩
      · cases h
        exact .inl rfl
    · cases h
      exact .inl rfl

theorem items_last {ts rest : List Lexeme} {xs : List α}
    (h : items item starts ts = .ok (xs, rest)) :
    (∃ x, item ts = .ok (x, rest)) ∨
      ∃ before us x, ts = before ++ .mark .comma :: us ∧ item us = .ok (x, rest) := by
  obtain ⟨⟨x, mid⟩, hread, h⟩ := exists_of_bind_ok h
  obtain ⟨⟨xs, last⟩, hmore, h⟩ := exists_of_bind_ok h
  cases h
  rcases moreItems_last hitem hmore with rfl | ⟨before, us, y, rfl, hy⟩
  · exact .inl ⟨x, hread⟩
  · obtain ⟨taken, rfl⟩ := hitem ts x _ hread
    exact .inr ⟨taken ++ before, us, y, by simp, hy⟩

end

theorem optionalCalendar_stops {xs : List CalendarSpan} {ts rest : List Lexeme}
    (h : optionalItems calendarSpan startsCalendarSpan ts = .ok (xs, rest))
    (hrest : startsDay rest = true) :
    ∃ taken, ts = taken ++ rest ∧ endsInLoneMonth taken = false := by
  have hbreak : (Lexeme.mark .semicolon).isBreak = true := rfl
  have hitem (us : List Lexeme) (x : CalendarSpan) (rest : List Lexeme)
      (hus : calendarSpan us = .ok (x, rest)) : rest <:+ us := by
    obtain ⟨⟨taken, hts, -⟩, -⟩ := carries_calendarSpan hbreak (T := []) (.inl rfl) x rest hus
    exact ⟨taken, hts.symm⟩
  unfold optionalItems at h
  split at h
  · rcases items_last hitem h with ⟨x, hx⟩ | ⟨before, us, x, rfl, hx⟩
    · exact calendarSpan_stops hx hrest
    · obtain ⟨taken, rfl, hlone⟩ := calendarSpan_stops hx hrest
      exact ⟨before ++ .mark .comma :: taken, by simp, (endsInLoneMonth_of_comma _ _).trans hlone⟩
  · cases h
    exact ⟨[], rfl, rfl⟩

-- ---------------------------------------------------------------------------
-- 24/7 after a month alone
-- ---------------------------------------------------------------------------

theorem suffix_of_notMem {x : α} {ts before after : List α} (h : ts <:+ before ++ x :: after)
    (hx : x ∉ ts) : ts <:+ after := by
  induction before with
  | nil =>
    rcases List.suffix_cons_iff.mp h with rfl | h
    · exact absurd List.mem_cons_self hx
    · exact h
  | cons u before ih =>
    rcases List.suffix_cons_iff.mp h with rfl | h
    · exact absurd (by simp) hx
    · exact ih h

theorem isStatement_of_comment_stated {ts : List Lexeme} (h : (comment (stated ts).2).2 = []) :
    ∀ u ∈ ts, u.isStatement = true := by
  have hcomment (us : List Lexeme) (hus : (comment us).2 = []) :
      ∀ u ∈ us, u.isStatement = true := by
    unfold comment at hus
    split at hus <;> cases hus
    · exact List.forall_mem_singleton.mpr rfl
    · exact List.forall_mem_nil _
  unfold stated at h
  split at h
  · exact List.forall_mem_cons.mpr ⟨rfl, hcomment _ h⟩
  · exact List.forall_mem_cons.mpr ⟨rfl, hcomment _ h⟩
  · exact List.forall_mem_cons.mpr ⟨rfl, hcomment _ h⟩
  · exact List.forall_mem_cons.mpr ⟨rfl, hcomment _ h⟩
  · exact hcomment _ h

theorem times_all {ts : List Lexeme} {ranges : List TimeRange} (h : times ts = .ok (ranges, [])) :
    (∃ width width', ts = [.number 24 width, .mark .slash, .number 7 width']) ∨
      ∀ u ∈ ts, u.isTime = true := by
  have hbreak : (Lexeme.mark .semicolon).isBreak = true := rfl
  unfold times at h
  split at h
  · cases h
    exact .inl ⟨_, _, rfl⟩
  · obtain ⟨⟨taken, rfl, htaken⟩, -⟩ := carries_optionalTimes hbreak (T := []) ts ranges [] h
    exact .inr (by simpa using htaken)

theorem weeksAndDays_allDay {ts : List Lexeme} (h : ts <:+ Lexeme.allDay) (start : Nat) :
    weeksAndDays start ts = .ok (([], {}), ts) := by
  simp only [Lexeme.allDay, List.suffix_cons_iff, List.suffix_nil] at h
  have hcolon : skipColon ts = ts := by
    rcases h with rfl | rfl | rfl | rfl <;> rfl
  rw [weeksAndDays, weeks.eq_2 _ (by rintro us rfl; simp at h)]
  simp only [ok_bind, hcolon, ite_self]
  rcases h with rfl | rfl | rfl | rfl <;> rfl

/-- After a month alone the date selectors leave something, but not 24/7. -/
theorem dates_allDay_lone {ts rest : List Lexeme} (hlone : endsInLoneMonth ts = true)
    {found : List YearSpan × List CalendarSpan × List WeekSpan × DaySelector}
    (h : dates (ts ++ Lexeme.allDay) = .ok (found, rest)) : rest ≠ [] ∧ rest ≠ Lexeme.allDay := by
  have hbreak : (Lexeme.mark .semicolon).isBreak = true := rfl
  obtain ⟨⟨years, ts₁⟩, hyears, h⟩ := exists_of_bind_ok h
  obtain ⟨⟨calendar, ts₂⟩, hcalendar, h⟩ := exists_of_bind_ok h
  obtain ⟨⟨⟨weeks, days⟩, _⟩, hdays, h⟩ := exists_of_bind_ok h
  cases h
  obtain ⟨⟨taken₁, h₁, hcount⟩, -⟩ := carries_optionalYears hbreak (T := []) _ _ _ hyears
  obtain ⟨⟨taken₂, h₂, hkind⟩, -⟩ :=
    carries_optionalCalendar hbreak (T := []) (.inl rfl) _ _ hcalendar
  obtain ⟨⟨taken₃, h₃, hdaily⟩, -⟩ := weeksAndDays_append hbreak (T := []) hdays
  obtain ⟨before, m, rfl⟩ := eq_concat_of_endsInLoneMonth hlone
  have hmonth₁ : Lexeme.month m ∉ taken₁ := fun hm => Bool.false_ne_true (hcount _ hm)
  have hmonth₃ : Lexeme.month m ∉ taken₃ := fun hm => Bool.false_ne_true (hdaily _ hm)
  have hslash : Lexeme.mark .slash ∉ taken₂ := fun hm => Bool.false_ne_true (hkind _ hm)
  constructor
  · -- What takes the slash is neither the months nor, as the month comes before it, the years or
    -- weekdays.
    rintro rfl
    rw [List.append_nil] at h₃
    rw [List.append_assoc, List.singleton_append] at h₁ hdays
    have hsuffix₂ : ts₂ <:+ Lexeme.allDay :=
      suffix_of_notMem ⟨taken₁ ++ taken₂, by rw [h₁, h₂, List.append_assoc]⟩ (h₃ ▸ hmonth₃)
    obtain rfl : ts₂ = [] := by
      rw [weeksAndDays_allDay hsuffix₂] at hdays
      cases hdays
      rfl
    rw [List.append_nil] at h₂
    have hall : before ++ .month m :: Lexeme.allDay
        = (before ++ [.month m, .number 24 2]) ++ .mark .slash :: [.number 7 1] := by
      simp [Lexeme.allDay]
    have hsuffix₁ : ts₁ <:+ [.number 7 1] :=
      suffix_of_notMem ⟨taken₁, by rw [← h₁, hall]⟩ (h₂ ▸ hslash)
    have hmem : Lexeme.month m ∈ taken₁ ++ ts₁ := h₁ ▸ by simp
    rcases List.mem_append.mp hmem with hmem | hmem
    · exact hmonth₁ hmem
    · cases List.mem_singleton.mp (hsuffix₁.subset hmem)
  · rintro rfl
    have hts : before ++ [.month m] = taken₁ ++ (taken₂ ++ taken₃) :=
      List.append_cancel_right (by rw [h₁, h₂, h₃]; simp only [List.append_assoc])
    obtain rfl : taken₃ = [] :=
      List.suffix_nil.mp
        (suffix_of_notMem ⟨taken₁ ++ taken₂, by rw [List.append_assoc, ← hts]⟩ hmonth₃)
    obtain ⟨taken, hstops, hfree⟩ := optionalCalendar_stops hcalendar (h₃ ▸ rfl)
    rw [h₃, List.nil_append] at hstops
    have hts' : before ++ [.month m] = taken₁ ++ taken :=
      List.append_cancel_right (by rw [h₁, hstops, List.append_assoc])
    rw [hts', endsInLoneMonth_of_isCount hcount, hfree] at hlone
    cases hlone

theorem eq_nil_of_suffix_allDay {ts rest : List Lexeme} (h : rest <:+ ts ++ Lexeme.allDay)
    (hlast : Lexeme.number 7 1 ∉ rest) : rest = [] := by
  have hend : ts ++ Lexeme.allDay = (ts ++ [.number 24 2, .mark .slash]) ++ [.number 7 1] := by
    simp [Lexeme.allDay]
  exact List.suffix_nil.mp (suffix_of_notMem (hend ▸ h) hlast)

theorem rule_allDay_lone {layering : Layering} {ts rest : List Lexeme} {r : Rule}
    (hlone : endsInLoneMonth ts = true) (h : rule layering (ts ++ Lexeme.allDay) = .ok (r, rest)) :
    rest ≠ [] := by
  rintro rfl
  have hbreak : (Lexeme.mark .semicolon).isBreak = true := rfl
  obtain ⟨years, calendar, weeks, days, mid, ranges, last, hdates, htimes, -, hrest, -⟩ :=
    rule_eq_ok_iff.mp h
  obtain ⟨hne, hne'⟩ := dates_allDay_lone hlone hdates
  obtain ⟨⟨taken, hts, -⟩, -⟩ := dates_append hbreak (T := []) (.inl rfl) hdates
  obtain ⟨⟨taken', hmid, -⟩, -⟩ := carries_times .replace [] mid ranges last htimes
  obtain rfl : last = [] :=
    eq_nil_of_suffix_allDay ⟨taken ++ taken', by rw [List.append_assoc, ← hmid, ← hts]⟩
      fun hm => Bool.false_ne_true (isStatement_of_comment_stated hrest.symm _ hm)
  rcases times_all htimes with ⟨width, width', rfl⟩ | htime
  · exact hne' (List.append_inj' hts rfl).2.symm
  · exact hne (eq_nil_of_suffix_allDay ⟨taken, hts.symm⟩ fun hm => Bool.false_ne_true (htime _ hm))

theorem rules_allDay_lone {ts : List Lexeme} (hlone : endsInLoneMonth ts = true) (r : Rule) :
    rules (ts ++ Lexeme.allDay) ≠ .ok [r] := by
  intro h
  have hadd (hnext : Layering.replace = .add) : EndsStated (ts ++ Lexeme.allDay) := by cases hnext
  obtain ⟨first, rest, hrule, ⟨-, rfl | rfl⟩ | ⟨next, more, others, -, -, hmore, hrs⟩⟩ :=
    rulesUpTo_succ_eq_ok_iff.mp h
  · exact rule_allDay_lone hlone hrule rfl
  · cases eq_nil_of_suffix_allDay (rule_append [] hadd hrule).1 (by simp)
  · cases hrs
    exact rulesUpTo_ne_nil hmore

end Grammar

namespace Rule

/-- 24/7 after date selectors makes no difference, unless they end with a month alone. Then it does
not give the same rule. -/
theorem ofTokens_allDay {tokens hours : List Token} {r : Rule} (h : ofTokens tokens = .ok [r])
    (hdates : Grammar.OnlyDates (tokens.map Token.lexeme))
    (hhours : hours.map Token.lexeme = Lexeme.allDay) :
    ofTokens (tokens ++ hours) = .ok [r] ↔
    Grammar.endsInLoneMonth (tokens.map Token.lexeme) = false := by
  have hjoined : (tokens ++ hours).map Token.lexeme = tokens.map Token.lexeme ++ Lexeme.allDay := by
    rw [List.map_append, hhours]
  refine ⟨fun hall => Bool.eq_false_iff.mpr fun hlone => ?_, fun hlone => ?_⟩
  · exact Grammar.rules_allDay_lone hlone r (hjoined ▸ ofTokens_ok hall)
  · rw [ofTokens, hjoined, Grammar.rules_allDay (ofTokens_ok h) hdates hlone]
    rfl

/-- `Jan-Mar 24/7` -/
theorem ofTokens_allDay_months :
    ∃ tokens hours r, Token.readAll "Jan-Mar" = .ok tokens ∧ ofTokens tokens = .ok [r] ∧
      hours.map Token.lexeme = Lexeme.allDay ∧ ofTokens (tokens ++ hours) = .ok [r] := by
  let hours : List Token :=
    [⟨.number 24 2, "24", 8⟩, ⟨.mark .slash, "/", 10⟩, ⟨.number 7 1, "7", 11⟩]
  have cut : Token.readAll "Jan-Mar"
      = .ok [⟨.month 1, "Jan", 0⟩, ⟨.mark .dash, "-", 3⟩, ⟨.month 3, "Mar", 4⟩] := rfl
  have alone : ofTokens [⟨.month 1, "Jan", 0⟩, ⟨.mark .dash, "-", 3⟩, ⟨.month 3, "Mar", 4⟩]
      = .ok [⟨[], [.months none 1 3], [], {}, [], .opened, none, .replace⟩] := rfl
  exact ⟨_, hours, _, cut, alone, rfl, (ofTokens_allDay alone ⟨_, rfl⟩ rfl).mpr rfl⟩

/-- In `Jan 24/7` the number is a day, and what comes after it is no separator. -/
theorem ofTokens_allDay_lone_month :
    ∃ tokens hours r, Token.readAll "Jan" = .ok tokens ∧ ofTokens tokens = .ok [r] ∧
      Grammar.OnlyDates (tokens.map Token.lexeme) ∧ hours.map Token.lexeme = Lexeme.allDay ∧
      ofTokens (tokens ++ hours) = .error ⟨6, .separator, some ⟨.mark .slash, "/", 6⟩⟩ :=
  ⟨[⟨.month 1, "Jan", 0⟩],
    [⟨.number 24 2, "24", 4⟩, ⟨.mark .slash, "/", 6⟩, ⟨.number 7 1, "7", 7⟩],
    ⟨[], [.months none 1 1], [], {}, [], .opened, none, .replace⟩, rfl, rfl, ⟨_, rfl⟩, rfl, rfl⟩

end Rule

end OpeningTimes
