import OpeningTimes.Proofs.Answer.NextChange
import OpeningTimes.Proofs.Calendar.YearsLater

/-!
# Enough years to decide

Ten years hold a whole period of every schedule that does not mix weekdays with the calendar, and
401 years hold one of every schedule. A search that may go that far from a date after all that the
rules name always comes to an answer.
-/

namespace OpeningTimes

open Calendar

-- ---------------------------------------------------------------------------
-- Periods within some years
-- ---------------------------------------------------------------------------

namespace Period

/-- So many years that a search from any date sees a whole period in them. -/
def SeenIn (p : Period) (years : Nat) : Prop :=
  10 ≤ years ∧ p ≠ .gregorian ∨ 401 ≤ years

theorem exists_after?_within {p : Period} {d : Date} {years : Nat} (h : p.SeenIn years)
    (hyear : Date.HasYear (d.year + years)) :
    ∃ stop, p.after? d = some stop ∧ stop.number + 2 ≤ (d.yearsLater years).number := by
  have hlater := d.le_yearsLater hyear
  have hstart : yearStart d.year ≤ d.number := yearStart_yearOf_le d.number
  have hten : 10 ≤ years := by
    rcases h with ⟨hten, -⟩ | hmany
    · exact hten
    · exact Nat.le_trans (by decide) hmany
  have hnine := yearStart_lt (show d.year < d.year + 9 by omega)
  have hlast := yearStart_lt (show d.year + 9 < d.year + years by omega)
  have shifted {days : Int} (hdays : 0 ≤ days)
      (hle : d.number + days + 2 ≤ (d.yearsLater years).number) :
      ∃ stop, d.shift? days = some stop ∧ stop.number + 2 ≤ (d.yearsLater years).number := by
    obtain ⟨stop, hstop⟩ := Date.exists_shift? (d := d) (e := d.yearsLater years) hdays (by omega)
    have hnumber := Date.shift?_eq_some_iff.mp hstop
    exact ⟨stop, hstop, by omega⟩
  cases p with
  | constant => exact shifted (by decide) (by omega)
  | weekly => exact shifted (by decide) (by omega)
  | yearly =>
    obtain ⟨stop, hstop⟩ := Date.exists_newYear? (Date.HasYear.of_later d (n := 9) hyear (by omega))
    have hnumber : stop.number = yearStart (d.year + 9) := Date.newYear?_number hstop
    exact ⟨stop, hstop, by omega⟩
  | gregorian =>
    have hmany : 401 ≤ years := h.resolve_left fun hfew => hfew.2 rfl
    have hcycle := yearStart_add_cycle (d.year + 1)
    have hnext := yearStart_lt (show d.year < d.year + 1 by omega)
    have hyears := yearStart_mono (show d.year + 1 + 400 ≤ d.year + years by omega)
    refine shifted (by decide) ?_
    show d.number + 146097 + 2 ≤ _
    omega

end Period

-- ---------------------------------------------------------------------------
-- Searches that see a whole period
-- ---------------------------------------------------------------------------

namespace Schedule

variable {s : Schedule}

theorem periodicFrom?_of_window_lt {d : Date} (h : ∀ window ∈ s.window?, window.2 < d) :
    s.periodicFrom? d = some d := by
  unfold periodicFrom?
  cases hwindow : s.window? with
  | none => rfl
  | some window =>
    have hlt : window.2.number < d.number := h window hwindow
    obtain ⟨next, hnext⟩ :=
      Date.exists_shift? (d := window.2) (e := d) (n := 1) (by decide) (by omega)
    have hle : next ≤ d := by
      have hnumber := Date.shift?_eq_some_iff.mp hnext
      rw [Date.le_iff]
      omega
    have hmax : max d next = d := Std.LawfulOrderLeftLeaningMax.max_eq_left d next hle
    simp only [Date.succ?, hnext, Option.map_some, hmax]

theorem limits_proven_of_proofEnd? {d stop : Date} (hproof : s.proofEnd? d = some stop)
    (hle : stop ≤ d.yearsLater s.context.yearLimit) : (s.limits d).proven = true := by
  unfold limits
  simp only [hproof, if_pos hle]

/-- A search that sees a whole period proves what it says. -/
theorem limits_proven_of_seenIn {d : Date} (hwindow : ∀ window ∈ s.window?, window.2 < d)
    (hyear : Date.HasYear (d.year + s.context.yearLimit))
    (hperiod : (s.periodAfter d).SeenIn s.context.yearLimit) : (s.limits d).proven = true := by
  obtain ⟨last, hlast, hle⟩ := Period.exists_after?_within hperiod hyear
  obtain ⟨stop, hstop⟩ := Date.exists_shift? (by decide : (0 : Int) ≤ 2) hle
  have hproof : s.proofEnd? d = some stop := by
    simp [proofEnd?, periodicFrom?_of_window_lt hwindow, hlast, hstop]
  refine limits_proven_of_proofEnd? hproof ?_
  rw [Date.le_iff, Date.shift?_eq_some_iff.mp hstop]
  exact hle

theorem upcomingChange_of_proven {t : Instant} (h : (s.limits t.date).proven = true) :
    s.upcomingChange t = .ok (s.changeAfter t (s.status t) (s.limits t.date).last) := by
  rw [upcomingChange_eq]
  cases s.changeAfter t (s.status t) (s.limits t.date).last with
  | some change => rfl
  | none => simp [h]

theorem exists_other_within_limits (h : s.WellFormed) {t u : Instant}
    (hproven : (s.limits t.date).proven = true) (htu : t ≤ u) (hother : s.status u ≠ s.status t) :
    ∃ v, t ≤ v ∧ v.date ≤ (s.limits t.date).last ∧ s.status v ≠ s.status t := by
  rcases Classical.em (u.date ≤ (s.limits t.date).last) with hseen | hlater
  · exact ⟨u, htu, hseen, hother⟩
  · obtain ⟨e, hte, hle, hday⟩ := exists_same_day_after h (limits_last_of_proven hproven)
      (Date.not_le.mp hlater)
    have hsame : s.status u = s.status ⟨e, u.time⟩ := by rw [status, status, hday]
    exact ⟨⟨e, u.time⟩, Instant.le_iff_lex.mpr (.inl hte), hle, hsame ▸ hother⟩

-- ---------------------------------------------------------------------------
-- The answer
-- ---------------------------------------------------------------------------

/-- With enough years, a search from a date after all that the rules name never gives up: it says
that nothing changes where nothing does, and gives the first change otherwise. -/
theorem upcomingChange_decides {raw : String} {rules : List Rule} (h : Rule.ofText raw = .ok rules)
    (c : Context) (t : Instant) :
    let s : Schedule := ⟨rules, c⟩
    (∀ window ∈ s.window?, window.2 < t.date) →
      (t.date.inYear? (t.date.year + (c.yearLimit + 2 : Nat))).isSome →
      10 ≤ c.yearLimit ∧ s.periodAfter t.date ≠ .gregorian ∨ 401 ≤ c.yearLimit →
      (∀ undecided, s.upcomingChange t ≠ .error undecided) ∧
        ((∀ u, t < u → s.status u = s.status t) → s.upcomingChange t = .ok none) ∧
        ((∃ u, t < u ∧ s.status u ≠ s.status t) →
          ∃ change, s.upcomingChange t = .ok (some change) ∧ s.FirstChange t change) := by
  intro s hwindow hyears hperiod
  have wellFormed : s.WellFormed := Rule.wellFormed_of_ofText h
  obtain ⟨later, hlater⟩ := Option.isSome_iff_exists.mp hyears
  have hyear : Date.HasYear (t.date.year + (c.yearLimit + 2 : Nat)) :=
    Date.year_of_inYear? hlater ▸ later.hasYear
  have hproven : (s.limits t.date).proven = true :=
    limits_proven_of_seenIn hwindow
      (Date.HasYear.of_later t.date hyear (Nat.le_add_right ..)) hperiod
  rw [upcomingChange_of_proven hproven]
  refine ⟨fun undecided => nofun, fun hsame => ?_, fun ⟨u, htu, hother⟩ => ?_⟩
  · cases hfound : s.changeAfter t (s.status t) (s.limits t.date).last with
    | none => rfl
    | some change =>
      have first := (changeAfter_eq_some wellFormed hfound).1
      exact absurd (hsame change first.later) first.differs
  · cases hfound : s.changeAfter t (s.status t) (s.limits t.date).last with
    | some change => exact ⟨change, rfl, (changeAfter_eq_some wellFormed hfound).1⟩
    | none =>
      obtain ⟨v, htv, hseen, hv⟩ :=
        exists_other_within_limits wellFormed hproven (Instant.le_of_lt htu) hother
      exact absurd (changeAfter_eq_none wellFormed hfound v htv hseen) hv

/-- From 1 March 2096 on, since the year 2100 has no leap day, the next 29 February is almost eight
years away. -/
theorem upcomingChange_decides_2096 :
    ∃ rules, Rule.ofText "Feb 29" = .ok rules ∧
      let s : Schedule := ⟨rules, {}⟩
      let march : Date := ⟨765609, by decide, by decide⟩
      let t : Instant := .midnight march
      Date.ofYearMonthDay? 2096 3 1 = some march ∧ (∀ window ∈ s.window?, window.2 < t.date) ∧
        (t.date.inYear? (t.date.year + (10 + 2 : Nat))).isSome ∧ s.periodAfter t.date ≠ .gregorian ∧
        ∃ change, s.upcomingChange t = .ok (some change) ∧ s.FirstChange t change := by
  have parsed : Rule.ofText "Feb 29" = .ok
      [⟨[], [.days ⟨⟨2, 29⟩, none⟩ (some ⟨⟨2, 29⟩, none⟩)], [], {}, [], .opened, none,
        .replace⟩] := rfl
  refine ⟨_, parsed, ?_⟩
  intro s march t
  have window : ∀ window ∈ s.window?, window.2 < t.date := by decide +kernel
  have inside : (t.date.inYear? (t.date.year + (10 + 2 : Nat))).isSome := by decide +kernel
  have yearly : s.periodAfter t.date ≠ .gregorian := by decide +kernel
  have other : ∃ u, t < u ∧ s.status u ≠ s.status t :=
    ⟨.midnight ⟨768529, by decide, by decide⟩, by decide +kernel, by decide +kernel⟩
  refine ⟨by decide +kernel, window, inside, yearly, ?_⟩
  exact (upcomingChange_decides parsed {} t window inside (.inl ⟨by decide, yearly⟩)).2.2 other

end Schedule

end OpeningTimes
