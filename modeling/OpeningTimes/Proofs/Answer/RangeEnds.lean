import OpeningTimes.Proofs.Answer.OpenStretches

/-!
# Where a range ends

The dates of a range go through the one a second before its stop. So a range that stops at a part of
the first second of a day leaves that day out, unless it starts on it. In the first second of the
calendar there is no date a second before, and the range has no answer. All other open times of a
range are found.
-/

namespace OpeningTimes

namespace Instant

theorem dateOfSecondBefore?_eq_none_iff {t : Instant} :
    t.dateOfSecondBefore? = none ↔ t.date = Date.first ∧ t.time.InFirstSecond := by
  have hfirst := t.date.first_le
  have hlast := t.date.le_last
  unfold dateOfSecondBefore?
  split <;> rename_i hsecond
  · simp only [Date.pred?, Date.shift?, Date.ofNumber?_eq_none_iff, Date.eq_iff,
      Date.first, hsecond, and_true]
    omega
  · simp [hsecond]

end Instant

namespace Schedule

/-- In a range that starts on an earlier date, the instants of the first second of a date at which
the range stops within this second. -/
def LeftOut (start stop t : Instant) : Prop :=
  start.date < stop.date ∧ t.date = stop.date ∧ stop.time.InFirstSecond

theorem mem_datesOf_iff {start stop t : Instant} (hstart : start ≤ t) (hstop : t < stop) :
    t.date ∈ datesOf start stop ↔ ¬ LeftOut start stop t := by
  have hfrom := Instant.date_le_of_le hstart
  have hto := Instant.date_le_of_le (Instant.le_of_lt hstop)
  have hfirst := start.date.first_le
  have hlast := stop.date.le_last
  rw [datesOf, Date.mem_following, LeftOut]
  unfold Date.daysThrough Instant.dateOfSecondBefore
  simp only [Date.le_iff, Date.lt_iff, Date.eq_iff] at *
  split <;> rename_i hsecond
  · simp only [hsecond, and_true]
    cases hpred : stop.date.pred? with
    | none =>
      have := Date.ofNumber?_eq_none_iff.mp hpred
      simp only [Option.getD_none]
      omega
    | some previous =>
      have := Date.shift?_eq_some_iff.mp hpred
      simp only [Option.getD_some]
      omega
  · simp only [hsecond, and_false, not_false_eq_true, iff_true]
    omega

theorem not_leftOut (start : Instant) {stop t : Instant} (hstop : t < stop)
    (hsecond : stop.time.InFirstSecond → stop.time.nanosecond = 0) : ¬ LeftOut start stop t := by
  rintro ⟨-, hdate, hfirst⟩
  rw [Instant.lt_iff_lex, hfirst.1, hsecond hfirst, hdate, Date.lt_iff] at hstop
  omega

section

variable {s : Schedule} {start stop : Instant}

theorem openStretches?_eq_none_iff (hrange : start < stop) :
    s.openStretches? start stop = none ↔ stop.date = Date.first ∧ stop.time.InFirstSecond := by
  rw [← Instant.dateOfSecondBefore?_eq_none_iff]
  simp [openStretches?, hrange]

theorem openStretches?_eq_some (hrange : start < stop)
    (hsecond : stop.time.InFirstSecond → stop.time.nanosecond = 0) :
    s.openStretches? start stop = some (s.openStretches start stop) := by
  refine if_neg fun ⟨_, hnone⟩ => ?_
  obtain ⟨hdate, hfirst⟩ := Instant.dateOfSecondBefore?_eq_none_iff.mp hnone
  have := start.date.first_le
  rw [Instant.lt_iff_lex, hdate, hfirst.1, hsecond hfirst, Date.lt_iff] at hrange
  simp only [Date.first] at hrange
  omega

theorem eq_openStretches_of_some {rs : List Stretch} (h : s.openStretches? start stop = some rs) :
    rs = s.openStretches start stop := by
  unfold openStretches? at h
  split at h
  · cases h
  · exact (Option.some.inj h).symm

theorem gives_openStretches_iff (h : s.WellFormed) (hrange : start < stop) {t : Instant}
    {status : Status} : Stretch.Gives (s.openStretches start stop) t status ↔
      (start ≤ t ∧ t < stop ∧ ¬ LeftOut start stop t ∧ t < Instant.last) ∧
        s.status t = status ∧ status.state ≠ .closed := by
  rw [gives_openStretches h hrange]
  constructor
  · rintro ⟨⟨hdate, hlast, hstatus⟩, hstart, hstop⟩
    exact ⟨⟨hstart, hstop, (mem_datesOf_iff hstart hstop).mp hdate, hlast⟩, hstatus⟩
  · rintro ⟨⟨hstart, hstop, hdate, hlast⟩, hstatus⟩
    exact ⟨⟨(mem_datesOf_iff hstart hstop).mpr hdate, hlast, hstatus⟩, hstart, hstop⟩

end

/-- A range has an answer unless it stops in the first second of the calendar. Each open time of it
before the end of the calendar is found, but for a part of the first second of the day that it stops
on. -/
theorem openStretches?_find_open_times {raw : String} {rules : List Rule}
    (h : Rule.ofText raw = .ok rules) (c : Context) {start stop : Instant} (hrange : start < stop) :
    let s : Schedule := ⟨rules, c⟩
    (s.openStretches? start stop = none ↔ stop.date = Date.first ∧ stop.time.InFirstSecond) ∧
      ∀ rs, s.openStretches? start stop = some rs →
        ∀ t, start ≤ t → t < stop → (s.status t).state ≠ .closed →
          (∀ r ∈ rs, r.Contains t → r.status = s.status t) ∧
            ((∃ r ∈ rs, r.Contains t) ↔ ¬ LeftOut start stop t ∧ t < Instant.last) := by
  intro s
  have wellFormed : s.WellFormed := Rule.wellFormed_of_ofText h
  refine ⟨openStretches?_eq_none_iff hrange, fun rs hrs t hstart hstop hopen => ?_⟩
  obtain rfl := eq_openStretches_of_some hrs
  have told {r : Stretch} (hr : r ∈ s.openStretches start stop) (hm : r.Contains t) :=
    (gives_openStretches_iff wellFormed hrange).mp ⟨r, hr, hm, rfl⟩
  refine ⟨fun r hr hm => (told hr hm).2.1.symm, fun ⟨r, hr, hm⟩ => (told hr hm).1.2.2,
    fun ⟨hdate, hlast⟩ => ?_⟩
  obtain ⟨r, hr, hm, -⟩ := (gives_openStretches_iff wellFormed hrange).mpr
    ⟨⟨hstart, hstop, hdate, hlast⟩, rfl, hopen⟩
  exact ⟨r, hr, hm⟩

/-- A range over a Monday night that stops half a second after the next midnight has all of the
night. -/
theorem openStretches?_find_open_times_overnight :
    ∃ rules, Rule.ofText "Mo 22:00-02:00" = .ok rules ∧
      let s : Schedule := ⟨rules, {}⟩
      let monday : Date := ⟨739384, by decide, by decide⟩
      let tuesday : Date := ⟨739385, by decide, by decide⟩
      let wednesday : Date := ⟨739386, by decide, by decide⟩
      let start := Instant.midnight monday
      let stop : Instant := ⟨wednesday, ⟨0, 500000000, by decide, by decide⟩⟩
      let night : Stretch := ⟨.atMinute monday 1320, .atMinute tuesday 120, ⟨.opened, false, none⟩⟩
      start < stop ∧ s.openStretches? start stop = some [night] ∧
        ∃ r ∈ [night], r.Contains (.midnight tuesday) := by
  have parsed : Rule.ofText "Mo 22:00-02:00" = .ok
      [⟨[], [], [], { weekdays := .ofDay .monday }, [⟨.fixed 1320, some (.fixed 120), false⟩],
        .opened, none, .replace⟩] := rfl
  refine ⟨_, parsed, ?_⟩
  intro s monday tuesday wednesday start stop night
  have hrange : start < stop := by decide +kernel
  have found : s.openStretches? start stop = some [night] := by decide +kernel
  have covered := (openStretches?_find_open_times parsed {} hrange).2 _ found (.midnight tuesday)
    (by decide +kernel) (by decide +kernel) (by decide +kernel)
  refine ⟨hrange, found, covered.2.mpr ⟨fun left => ?_, by decide +kernel⟩⟩
  exact absurd left.2.1 (by decide +kernel)

/-- A place that never closes is open for the half second after midnight at which a range stops, and
no stretch of the range has it. In the first second of the calendar there is no answer at all. -/
theorem openStretches?_leave_out_half_a_second :
    ∃ rules, Rule.ofText "24/7" = .ok rules ∧
      let s : Schedule := ⟨rules, {}⟩
      let start := Instant.midnight ⟨739384, by decide, by decide⟩
      let midnight := Instant.midnight ⟨739385, by decide, by decide⟩
      let halfPast (d : Date) : Instant := ⟨d, ⟨0, 500000000, by decide, by decide⟩⟩
      (start ≤ midnight ∧ midnight < halfPast midnight.date ∧ (s.status midnight).state = .opened ∧
        ∃ rs, s.openStretches? start (halfPast midnight.date) = some rs ∧
          ∀ r ∈ rs, ¬ r.Contains midnight) ∧
        Instant.first < halfPast Date.first ∧
          s.openStretches? Instant.first (halfPast Date.first) = none := by
  have parsed : Rule.ofText "24/7" = .ok [⟨[], [], [], {}, [], .opened, none, .replace⟩] := rfl
  refine ⟨_, parsed, ?_⟩
  intro s start midnight halfPast
  have found : s.openStretches? start (halfPast midnight.date) =
      some [⟨start, midnight, ⟨.opened, false, none⟩⟩] := by decide +kernel
  refine ⟨⟨by decide +kernel, by decide +kernel, by decide +kernel, _, found, ?_⟩,
    by decide +kernel, by decide +kernel⟩
  simp [Stretch.Contains, Instant.lt_iff]

end Schedule

end OpeningTimes
