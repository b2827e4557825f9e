import OpeningTimes.Proofs.Schedule.Stretches

/-!
# The open times of a range

The open stretches of a range are separate, lie within it, and give each instant of it the status
that it has. The last date ends with the last instant, so that the leap second after it belongs to
no stretch.
-/

namespace OpeningTimes

-- ---------------------------------------------------------------------------
-- The dates of a range
-- ---------------------------------------------------------------------------

namespace Date

theorem mem_following {d e : Date} {count : Nat} :
    e ∈ d.following count ↔ d ≤ e ∧ e.number < d.number + count := by
  simp only [following, List.mem_filterMap, List.mem_range, shift?_eq_some_iff, le_iff]
  constructor
  · rintro ⟨days, hdays, he⟩
    omega
  · rintro ⟨hle, hlt⟩
    exact ⟨(e.number - d.number).toNat, by omega, by omega⟩

theorem following_sorted (d : Date) (count : Nat) : (d.following count).Pairwise (· < ·) := by
  refine List.pairwise_filterMap.mpr (List.pairwise_lt_range.imp fun hlt a ha b hb => ?_)
  have ha := shift?_eq_some_iff.mp ha
  have hb := shift?_eq_some_iff.mp hb
  rw [lt_iff]
  omega

end Date

theorem Instant.date_le_dateOfSecondBefore {t stop : Instant} (h : t < stop)
    (whole : stop.time.fraction = 0) : t.date ≤ stop.dateOfSecondBefore := by
  have hdate := date_le_of_le (le_of_lt h)
  unfold dateOfSecondBefore
  split
  · rename_i hfirst
    obtain ⟨hsecond, hnanosecond⟩ := hfirst
    -- a stop at midnight is the very first instant of its date
    have hzero : stop.time.nanosecond = 0 := by
      unfold TimeOfDay.fraction at whole
      omega
    have hlt : t.date < stop.date := by
      rw [lt_iff_lex, hsecond, hzero] at h
      rcases h with hlt | ⟨-, hlt⟩
      · exact hlt
      · omega
    cases hpred : stop.date.pred? with
    | none => exact hdate
    | some previous =>
      have := Date.shift?_eq_some_iff.mp hpred
      simp only [Option.getD_some, Date.le_iff, Date.lt_iff] at *
      omega
  · exact hdate

namespace Schedule

theorem mem_datesOf {start stop t : Instant} (hstart : start ≤ t) (hstop : t < stop)
    (whole : stop.time.fraction = 0) : t.date ∈ datesOf start stop := by
  have hle := Instant.date_le_of_le hstart
  have hend := Instant.date_le_dateOfSecondBefore hstop whole
  rw [datesOf, Date.mem_following]
  refine ⟨hle, ?_⟩
  rw [Date.le_iff] at hle hend
  unfold Date.daysThrough
  omega

-- ---------------------------------------------------------------------------
-- The open stretches
-- ---------------------------------------------------------------------------

theorem openStretches_eq (s : Schedule) {start stop : Instant} (h : start < stop) :
    s.openStretches start stop =
      Stretch.within (s.openStretchesOf (datesOf start stop)) start stop := by
  rw [openStretches, if_neg (Instant.not_le.mpr h)]
  rfl

section

variable {s : Schedule} (h : s.WellFormed) {start stop : Instant}
include h

theorem openStretches_separate (hrange : start < stop) :
    Stretch.Separate (s.openStretches start stop) := by
  rw [openStretches_eq s hrange, openStretchesOf_eq]
  exact (openDays_ordered h (Date.following_sorted ..)).joined.1.within start stop

theorem gives_openStretches (hrange : start < stop) {t : Instant} {status : Status} :
    Stretch.Gives (s.openStretches start stop) t status ↔
      (t.date ∈ datesOf start stop ∧ t < Instant.last ∧ s.status t = status ∧
        status.state ≠ .closed) ∧ start ≤ t ∧ t < stop := by
  have ordered := openDays_ordered h (Date.following_sorted start.date
    (max 1 (start.date.daysThrough stop.dateOfSecondBefore)))
  rw [openStretches_eq s hrange, Stretch.gives_within, openStretchesOf_eq, datesOf,
    ordered.joined.2.1, gives_openDays h]

end

/-- The stretches of a range that ends with a full second are separate and lie within it. An instant
of the range before the end of the calendar lies in exactly one stretch, with the status that it
has, or in none if the place is closed. -/
theorem openStretches_exact {raw : String} {rules : List Rule} (h : Rule.ofText raw = .ok rules)
    (c : Context) {start stop : Instant} (hrange : start < stop) (whole : stop.time.fraction = 0) :
    let s : Schedule := ⟨rules, c⟩
    let rs := s.openStretches start stop
    (∀ r ∈ rs, r.start < r.stop ∧ start ≤ r.start ∧ r.stop ≤ stop) ∧
      rs.Pairwise (fun a b => a.stop ≤ b.start ∧ (a.stop = b.start → a.status ≠ b.status)) ∧
      ∀ t, start ≤ t → t < stop →
        ((s.status t).state = .closed → ∀ r ∈ rs, ¬ r.Contains t) ∧
        ((s.status t).state ≠ .closed → t < Instant.last →
          ∃ r ∈ rs, r.Contains t ∧ r.status = s.status t ∧ ∀ r' ∈ rs, r'.Contains t → r' = r) := by
  intro s rs
  have wellFormed : s.WellFormed := Rule.wellFormed_of_ofText h
  have separate : Stretch.Separate rs := openStretches_separate wellFormed hrange
  refine ⟨?_, separate.apart.and separate.differ, fun t hstart hstop => ⟨fun hclosed r hr hm => ?_,
    fun hopen hlast => ?_⟩⟩
  · simp only [rs, openStretches_eq s hrange]
    exact Stretch.within_bounds
  · obtain ⟨⟨-, -, hstatus, hopen⟩, -⟩ :=
      (gives_openStretches wellFormed hrange).mp ⟨r, hr, hm, rfl⟩
    exact hopen (hstatus ▸ hclosed)
  · obtain ⟨r, hr, hm, hstatus⟩ := (gives_openStretches wellFormed hrange).mpr
      ⟨⟨mem_datesOf hstart hstop whole, hlast, rfl, hopen⟩, hstart, hstop⟩
    exact ⟨r, hr, hm, hstatus, fun r' hr' hm' => separate.unique hr' hr hm' hm⟩

/-- A Monday night that is cut off at one o'clock on Tuesday is a single stretch over midnight. -/
theorem openStretches_exact_overnight :
    ∃ rules, Rule.ofText "Mo 22:00-02:00" = .ok rules ∧
      let s : Schedule := ⟨rules, {}⟩
      let monday : Date := ⟨739384, by decide, by decide⟩
      let tuesday : Date := ⟨739385, by decide, by decide⟩
      let start := Instant.midnight monday
      let stop := Instant.atMinute tuesday 60
      start < stop ∧ stop.time.fraction = 0 ∧
        s.openStretches start stop = [⟨.atMinute monday 1320, stop, ⟨.opened, false, none⟩⟩] ∧
        ∃ r ∈ s.openStretches start stop, r.Contains (.midnight tuesday) ∧
          r.status = s.status (.midnight tuesday) ∧
          ∀ r' ∈ s.openStretches start stop, r'.Contains (.midnight tuesday) → r' = r := by
  have parsed : Rule.ofText "Mo 22:00-02:00" = .ok
      [⟨[], [], [], { weekdays := .ofDay .monday }, [⟨.fixed 1320, some (.fixed 120), false⟩],
        .opened, none, .replace⟩] := rfl
  refine ⟨_, parsed, ?_⟩
  intro s monday tuesday start stop
  have hrange : start < stop := by decide +kernel
  have whole : stop.time.fraction = 0 := by decide +kernel
  obtain ⟨-, -, pointwise⟩ := openStretches_exact parsed {} hrange whole
  exact ⟨hrange, whole, by decide +kernel,
    (pointwise (.midnight tuesday) (by decide +kernel) (by decide +kernel)).2 (by decide +kernel)
      (by decide +kernel)⟩

/-- A range that ends with the leap second after the last minute has the last instant, on which a
place that never closes is open, and no stretch of it has. -/
theorem openStretches_end_with_last_instant :
    ∃ rules, Rule.ofText "24/7" = .ok rules ∧
      let s : Schedule := ⟨rules, {}⟩
      let start := Instant.midnight Date.last
      let stop : Instant := ⟨Date.last, ⟨86399, 1000000000, by decide, by decide⟩⟩
      stop.time.fraction = 0 ∧ start ≤ Instant.last ∧ Instant.last < stop ∧
        (s.status Instant.last).state = .opened ∧
        ∀ r ∈ s.openStretches start stop, ¬ r.Contains Instant.last := by
  have parsed : Rule.ofText "24/7" = .ok [⟨[], [], [], {}, [], .opened, none, .replace⟩] := rfl
  refine ⟨_, parsed, ?_⟩
  intro s start stop
  have found : s.openStretches start stop = [⟨start, .last, ⟨.opened, false, none⟩⟩] := by
    decide +kernel
  refine ⟨by decide +kernel, by decide +kernel, by decide +kernel, by decide +kernel, ?_⟩
  rw [found]
  simp [Stretch.Contains, Instant.lt_iff]

end Schedule

end OpeningTimes
