import OpeningTimes.Proofs.Answer.NextChange
import OpeningTimes.Proofs.Schedule.LastChange

/-!
# The extent of a status is all of it

The extent around an instant begins and ends where the status does, as far as the search looks. Its
end is the next change. A search back that has come to the start of a proof has seen a day for every
earlier one, so that the status has always been the same.
-/

namespace OpeningTimes

theorem Extent.contains_iff {e : Extent} {t : Instant} :
    e.contains t = true ↔ (∀ start ∈ e.start, start ≤ t) ∧ ∀ stop ∈ e.stop, t < stop := by
  simp [contains, Option.all_eq_true]

/-- An extent is all of the status of an instant, as far as the search looks, and ends with the next
change. -/
structure Extent.SpansStatus (e : Extent) (s : Schedule) (t : Instant) : Prop where
  contains : e.contains t = true
  status : e.status = s.status t
  keeps : ∀ u, e.contains u = true → .midnight (s.limits t.date).first ≤ u →
    u.date ≤ (s.limits t.date).last → s.status u = s.status t
  differs_before : ∀ start ∈ e.start,
    ∃ v, v < start ∧ ∀ u, v ≤ u → u < start → s.status u ≠ s.status t
  differs_after : ∀ stop ∈ e.stop, s.status stop ≠ s.status t
  stop_iff : ∀ stop, e.stop = some stop ↔ s.upcomingChange t = .ok (some stop)

namespace Schedule

variable {s : Schedule}

theorem extentAt_eq_none_iff {t : Instant} :
    s.extentAt t = none ↔ (s.status t).state = .closed := by
  rw [extentAt_eq]
  split <;> simp_all

theorem extentAt_eq_some {t : Instant} {e : Extent} (h : s.extentAt t = some e) :
    e = ⟨s.changeBefore t (s.status t) (s.limits t.date).first,
      s.changeAfter t (s.status t) (s.limits t.date).last, s.status t⟩ := by
  rw [extentAt_eq] at h
  split at h
  · cases h
  · exact (Option.some.inj h).symm

-- ---------------------------------------------------------------------------
-- Both sides of an instant
-- ---------------------------------------------------------------------------

section

variable (h : s.WellFormed)
include h

theorem keeps_of_changeBefore {t u : Instant} {first : Date} (hut : u ≤ t) (hu : first ≤ u.date)
    (hstart : ∀ start ∈ s.changeBefore t (s.status t) first, start ≤ u) :
    s.status u = s.status t := by
  have spec := changeBefore_spec h t first
  cases hfound : s.changeBefore t (s.status t) first with
  | none =>
    rw [hfound] at spec
    exact spec u hut hu
  | some start =>
    rw [hfound] at spec
    exact spec.since u (hstart start hfound) hut

theorem keeps_of_changeAfter {t u : Instant} {last : Date} (htu : t ≤ u) (hu : u.date ≤ last)
    (hstop : ∀ stop ∈ s.changeAfter t (s.status t) last, u < stop) : s.status u = s.status t := by
  cases hfound : s.changeAfter t (s.status t) last with
  | none => exact changeAfter_eq_none h hfound u htu hu
  | some stop => exact (changeAfter_eq_some h hfound).1.before u htu (hstop stop hfound)

theorem lastsSince_of_changeBefore {t start : Instant} {first : Date}
    (hfound : s.changeBefore t (s.status t) first = some start) : s.LastsSince t start := by
  simpa only [hfound] using changeBefore_spec h t first

theorem spansStatus_of_extentAt {t : Instant} {e : Extent} (he : s.extentAt t = some e) :
    e.SpansStatus s t := by
  obtain rfl := extentAt_eq_some he
  constructor
  case contains =>
    refine Extent.contains_iff.mpr ⟨fun start hstart => ?_, fun stop hstop => ?_⟩
    · exact (lastsSince_of_changeBefore h hstart).le
    · exact (changeAfter_eq_some h hstop).1.later
  case status => rfl
  case keeps =>
    intro u hu hfirst hlast
    obtain ⟨hstart, hstop⟩ := Extent.contains_iff.mp hu
    rcases Int.le_total u.key t.key with hut | htu
    · exact keeps_of_changeBefore h hut (Instant.date_le_of_le hfirst) hstart
    · exact keeps_of_changeAfter h htu hlast hstop
  case differs_before =>
    intro start hstart
    exact (lastsSince_of_changeBefore h hstart).before
  case differs_after =>
    intro stop hstop
    exact (changeAfter_eq_some h hstop).1.differs
  case stop_iff =>
    intro stop
    exact upcomingChange_eq_some_iff.symm

end

-- ---------------------------------------------------------------------------
-- The answer
-- ---------------------------------------------------------------------------

/-- A place has an extent just where it is not closed, and this is all of the status around the
instant. -/
theorem extentAt_spans_status {raw : String} {rules : List Rule} (h : Rule.ofText raw = .ok rules)
    (c : Context) (t : Instant) :
    let s : Schedule := ⟨rules, c⟩
    (s.extentAt t = none ↔ (s.status t).state = .closed) ∧
      ∀ e, s.extentAt t = some e → e.SpansStatus s t := by
  intro s
  have wellFormed : s.WellFormed := Rule.wellFormed_of_ofText h
  exact ⟨extentAt_eq_none_iff, fun e he => spansStatus_of_extentAt wellFormed he⟩

/-- From half past twelve at night, with the evening before on the other side of midnight. -/
theorem extentAt_spans_status_overnight :
    ∃ rules, Rule.ofText "Mo 22:00-02:00" = .ok rules ∧
      let s : Schedule := ⟨rules, {}⟩
      let monday : Date := ⟨739384, by decide, by decide⟩
      let tuesday : Date := ⟨739385, by decide, by decide⟩
      let e : Extent :=
        ⟨some (.atMinute monday 1320), some (.atMinute tuesday 120), ⟨.opened, false, none⟩⟩
      s.extentAt (.atMinute tuesday 30) = some e ∧ e.SpansStatus s (.atMinute tuesday 30) ∧
        s.extentAt (.atMinute tuesday 120) = none ∧
        (s.status (.atMinute tuesday 120)).state = .closed := by
  have parsed : Rule.ofText "Mo 22:00-02:00" = .ok
      [⟨[], [], [], { weekdays := .ofDay .monday }, [⟨.fixed 1320, some (.fixed 120), false⟩],
        .opened, none, .replace⟩] := rfl
  refine ⟨_, parsed, ?_⟩
  intro s monday tuesday e
  have found : s.extentAt (.atMinute tuesday 30) = some e := by decide +kernel
  have closed : s.extentAt (.atMinute tuesday 120) = none := by decide +kernel
  exact ⟨found, (extentAt_spans_status parsed {} _).2 e found, closed,
    (extentAt_spans_status parsed {} _).1.mp closed⟩

/-- A status that has lasted since the start of the proof for its date has lasted for all time, but
for the first date of the calendar, which has no day before it. -/
theorem status_before_proofStart {raw : String} {rules : List Rule}
    (h : Rule.ofText raw = .ok rules) (c : Context) {t : Instant} {start : Date} {status : Status} :
    let s : Schedule := ⟨rules, c⟩
    s.proofStart? t.date = some start →
      (∀ u, .midnight start ≤ u → u ≤ t → s.status u = status) →
      ∀ u, u ≤ t → u.date ≠ Date.first → s.status u = status := by
  intro s hproof kept u hut hfirst
  have wellFormed : s.WellFormed := Rule.wellFormed_of_ofText h
  rcases Classical.em (Instant.midnight start ≤ u) with hseen | hearlier
  · exact kept u hseen hut
  · have hdate : u.date < start := by
      refine Date.not_le.mp fun hle => hearlier ?_
      exact Instant.midnight_le hle
    obtain ⟨e, hstart, hlt, hday⟩ := exists_same_day_before wellFormed hproof hdate hfirst
    have hfrom : Instant.midnight start ≤ ⟨e, u.time⟩ := Instant.midnight_le (Int.le_of_lt hstart)
    have huntil : (⟨e, u.time⟩ : Instant) ≤ t := Instant.le_iff_lex.mpr (.inl hlt)
    calc s.status u = s.status ⟨e, u.time⟩ := by rw [Schedule.status, Schedule.status, hday]
      _ = status := kept ⟨e, u.time⟩ hfrom huntil

/-- A place that opens every evening for a whole day has always been open, but for the morning on
which time begins. -/
theorem status_before_proofStart_evenings :
    ∃ rules, Rule.ofText "20:00-44:00" = .ok rules ∧
      let s : Schedule := ⟨rules, {}⟩
      let t : Instant := .atMinute ⟨739385, by decide, by decide⟩ 720
      let start : Date := ⟨739376, by decide, by decide⟩
      let status : Status := ⟨.opened, false, none⟩
      s.proofStart? t.date = some start ∧
        (∀ u, .midnight start ≤ u → u ≤ t → s.status u = status) ∧
        (∀ u, u ≤ t → u.date ≠ Date.first → s.status u = status) ∧
        s.status Instant.first = .closed := by
  have parsed : Rule.ofText "20:00-44:00" = .ok
      [⟨[], [], [], {}, [⟨.fixed 1200, some (.fixed 2640), false⟩], .opened, none, .replace⟩] := rfl
  refine ⟨_, parsed, ?_⟩
  intro s t start status
  have proof : s.proofStart? t.date = some start := by decide +kernel
  have now : s.status t = status := by decide +kernel
  have unchanged : s.changeBefore t (s.status t) start = none := by decide +kernel
  have kept : ∀ u, .midnight start ≤ u → u ≤ t → s.status u = status := by
    intro u hstart hut
    have hdate : start ≤ u.date := Instant.date_le_of_le hstart
    rw [← now]
    exact keeps_of_changeBefore (Rule.wellFormed_of_ofText parsed) hut hdate (by simp [unchanged])
  exact ⟨proof, kept, status_before_proofStart parsed {} proof kept, by decide +kernel⟩

end Schedule

end OpeningTimes
