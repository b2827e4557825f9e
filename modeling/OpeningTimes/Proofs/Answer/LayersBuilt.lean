import OpeningTimes.Proofs.Answer.NextChange
import OpeningTimes.Proofs.Calendar.YearsLater

/-!
# How many layers a search builds

A search forward asks for one day after the other. The layers of the day it has come to and of the
one before are always among those that it keeps, so that each further day takes one new layer, and
none is built a second time.
-/

namespace OpeningTimes

namespace Memory

def dates (m : Memory) : List Date := m.recent.map Prod.fst

/-- The newest layers are those of a date and of the one before it, and none is of a later date. -/
structure Reaches (m : Memory) (d : Date) : Prop where
  newest : d :: d.pred?.toList <+: m.dates
  none_later : ∀ e ∈ m.dates, e ≤ d

end Memory

namespace Schedule

variable {s : Schedule} {m : Memory} {d next : Date}

-- ---------------------------------------------------------------------------
-- One layer
-- ---------------------------------------------------------------------------

theorem recallLayer_kept (h : d ∈ m.dates) : ((s.recallLayer d).run m).2 = m := by
  obtain ⟨entry, hentry, rfl⟩ := List.mem_map.mp h
  simp only [recallLayer, StateT.run]
  cases hkept : m.recent.lookup entry.1 with
  | some layer => rfl
  | none => simpa using List.lookup_eq_none_iff.mp hkept entry hentry

theorem recallLayer_new (h : d ∉ m.dates) :
    ((s.recallLayer d).run m).2 =
      ⟨((d, s.layer d) :: m.recent).take Memory.capacity, m.built + 1⟩ := by
  simp only [recallLayer, StateT.run]
  cases hkept : m.recent.lookup d with
  | none => rfl
  | some layer =>
    obtain ⟨before, after, hrecent, -⟩ := List.lookup_eq_some_iff.mp hkept
    exact absurd (by simp [Memory.dates, hrecent]) h

theorem reaches_of_new (hbefore : d.pred?.toList <+: m.dates) (hearlier : ∀ e ∈ m.dates, e < d) :
    ((s.recallLayer d).run m).2.Reaches d ∧ ((s.recallLayer d).run m).2.built = m.built + 1 := by
  have hnew : d ∉ m.dates := fun hd => Int.lt_irrefl _ (hearlier d hd)
  have hdates : ((s.recallLayer d).run m).2.dates = (d :: m.dates).take 3 := by
    rw [recallLayer_new hnew, Memory.dates, List.map_take]
    rfl
  refine ⟨⟨?_, fun e he => ?_⟩, by rw [recallLayer_new hnew]⟩
  · have hfew : (d :: d.pred?.toList).length ≤ 3 := by cases d.pred? <;> simp
    rw [hdates]
    exact List.prefix_take_iff.mpr ⟨List.cons_prefix_cons.mpr ⟨rfl, hbefore⟩, hfew⟩
  · rw [hdates] at he
    rcases List.mem_cons.mp (List.mem_of_mem_take he) with rfl | he
    · exact Std.le_refl _
    · exact Int.le_of_lt (hearlier e he)

-- ---------------------------------------------------------------------------
-- One day
-- ---------------------------------------------------------------------------

def memoryAfterDay (s : Schedule) (d : Date) (m : Memory) : Memory := ((s.recallDay d).run m).2

theorem memoryAfterDay_first (h : d.pred? = none) :
    s.memoryAfterDay d m = ((s.recallLayer d).run m).2 := by
  unfold memoryAfterDay recallDay recallLayerBefore
  rw [h]
  rfl

theorem memoryAfterDay_later {previous : Date} (h : d.pred? = some previous) :
    s.memoryAfterDay d m = ((s.recallLayer d).run ((s.recallLayer previous).run m).2).2 := by
  unfold memoryAfterDay recallDay recallLayerBefore
  rw [h]
  rfl

/-- A search begins with the layer of its day and, unless the calendar starts with it, that of the
day before. -/
theorem memoryAfterDay_empty (s : Schedule) (d : Date) :
    (s.memoryAfterDay d {}).Reaches d ∧
      (s.memoryAfterDay d {}).built = if d = Date.first then 1 else 2 := by
  cases hpred : d.pred? with
  | none =>
    rw [memoryAfterDay_first hpred, if_pos (Date.pred?_eq_none_iff.mp hpred)]
    exact reaches_of_new (by simp [hpred]) (by simp [Memory.dates])
  | some previous =>
    have hfirst : d ≠ Date.first := fun heq => by simp [Date.pred?_eq_none_iff.mpr heq] at hpred
    have hbefore : ((s.recallLayer previous).run {}).2 = ⟨[(previous, s.layer previous)], 1⟩ := rfl
    rw [memoryAfterDay_later hpred, if_neg hfirst, hbefore]
    refine reaches_of_new (by simp [hpred, Memory.dates]) fun e he => ?_
    obtain rfl : e = previous := by simpa [Memory.dates] using he
    exact (Date.le_pred_iff hpred).mp (Std.le_refl _)

theorem memoryAfterDay_again (h : m.Reaches d) : s.memoryAfterDay d m = m := by
  have hown : d ∈ m.dates := h.newest.subset (by simp)
  cases hpred : d.pred? with
  | none => rw [memoryAfterDay_first hpred, recallLayer_kept hown]
  | some previous =>
    have hprevious : previous ∈ m.dates := h.newest.subset (by simp [hpred])
    rw [memoryAfterDay_later hpred, recallLayer_kept hprevious, recallLayer_kept hown]

theorem memoryAfterDay_next (h : m.Reaches d) (hnext : d.succ? = some next) :
    (s.memoryAfterDay next m).Reaches next ∧ (s.memoryAfterDay next m).built = m.built + 1 := by
  have hpred := Date.pred?_of_succ? hnext
  have hnewest : [d] <+: m.dates := List.IsPrefix.trans (by simp) h.newest
  rw [memoryAfterDay_later hpred, recallLayer_kept (hnewest.subset (by simp))]
  refine reaches_of_new (by simpa [hpred] using hnewest) fun e he => ?_
  exact (Date.lt_succ_iff hnext).mpr (h.none_later e he)

-- ---------------------------------------------------------------------------
-- Day after day
-- ---------------------------------------------------------------------------

theorem run_recallChangeFrom (hm : m.Sound s) (t : Instant) (status : Status) (days : Nat)
    (d : Date) : (s.recallChangeFrom t status (days + 1) d).run m =
      match firstOther? t status (s.stretches d) with
      | some r => (some r.start, s.memoryAfterDay d m)
      | none =>
        match d.succ? with
        | some next => (s.recallChangeFrom t status days next).run (s.memoryAfterDay d m)
        | none => (none, s.memoryAfterDay d m) := by
  have hvalue := (recalls_stretches s d m hm).1
  have hleft : ((s.recallStretches d).run m).2 = s.memoryAfterDay d m := rfl
  rw [recallChangeFrom, Memory.run_bind, hvalue, hleft]
  cases firstOther? t status (s.stretches d) with
  | some r => rfl
  | none => cases d.succ? <;> rfl

theorem memoryAfterDay_sound (hm : m.Sound s) (d : Date) : (s.memoryAfterDay d m).Sound s :=
  (recalls_day s d m hm).2

/-- The last day that a search looks at: the one of the change that it finds, or else the last one
given. -/
def lastLookedAt (last : Date) (found : Option Instant) : Date := found.elim last (·.date)

section

variable (h : s.WellFormed)
include h

theorem start_date_of_firstOther? {t : Instant} {status : Status} {r : Stretch}
    (hr : firstOther? t status (s.stretches d) = some r) : r.start.date = d := by
  obtain ⟨b, hb, rfl⟩ := List.mem_map.mp (List.mem_of_find?_eq_some hr)
  have := (day_tiles h d).bounds b hb
  exact Block.onDate_start_date (by omega) d

/-- After the first day, a search takes one layer for each day that it looks at. -/
theorem built_recallChangeFrom (t : Instant) (status : Status) {last : Date} (days : Nat)
    (hlast : last.number = d.number + days) (hm : m.Sound s)
    (hreaches : (s.memoryAfterDay d m).Reaches d) :
    ((s.recallChangeFrom t status (days + 1) d).run m).2.built + d.number =
      (s.memoryAfterDay d m).built +
        (lastLookedAt last (s.changeFrom t status (days + 1) d)).number := by
  induction days generalizing d m with
  | zero =>
    obtain rfl : last = d := Date.eq_iff.mpr (by omega)
    rw [run_recallChangeFrom hm, changeFrom]
    cases hfound : firstOther? t status (s.stretches last) with
    | some r => simp only [lastLookedAt, Option.elim_some, start_date_of_firstOther? h hfound]
    | none => cases last.succ? <;> rfl
  | succ days ih =>
    rw [run_recallChangeFrom hm, changeFrom]
    cases hfound : firstOther? t status (s.stretches d) with
    | some r => simp only [lastLookedAt, Option.elim_some, start_date_of_firstOther? h hfound]
    | none =>
      obtain ⟨next, hnext⟩ :=
        Date.exists_shift? (d := d) (e := last) (n := 1) (by decide) (by omega)
      have hnumber := Date.shift?_eq_some_iff.mp hnext
      obtain ⟨hreachesNext, hbuilt⟩ := memoryAfterDay_next (s := s) hreaches hnext
      have ih := ih (by omega) (memoryAfterDay_sound hm d) hreachesNext
      simp only [Date.succ?, hnext]
      omega

end

-- ---------------------------------------------------------------------------
-- The count of a search
-- ---------------------------------------------------------------------------

theorem built_search (s : Schedule) (t : Instant) :
    (s.search t).built = ((s.recallChangeAfter t (s.status t) (s.limits t.date).last).run
      (s.memoryAfterDay t.date {})).2.built := by
  have hstatus := (recalls_status s t {} (Memory.sound_empty s 0)).1
  have hleft : ((s.recallStatus t).run {}).2 = s.memoryAfterDay t.date {} := rfl
  show ((s.recallUpcomingChange t).run {}).2.built = _
  rw [recallUpcomingChange, Memory.run_bind, hstatus, hleft, Memory.run_bind]
  split
  · rfl
  · split <;> rfl

theorem proofEnd?_later {stop : Date} (h : s.proofEnd? d = some stop) : d ≤ stop := by
  simp only [proofEnd?, Option.bind_eq_bind, Option.bind_eq_some_iff] at h
  obtain ⟨base, hbase, last, hlast, hstop⟩ := h
  obtain ⟨e, hbe, hel, -⟩ := Period.exists_alike_after hlast d
  have hdb := (periodicFrom?_spec hbase).1
  have hstop := Date.shift?_eq_some_iff.mp hstop
  simp only [Date.le_iff, Date.lt_iff] at *
  omega

theorem le_limits_last (s : Schedule) (d : Date) : d ≤ (s.limits d).last := by
  cases hproven : (s.limits d).proven with
  | true => exact proofEnd?_later (limits_last_of_proven hproven)
  | false =>
    rw [limits_last_of_not_proven hproven]
    exact d.self_le_yearsLater _

/-- From an instant through a day, a search has built one layer for each day and one more for the
day before the first, unless the calendar starts with that one. -/
def BuildsThrough (s : Schedule) (t : Instant) (last : Date) : Prop :=
  ((s.search t).built : Int) =
    last.number - t.date.number + (if t.date = Date.first then 1 else 2 : Nat)

theorem buildsThrough_lastLookedAt (h : s.WellFormed) (t : Instant) :
    s.BuildsThrough t (lastLookedAt (s.limits t.date).last
      (s.changeAfter t (s.status t) (s.limits t.date).last)) := by
  have hle : t.date.number ≤ (s.limits t.date).last.number := s.le_limits_last t.date
  obtain ⟨days, hdays⟩ := Int.le.dest hle
  have hcount : t.date.daysThrough (s.limits t.date).last = days + 1 := by
    unfold Date.daysThrough
    omega
  obtain ⟨hreaches, hfirst⟩ := s.memoryAfterDay_empty t.date
  have hsound := memoryAfterDay_sound (Memory.sound_empty s 0) t.date
  -- the search begins with the day that it has looked at for the status of the instant
  have hagain := memoryAfterDay_again (s := s) hreaches
  have hbuilt := built_recallChangeFrom h t (s.status t) days hdays.symm hsound
    (hagain.symm ▸ hreaches)
  rw [hagain, hfirst] at hbuilt
  unfold BuildsThrough
  rw [built_search, recallChangeAfter, changeAfter, hcount]
  omega

/-- A search builds the layer of each day that it looks at once, and that of the day before the
first. It looks at the days through the one of the change, through the end of the proof that there
is none, or through the years that the context allows. -/
theorem search_builds_each_layer_once {raw : String} {rules : List Rule}
    (h : Rule.ofText raw = .ok rules) (c : Context) (t : Instant) :
    let s : Schedule := ⟨rules, c⟩
    (∀ change, s.upcomingChange t = .ok (some change) → s.BuildsThrough t change.date) ∧
      (s.upcomingChange t = .ok none →
        ∃ stop, s.proofEnd? t.date = some stop ∧ s.BuildsThrough t stop) ∧
      ∀ undecided, s.upcomingChange t = .error undecided →
        s.BuildsThrough t (t.date.yearsLater c.yearLimit) := by
  intro s
  have builds := buildsThrough_lastLookedAt (Rule.wellFormed_of_ofText h : s.WellFormed) t
  refine ⟨fun change hchange => ?_, fun hnone => ?_, fun undecided hundecided => ?_⟩
  · rw [upcomingChange_eq_some_iff.mp hchange] at builds
    exact builds
  · obtain ⟨hproven, hsearch⟩ := upcomingChange_eq_none_iff.mp hnone
    rw [hsearch] at builds
    exact ⟨_, limits_last_of_proven hproven, builds⟩
  · obtain ⟨hproven, hsearch, -⟩ := upcomingChange_eq_error_iff.mp hundecided
    rw [hsearch] at builds
    rw [← limits_last_of_not_proven hproven]
    exact builds

/-- From Tuesday noon through the Monday after. On the first date of the calendar there is no day
before. -/
theorem search_builds_each_layer_once_week :
    ∃ rules, Rule.ofText "Mo 10:00-12:00" = .ok rules ∧
      let s : Schedule := ⟨rules, {}⟩
      let t : Instant := .atMinute ⟨739385, by decide, by decide⟩ 720
      let monday : Date := ⟨739391, by decide, by decide⟩
      s.upcomingChange t = .ok (some (.atMinute monday 600)) ∧ (s.search t).built = 8 ∧
        s.BuildsThrough t (Instant.atMinute monday 600).date ∧
      let s : Schedule := ⟨rules, { yearLimit := 0 }⟩
      s.upcomingChange Instant.first = .error ⟨Instant.first, 0⟩ ∧
      (s.search Instant.first).built = 1 ∧
        s.BuildsThrough Instant.first (Date.first.yearsLater 0) := by
  have parsed : Rule.ofText "Mo 10:00-12:00" = .ok
      [⟨[], [], [], { weekdays := .ofDay .monday }, [⟨.fixed 600, some (.fixed 720), false⟩],
        .opened, none, .replace⟩] := rfl
  refine ⟨_, parsed, ?_⟩
  intro s t monday
  have found : s.upcomingChange t = .ok (some (.atMinute monday 600)) := by decide +kernel
  refine ⟨found, by decide +kernel, (search_builds_each_layer_once parsed {} t).1 _ found, ?_⟩
  intro s
  have gaveUp : s.upcomingChange Instant.first = .error ⟨Instant.first, 0⟩ := by decide +kernel
  exact ⟨gaveUp, by decide +kernel,
    (search_builds_each_layer_once parsed { yearLimit := 0 } Instant.first).2.2 _ gaveUp⟩

end Schedule

end OpeningTimes
