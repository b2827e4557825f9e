import Mathlib.Data.List.Basic
import OpeningTimes.Hours

/-!
# What answers depend on

An expression asks its context for the kinds of holidays that its rules use and for the events of
the sun that its spans refer to. All answers are the same in two contexts that agree in these and in
the years of a search. What holds on a date depends on the holidays of this date and the one before,
and on no others.
-/

namespace OpeningTimes

-- ---------------------------------------------------------------------------
-- What rules mention
-- ---------------------------------------------------------------------------

def TimePoint.event? : TimePoint → Option SunEvent
  | .fixed _ => none
  | .solar event _ => some event

/-- The span starts or stops by the event. -/
def TimeRange.RefersTo (s : TimeRange) (event : SunEvent) : Prop :=
  s.start.event? = some event ∨ s.stop.bind TimePoint.event? = some event

namespace Context

/-- The events of the sun that spans of the rules refer to come at the same times. -/
def SameSun (c c' : Context) (rules : List Rule) : Prop :=
  ∀ r ∈ rules, ∀ s ∈ r.times, ∀ event, s.RefersTo event →
    c.solar.minute event = c'.solar.minute event

/-- The holidays of the kinds that rules use are the same. -/
def SameHolidays (c c' : Context) (rules : List Rule) : Prop :=
  ∀ r ∈ rules, ∀ kind ∈ r.days.holidays, c.holidays kind = c'.holidays kind

def SameHolidaysOn (c c' : Context) (d : Date) : Prop :=
  ∀ kind, (c.holidays kind).contains d = (c'.holidays kind).contains d

end Context

-- ---------------------------------------------------------------------------
-- Layers
-- ---------------------------------------------------------------------------

section

variable {c c' : Context}

theorem TimePoint.minute_sameSun {p : TimePoint}
    (h : ∀ event, p.event? = some event → c.solar.minute event = c'.solar.minute event) :
    p.minute c = p.minute c' := by
  cases p with
  | fixed minute => rfl
  | solar event offset => rw [minute, minute, h event rfl]

theorem TimeRange.minutes_sameSun {s : TimeRange}
    (h : ∀ event, s.RefersTo event → c.solar.minute event = c'.solar.minute event) :
    s.minutes c = s.minutes c' := by
  have hstart : s.start.minute c = s.start.minute c' :=
    TimePoint.minute_sameSun fun event hevent => h event (.inl hevent)
  unfold minutes
  cases hstop : s.stop with
  | none => rw [hstart]
  | some stop =>
    have hstop : stop.minute c = stop.minute c' :=
      TimePoint.minute_sameSun fun event hevent => h event (.inr (by rw [hstop]; exact hevent))
    simp only [hstart, hstop]

theorem Rule.blocks_sameSun {r : Rule}
    (h : ∀ s ∈ r.times, ∀ event, s.RefersTo event → c.solar.minute event = c'.solar.minute event) :
    r.blocks c = r.blocks c' := by
  have hspans : r.times.map (·.minutes c) = r.times.map (·.minutes c') :=
    List.map_congr_left fun s hs => TimeRange.minutes_sameSun (h s hs)
  rw [blocks, blocks, spans, spans, hspans]

theorem DaySelector.covers_sameHolidays {s : DaySelector} {d : Date}
    (h : ∀ kind ∈ s.holidays, (c.holidays kind).contains d = (c'.holidays kind).contains d) :
    s.covers c d = s.covers c' d := by
  have hholiday : s.coversHoliday c d = s.coversHoliday c' d := by
    rw [coversHoliday, coversHoliday, Bool.eq_iff_iff, List.any_eq_true, List.any_eq_true]
    exact exists_congr fun kind => and_congr_right fun hkind => by rw [h kind hkind]
  rw [covers, covers, hholiday]

/-- The layer of a date depends on the holidays of this date alone. -/
theorem Schedule.layer_sameSun {rules : List Rule} (hsun : c.SameSun c' rules) {d : Date}
    (h : ∀ r ∈ rules, ∀ kind ∈ r.days.holidays,
      (c.holidays kind).contains d = (c'.holidays kind).contains d) :
    (Schedule.mk rules c).layer d = (Schedule.mk rules c').layer d := by
  have hbuild : rules.foldl (LayerBuild.add c d) {} = rules.foldl (LayerBuild.add c' d) {} := by
    refine List.foldl_ext _ _ _ fun b r hr => ?_
    have hcovers : r.covers c d = r.covers c' d := by
      rw [Rule.covers, Rule.covers, DaySelector.covers_sameHolidays (h r hr)]
    rw [LayerBuild.add, LayerBuild.add, hcovers, Rule.blocks_sameSun (hsun r hr)]
  exact congrArg LayerBuild.layer hbuild

end

-- ---------------------------------------------------------------------------
-- Answers that layers give
-- ---------------------------------------------------------------------------

namespace Schedule

section

variable {s s' : Schedule}

theorem day_of_layers {d : Date}
    (hbefore : ∀ previous, d.pred? = some previous → s.layer previous = s'.layer previous)
    (hown : s.layer d = s'.layer d) : s.day d = s'.day d := by
  have hlayerBefore : s.layerBefore d = s'.layerBefore d := by
    unfold layerBefore
    cases hpred : d.pred? with
    | none => rfl
    | some previous => exact hbefore previous hpred
  rw [day, day, hlayerBefore, hown]

variable (same : ∀ d, s.layer d = s'.layer d)
include same

theorem stretches_of_layers (d : Date) : s.stretches d = s'.stretches d := by
  rw [stretches, stretches, day_of_layers (fun previous _ => same previous) (same d)]

theorem status_of_layers (t : Instant) : s.status t = s'.status t := by
  rw [status, status, day_of_layers (fun previous _ => same previous) (same t.date)]

theorem openStretches_of_layers (start stop : Instant) :
    s.openStretches start stop = s'.openStretches start stop := by
  have hstretches : s.stretches = s'.stretches := funext (stretches_of_layers same)
  simp only [openStretches, openStretchesOf, hstretches]

theorem stretchesOn_of_layers (d : Date) (whole : Bool) :
    s.stretchesOn d whole = s'.stretchesOn d whole := by
  simp only [stretchesOn, openStretches_of_layers same]

theorem week_of_layers (d : Date) : s.week d = s'.week d := by
  have hview : s.dayView = s'.dayView := by
    funext e
    simp only [dayView, stretchesOn_of_layers same]
  rw [week, week, hview]

theorem recallLayer_of_layers (d : Date) : s.recallLayer d = s'.recallLayer d := by
  funext m
  simp only [recallLayer, same]

theorem recallDay_of_layers (d : Date) : s.recallDay d = s'.recallDay d := by
  have hbefore : s.recallLayerBefore d = s'.recallLayerBefore d := by
    unfold recallLayerBefore
    cases d.pred? with
    | none => rfl
    | some previous => exact recallLayer_of_layers same previous
  rw [recallDay, recallDay, hbefore, recallLayer_of_layers same]

theorem recallStretches_of_layers (d : Date) : s.recallStretches d = s'.recallStretches d := by
  rw [recallStretches, recallStretches, recallDay_of_layers same]

theorem recallStatus_of_layers (t : Instant) : s.recallStatus t = s'.recallStatus t := by
  rw [recallStatus, recallStatus, recallDay_of_layers same]

theorem recallChangeFrom_of_layers (t : Instant) (status : Status) (days : Nat) (d : Date) :
    s.recallChangeFrom t status days d = s'.recallChangeFrom t status days d := by
  induction days generalizing d with
  | zero => rfl
  | succ days ih =>
    rw [recallChangeFrom, recallChangeFrom, recallStretches_of_layers same]
    simp only [ih]

theorem recallChangeDownFrom_of_layers (t : Instant) (status : Status) (days : Nat) (d : Date) :
    s.recallChangeDownFrom t status days d = s'.recallChangeDownFrom t status days d := by
  induction days generalizing d with
  | zero => rfl
  | succ days ih =>
    rw [recallChangeDownFrom, recallChangeDownFrom, recallStretches_of_layers same]
    simp only [ih]

variable (hlimits : ∀ d, s.limits d = s'.limits d)
include hlimits

theorem search_of_layers (hyears : s.context.yearLimit = s'.context.yearLimit) (t : Instant) :
    s.search t = s'.search t := by
  have hchange : s.recallUpcomingChange t = s'.recallUpcomingChange t := by
    simp only [recallUpcomingChange, recallChangeAfter, hlimits, hyears,
      recallStatus_of_layers same, recallChangeFrom_of_layers same]
  rw [search, search, hchange]

theorem extentAt_of_layers (t : Instant) : s.extentAt t = s'.extentAt t := by
  have hextent : s.recallExtentAt t = s'.recallExtentAt t := by
    simp only [recallExtentAt, recallChangeAfter, recallChangeBefore, hlimits,
      recallStatus_of_layers same, recallChangeFrom_of_layers same,
      recallChangeDownFrom_of_layers same]
  rw [extentAt, extentAt, hextent]

end

-- ---------------------------------------------------------------------------
-- Limits of a search
-- ---------------------------------------------------------------------------

/-- Of the holidays only those of kinds that rules use bound the dates that rules name. -/
theorem limits_sameHolidays {rules : List Rule} {c c' : Context} (h : c.SameHolidays c' rules)
    (hyears : c.yearLimit = c'.yearLimit) (d : Date) :
    (Schedule.mk rules c).limits d = (Schedule.mk rules c').limits d := by
  have hdates : rules.flatMap (·.namedDates c) = rules.flatMap (·.namedDates c') := by
    refine List.flatMap_congr fun r hr => ?_
    have hholidays : (r.days.holidays.flatMap fun kind =>
        (c.holidays kind).first?.toList ++ (c.holidays kind).last?.toList)
        = r.days.holidays.flatMap fun kind =>
          (c'.holidays kind).first?.toList ++ (c'.holidays kind).last?.toList :=
      List.flatMap_congr fun kind hkind => by rw [h r hr kind hkind]
    rw [Rule.namedDates, Rule.namedDates, hholidays]
  have hwindow : (Schedule.mk rules c).window? = (Schedule.mk rules c').window? := by
    rw [window?, window?, hdates]
  have hend : (Schedule.mk rules c).proofEnd? d = (Schedule.mk rules c').proofEnd? d := by
    rw [proofEnd?, proofEnd?, periodicFrom?, periodicFrom?, hwindow]
    rfl
  have hstart : (Schedule.mk rules c).proofStart? d = (Schedule.mk rules c').proofStart? d := by
    rw [proofStart?, proofStart?, periodicUntil?, periodicUntil?, hwindow]
    rfl
  simp only [limits, hend, hstart, hyears]

end Schedule

namespace Hours

/-- Contexts that agree in what the rules mention give the same answers. What holds on a date is the
same if they agree in the holidays of this date and of the one before. -/
theorem answers_depend_on_mentioned (h : Hours) (c c' : Context) (hsun : c.SameSun c' h.rules) :
    (c.SameHolidays c' h.rules → c.yearLimit = c'.yearLimit →
      (∀ t, (h.withContext c).findingAt t = (h.withContext c').findingAt t) ∧
      (∀ t, (h.withContext c).search t = (h.withContext c').search t) ∧
      (∀ start stop,
        (h.withContext c).openStretches start stop = (h.withContext c').openStretches start stop ∧
        (h.withContext c).openStretches? start stop =
          (h.withContext c').openStretches? start stop) ∧
      (∀ d whole, (h.withContext c).stretchesOn d whole = (h.withContext c').stretchesOn d whole) ∧
      ∀ d, (h.withContext c).week d = (h.withContext c').week d) ∧
    ∀ d, c.SameHolidaysOn c' d →
    (∀ previous, d.pred? = some previous → c.SameHolidaysOn c' previous) →
      ∀ t : Instant, t.date = d →
        ((h.withContext c).findingAt t).status = ((h.withContext c').findingAt t).status := by
  constructor
  · intro hholidays hyears
    have hlayer (d : Date) :
        (h.withContext c).schedule.layer d = (h.withContext c').schedule.layer d :=
      Schedule.layer_sameSun hsun fun r hr kind hkind => by rw [hholidays r hr kind hkind]
    have hlimits := Schedule.limits_sameHolidays hholidays hyears
    have hopen := Schedule.openStretches_of_layers hlayer
    refine ⟨fun t => ?_, Schedule.search_of_layers hlayer hlimits hyears,
      fun start stop => ⟨hopen start stop, ?_⟩, Schedule.stretchesOn_of_layers hlayer,
      Schedule.week_of_layers hlayer⟩
    · rw [findingAt, findingAt, Schedule.findingAt, Schedule.findingAt,
        Schedule.status_of_layers hlayer, Schedule.extentAt_of_layers hlayer hlimits]
    · rw [openStretches?, openStretches?, Schedule.openStretches?, Schedule.openStretches?, hopen]
  · rintro d hd hprevious t rfl
    have hlayer (e : Date) (he : c.SameHolidaysOn c' e) :
        (h.withContext c).schedule.layer e = (h.withContext c').schedule.layer e :=
      Schedule.layer_sameSun hsun fun r hr kind hkind => he kind
    have hday : (h.withContext c).schedule.day t.date = (h.withContext c').schedule.day t.date :=
      Schedule.day_of_layers (fun previous hpred => hlayer previous (hprevious previous hpred))
        (hlayer _ hd)
    show (h.withContext c).schedule.status t = (h.withContext c').schedule.status t
    rw [Schedule.status, Schedule.status, hday]

/-- Neither school holidays nor dusk are mentioned, and Christmas does not ask for the
first date. -/
theorem answers_depend_on_mentioned_sunrise :
    ∃ (h : Hours) (c other far : Context) (christmas : Date),
      ofText "Mo-Fr sunrise-18:00; PH off" = .ok h ∧
      Date.ofYearMonthDay? 2024 12 25 = some christmas ∧
      (c.SameSun other h.rules ∧ c.SameHolidays other h.rules ∧
        c.yearLimit = other.yearLimit ∧ c ≠ other) ∧
      (∀ t, (h.withContext c).search t = (h.withContext other).search t) ∧
      (c.SameSun far h.rules ∧ c.SameHolidaysOn far christmas ∧
        c.publicHolidays ≠ far.publicHolidays) ∧
      ∀ t : Instant, t.date = christmas →
        ((h.withContext c).findingAt t).status = ((h.withContext far).findingAt t).status := by
  let weekdays : Rule := ⟨[], [], [], { weekdays := .range .monday .friday },
    [⟨.solar .sunrise 0, some (.fixed 1080), false⟩], .opened, none, .replace⟩
  let off : Rule := ⟨[], [], [], { holidays := [.publicHoliday] }, [], .closed, none, .replace⟩
  have parsed : ofText "Mo-Fr sunrise-18:00; PH off"
      = .ok ⟨"Mo-Fr sunrise-18:00; PH off", [weekdays, off], {}⟩ := rfl
  have christmas : Date.ofYearMonthDay? 2024 12 25 = some ⟨739610, by decide, by decide⟩ := by
    decide
  let c : Context := { publicHolidays := .ofList [⟨739610, by decide, by decide⟩] }
  let other : Context :=
    { c with schoolHolidays := .ofList [Date.last], solar := { SunTimes.usual with dusk := 1200 } }
  let far : Context := { publicHolidays := .ofList [Date.first, ⟨739610, by decide, by decide⟩] }
  have sunrise : c.SameSun other [weekdays, off] := by
    intro r hr s hs event hevent
    rcases List.mem_cons.mp hr with rfl | hr
    · obtain rfl := List.mem_singleton.mp hs
      rcases hevent with hevent | hevent <;> cases hevent
      rfl
    · obtain rfl := List.mem_singleton.mp hr
      cases hs
  have holidays : c.SameHolidays other [weekdays, off] := by
    intro r hr kind hkind
    rcases List.mem_cons.mp hr with rfl | hr
    · cases hkind
    · obtain rfl := List.mem_singleton.mp hr
      obtain rfl := List.mem_singleton.mp hkind
      rfl
  have sun : c.SameSun far [weekdays, off] := fun _ _ _ _ _ _ => rfl
  have onChristmas : c.SameHolidaysOn far ⟨739610, by decide, by decide⟩ := by
    intro kind
    cases kind <;> decide
  have dayBefore : ∀ previous, (⟨739610, by decide, by decide⟩ : Date).pred? = some previous →
      c.SameHolidaysOn far previous := by
    rintro previous ⟨⟩ kind
    cases kind <;> decide
  let hours : Hours := ⟨"Mo-Fr sunrise-18:00; PH off", [weekdays, off], {}⟩
  obtain ⟨-, hsearch, -⟩ := (answers_depend_on_mentioned hours c other sunrise).1 holidays rfl
  have hstatus := (answers_depend_on_mentioned hours c far sun).2 _ onChristmas dayBefore
  exact ⟨hours, c, other, far, _, parsed, christmas, ⟨sunrise, holidays, rfl, by decide⟩, hsearch,
    ⟨sun, onChristmas, by decide⟩, hstatus⟩

end Hours

end OpeningTimes
