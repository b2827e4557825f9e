import OpeningTimes.Proofs.Answer.Decided
import OpeningTimes.Proofs.Answer.Extent

/-!
# Answers that last

A search that may take more years keeps each answer that it has given with fewer, and each bound of
an extent. A change that is the next one from an instant is the next one from all others until it
comes.
-/

namespace OpeningTimes

/-- An extent with all bounds of another one, and perhaps a bound where that one is open. -/
structure Extent.Extends (more fewer : Extent) : Prop where
  status : more.status = fewer.status
  start : ∀ start, fewer.start = some start → more.start = some start
  stop : ∀ stop, fewer.stop = some stop → more.stop = some stop

namespace Schedule

-- ---------------------------------------------------------------------------
-- More days
-- ---------------------------------------------------------------------------

section

variable {s s' : Schedule} (same : ∀ d, s.stretches d = s'.stretches d)
include same

theorem changeFrom_of_le {t change : Instant} {status : Status} {days more : Nat}
    (hle : days ≤ more) {d : Date} (h : s.changeFrom t status days d = some change) :
    s'.changeFrom t status more d = some change := by
  induction days generalizing more d with
  | zero => cases h
  | succ days ih =>
    obtain ⟨more, rfl⟩ := Nat.exists_eq_succ_of_ne_zero (show more ≠ 0 by omega)
    simp only [changeFrom, ← same] at h ⊢
    cases hfound : firstOther? t status (s.stretches d) with
    | some r => simpa only [hfound] using h
    | none =>
      cases hnext : d.succ? with
      | none => simp [hfound, hnext] at h
      | some next =>
        simp only [hfound, hnext] at h
        exact ih (Nat.le_of_succ_le_succ hle) h

theorem changeDownFrom_of_le {t start : Instant} {status : Status} {days more : Nat}
    (hle : days ≤ more) {d : Date} (h : s.changeDownFrom t status days d = some start) :
    s'.changeDownFrom t status more d = some start := by
  induction days generalizing more d with
  | zero => cases h
  | succ days ih =>
    obtain ⟨more, rfl⟩ := Nat.exists_eq_succ_of_ne_zero (show more ≠ 0 by omega)
    simp only [changeDownFrom, ← same] at h ⊢
    cases hfound : lastOther? t status (s.stretches d) with
    | some r => simpa only [hfound] using h
    | none =>
      cases hprevious : d.pred? with
      | none => simp [hfound, hprevious] at h
      | some previous =>
        simp only [hfound, hprevious] at h
        exact ih (Nat.le_of_succ_le_succ hle) h

theorem changeAfter_of_le {t change : Instant} {status : Status} {last later : Date}
    (hle : last ≤ later) (h : s.changeAfter t status last = some change) :
    s'.changeAfter t status later = some change := by
  refine changeFrom_of_le same ?_ h
  unfold Date.daysThrough
  rw [Date.le_iff] at hle
  omega

theorem changeBefore_of_le {t start : Instant} {status : Status} {first earlier : Date}
    (hle : earlier ≤ first) (h : s.changeBefore t status first = some start) :
    s'.changeBefore t status earlier = some start := by
  refine changeDownFrom_of_le same ?_ h
  unfold Date.daysThrough
  rw [Date.le_iff] at hle
  omega

end

-- ---------------------------------------------------------------------------
-- More years
-- ---------------------------------------------------------------------------

def withYears (s : Schedule) (years : Nat) : Schedule :=
  { s with context := { s.context with yearLimit := years } }

variable (s : Schedule)

@[simp] theorem yearLimit_withYears (years : Nat) :
    (s.withYears years).context.yearLimit = years := rfl

@[simp] theorem status_withYears (years : Nat) (t : Instant) :
    (s.withYears years).status t = s.status t := rfl

@[simp] theorem proofEnd?_withYears (years : Nat) (d : Date) :
    (s.withYears years).proofEnd? d = s.proofEnd? d := rfl

@[simp] theorem proofStart?_withYears (years : Nat) (d : Date) :
    (s.withYears years).proofStart? d = s.proofStart? d := rfl

theorem stretches_withYears (fewer more : Nat) (d : Date) :
    (s.withYears fewer).stretches d = (s.withYears more).stretches d := rfl

theorem limits_last_eq (d : Date) :
    (s.limits d).last = (s.proofEnd? d).elim (d.yearsLater s.context.yearLimit)
      (min · (d.yearsLater s.context.yearLimit)) := by
  unfold limits
  cases s.proofEnd? d with
  | none => rfl
  | some stop => exact apply_ite SearchLimits.last ..

theorem limits_first_eq (d : Date) :
    (s.limits d).first = (s.proofStart? d).elim (d.yearsEarlier s.context.yearLimit)
      (max · (d.yearsEarlier s.context.yearLimit)) := by
  unfold limits
  cases s.proofEnd? d with
  | none => cases s.proofStart? d <;> rfl
  | some stop =>
    simp only [apply_ite SearchLimits.first, ite_self]
    cases s.proofStart? d <;> rfl

theorem limits_last_le_yearsLater (d : Date) :
    (s.limits d).last ≤ d.yearsLater s.context.yearLimit := by
  rw [limits_last_eq]
  cases s.proofEnd? d with
  | none => exact Std.le_refl _
  | some stop => exact Std.min_le_right

section

variable {fewer more : Nat} (hle : fewer ≤ more)
include hle

theorem limits_last_mono (d : Date) :
    ((s.withYears fewer).limits d).last ≤ ((s.withYears more).limits d).last := by
  have hyears := Date.yearsLater_mono (Std.le_refl d) hle
  simp only [limits_last_eq, proofEnd?_withYears, yearLimit_withYears]
  cases s.proofEnd? d with
  | none => simpa only [Option.elim_none] using hyears
  | some stop =>
    simp only [Option.elim_some, Date.le_iff, Date.number_min] at hyears ⊢
    omega

theorem limits_first_mono (d : Date) :
    ((s.withYears more).limits d).first ≤ ((s.withYears fewer).limits d).first := by
  have hyears := d.yearsEarlier_mono hle
  simp only [limits_first_eq, proofStart?_withYears, yearLimit_withYears]
  cases s.proofStart? d with
  | none => simpa only [Option.elim_none] using hyears
  | some start =>
    simp only [Option.elim_some, Date.le_iff, Date.number_max] at hyears ⊢
    omega

theorem limits_proven_mono {d : Date} (hproven : ((s.withYears fewer).limits d).proven = true) :
    ((s.withYears more).limits d).proven = true ∧
      ((s.withYears more).limits d).last = ((s.withYears fewer).limits d).last := by
  have hproof := limits_last_of_proven hproven
  have hwithin := Std.le_trans ((s.withYears fewer).limits_last_le_yearsLater d)
    (Date.yearsLater_mono (Std.le_refl d) hle)
  have hmore := limits_proven_of_proofEnd? (s := s.withYears more) hproof hwithin
  exact ⟨hmore, Option.some.inj ((limits_last_of_proven hmore).symm.trans hproof)⟩

theorem upcomingChange_of_more_years {t : Instant} {answer : Option Instant}
    (h : (s.withYears fewer).upcomingChange t = .ok answer) :
    (s.withYears more).upcomingChange t = .ok answer := by
  cases answer with
  | some change =>
    rw [upcomingChange_eq_some_iff] at h ⊢
    exact changeAfter_of_le (s.stretches_withYears fewer more) (s.limits_last_mono hle t.date) h
  | none =>
    obtain ⟨hproven, hnone⟩ := upcomingChange_eq_none_iff.mp h
    obtain ⟨hmore, hlast⟩ := s.limits_proven_mono hle hproven
    refine upcomingChange_eq_none_iff.mpr
      ⟨hmore, Option.eq_none_iff_forall_ne_some.mpr fun change hchange => ?_⟩
    -- what is found with more years is found with fewer, since both look at the same days
    rw [hlast] at hchange
    have hfewer := changeAfter_of_le (s.stretches_withYears more fewer) (Std.le_refl _) hchange
    exact absurd (hnone.symm.trans hfewer) nofun

theorem extentAt_of_more_years (t : Instant) :
    Option.Rel (fun e e' => e'.Extends e) ((s.withYears fewer).extentAt t)
      ((s.withYears more).extentAt t) := by
  rw [extentAt_eq, extentAt_eq, status_withYears, status_withYears]
  split
  · exact .none
  · refine .some ⟨rfl, fun start hstart => ?_, fun stop hstop => ?_⟩
    · exact changeBefore_of_le (s.stretches_withYears fewer more)
        (s.limits_first_mono hle t.date) hstart
    · exact changeAfter_of_le (s.stretches_withYears fewer more)
        (s.limits_last_mono hle t.date) hstop

end

/-- An answer that a search has given it gives again where it may take more years, and an extent
keeps the bounds that it has. -/
theorem answers_last_with_more_years (rules : List Rule) (c : Context) {fewer more : Nat}
    (h : fewer ≤ more) (t : Instant) :
    let few : Schedule := ⟨rules, { c with yearLimit := fewer }⟩
    let many : Schedule := ⟨rules, { c with yearLimit := more }⟩
    (∀ answer, few.upcomingChange t = .ok answer → many.upcomingChange t = .ok answer) ∧
      Option.Rel (fun e e' => e'.Extends e) (few.extentAt t) (many.extentAt t) := by
  let s : Schedule := ⟨rules, c⟩
  exact ⟨fun answer hanswer => s.upcomingChange_of_more_years h hanswer,
    s.extentAt_of_more_years h t⟩

/-- Without a year to search, Monday's opening is in sight and the closing after midnight is not. -/
theorem answers_last_with_more_years_overnight :
    ∃ rules, Rule.ofText "Mo 22:00-02:00" = .ok rules ∧
      let monday : Date := ⟨739384, by decide, by decide⟩
      let opening : Instant := .atMinute monday 1320
      let closing : Instant := .atMinute monday 1560
      let night : Instant := .atMinute monday 1380
      let few : Schedule := ⟨rules, { yearLimit := 0 }⟩
      let many : Schedule := ⟨rules, { yearLimit := 10 }⟩
      0 ≤ 10 ∧ few.upcomingChange (.midnight monday) = .ok (some opening) ∧
        many.upcomingChange (.midnight monday) = .ok (some opening) ∧
        few.extentAt night = some ⟨some opening, none, ⟨.opened, false, none⟩⟩ ∧
        many.extentAt night = some ⟨some opening, some closing, ⟨.opened, false, none⟩⟩ ∧
        Option.Rel (fun e e' => e'.Extends e) (few.extentAt night) (many.extentAt night) := by
  have parsed : Rule.ofText "Mo 22:00-02:00" = .ok
      [⟨[], [], [], { weekdays := .ofDay .monday }, [⟨.fixed 1320, some (.fixed 120), false⟩],
        .opened, none, .replace⟩] := rfl
  refine ⟨_, parsed, ?_⟩
  intro monday opening closing night few many
  have hle : 0 ≤ 10 := by decide
  have found : few.upcomingChange (.midnight monday) = .ok (some opening) := by decide +kernel
  exact ⟨hle, found, (answers_last_with_more_years _ {} hle (.midnight monday)).1 _ found,
    by decide +kernel, by decide +kernel, (answers_last_with_more_years _ {} hle night).2⟩

-- ---------------------------------------------------------------------------
-- Until the change
-- ---------------------------------------------------------------------------

theorem changeAfter_eq_of_other {s : Schedule} (h : s.WellFormed) {t u change : Instant}
    {last : Date} (first : s.FirstChange t change) (htu : t ≤ u) (hseen : u.date ≤ last)
    (hother : s.status u ≠ s.status t) : s.changeAfter t (s.status t) last = some change := by
  cases hfound : s.changeAfter t (s.status t) last with
  | none => exact absurd (changeAfter_eq_none h hfound u htu hseen) hother
  | some c => rw [(changeAfter_eq_some h hfound).1.unique first]

/-- Until it comes, the next change from an instant is the next one from any later instant. -/
theorem upcomingChange_lasts_until_change {raw : String} {rules : List Rule}
    (h : Rule.ofText raw = .ok rules) (c : Context) {t u change : Instant} :
    let s : Schedule := ⟨rules, c⟩
    s.upcomingChange t = .ok (some change) → t ≤ u → u < change →
      s.upcomingChange u = .ok (some change) := by
  intro s hchange htu hu
  have wellFormed : s.WellFormed := Rule.wellFormed_of_ofText h
  obtain ⟨first, hwithin⟩ := changeAfter_eq_some wellFormed (upcomingChange_eq_some_iff.mp hchange)
  have later := first.of_between htu hu
  rw [upcomingChange_eq_some_iff]
  cases hproven : (s.limits u.date).proven with
  | true =>
    -- a search that proves what it says looks at some instant with another status if there is one
    obtain ⟨v, huv, hseen, hother⟩ :=
      exists_other_within_limits wellFormed hproven (Instant.le_of_lt hu) later.differs
    exact changeAfter_eq_of_other wellFormed later huv hseen hother
  | false =>
    -- the years go on from a later date, so that they hold the change as well
    refine changeAfter_eq_of_other wellFormed later (Instant.le_of_lt hu) ?_ later.differs
    rw [limits_last_of_not_proven hproven]
    calc change.date ≤ (s.limits t.date).last := hwithin
      _ ≤ t.date.yearsLater c.yearLimit := s.limits_last_le_yearsLater t.date
      _ ≤ u.date.yearsLater c.yearLimit :=
        Date.yearsLater_mono (Instant.date_le_of_le htu) (Nat.le_refl _)

/-- From Tuesday morning on, and in the leap second before the next Monday's opening. -/
theorem upcomingChange_lasts_until_change_week :
    ∃ rules, Rule.ofText "Mo 22:00-02:00" = .ok rules ∧
      let s : Schedule := ⟨rules, {}⟩
      let monday : Date := ⟨739391, by decide, by decide⟩
      let t : Instant := .atMinute ⟨739385, by decide, by decide⟩ 120
      let u : Instant := ⟨monday, ⟨79199, 1500000000, by decide, by decide⟩⟩
      let change : Instant := .atMinute monday 1320
      s.upcomingChange t = .ok (some change) ∧ t ≤ u ∧ u < change ∧
        s.upcomingChange u = .ok (some change) := by
  have parsed : Rule.ofText "Mo 22:00-02:00" = .ok
      [⟨[], [], [], { weekdays := .ofDay .monday }, [⟨.fixed 1320, some (.fixed 120), false⟩],
        .opened, none, .replace⟩] := rfl
  refine ⟨_, parsed, ?_⟩
  intro s monday t u change
  have found : s.upcomingChange t = .ok (some change) := by decide +kernel
  have htu : t ≤ u := by decide +kernel
  have hu : u < change := by decide +kernel
  exact ⟨found, htu, hu, upcomingChange_lasts_until_change parsed {} found htu hu⟩

end Schedule

end OpeningTimes
