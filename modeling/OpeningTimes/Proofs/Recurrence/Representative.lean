import OpeningTimes.Proofs.Recurrence.Period

/-!
# A day that stands for another one

Beyond all dates that the rules name, a whole period holds a day for every later one that the rules
cover in the same way, along with the day before it. The two days have the same schedule. Before all
these dates it is the same for every earlier day.
-/

namespace OpeningTimes

open Calendar

-- ---------------------------------------------------------------------------
-- The same place in a period
-- ---------------------------------------------------------------------------

namespace Period

/-- The dates take the same place in the period, and so do the days before them. -/
def AlikeWithPrevious (p : Period) (d e : Date) : Prop :=
  p.Alike d e ∧ ∀ d' ∈ d.pred?, ∀ e' ∈ e.pred?, p.Alike d' e'

theorem exists_congruent {n : Int} (hn : 0 < n) (lo : Int) (hlo : -95745764 ≤ lo)
    (hhi : lo + n ≤ 95745765) (d : Date) :
    ∃ e : Date, lo ≤ e.number ∧ e.number < lo + n ∧ ∃ k, d.number = e.number + n * k := by
  have hrest := Int.emod_nonneg (d.number - lo) (Int.ne_of_gt hn)
  have hless := Int.emod_lt_of_pos (d.number - lo) hn
  have hsplit := Int.emod_add_mul_ediv (d.number - lo) n
  refine ⟨⟨lo + (d.number - lo) % n, by omega, by omega⟩, ?_, ?_, (d.number - lo) / n, ?_⟩
  · simp only; omega
  · simp only; omega
  · simp only; omega

theorem alikeWithPrevious_weekly {d e : Date} {k : Int} (h : d.number = e.number + 7 * k) :
    weekly.AlikeWithPrevious d e := by
  refine ⟨Date.weekday_of_weeks (by omega), fun d' hd' e' he' => ?_⟩
  have hd' := Date.shift?_eq_some_iff.mp hd'
  have he' := Date.shift?_eq_some_iff.mp he'
  exact Date.weekday_of_weeks (by omega)

theorem alikeWithPrevious_gregorian {d e : Date} {k : Int} (h : d.number = e.number + 146097 * k) :
    gregorian.AlikeWithPrevious d e := by
  refine ⟨?_, fun d' hd' e' he' => ?_⟩
  · show d.number % 146097 = e.number % 146097
    omega
  · have hd' := Date.shift?_eq_some_iff.mp hd'
    have he' := Date.shift?_eq_some_iff.mp he'
    show d'.number % 146097 = e'.number % 146097
    omega

theorem alikeWithPrevious_yearly {d e : Date} {year : Int} (hleap : isLeap d.year = isLeap year)
    (he : e.number = yearStart year + dayOfYear d.number) : yearly.AlikeWithPrevious d e := by
  have hd : d.number = yearStart d.year + dayOfYear d.number := by
    have := dayOfYear_eq d.number
    unfold Date.year
    omega
  have hlt : dayOfYear d.number < yearLength d.year := dayOfYear_lt d.number
  constructor
  · obtain ⟨hmonth, hday⟩ := monthDay_of_ordinal hleap hlt
    rw [← hd, ← he] at hmonth hday
    simp only [Alike, Date.monthDay, Date.month, Date.day, hmonth, hday]
  · intro d' hd' e' he'
    have hd' : d'.number = d.number - 1 := Date.shift?_eq_some_iff.mp hd'
    have he' : e'.number = e.number - 1 := Date.shift?_eq_some_iff.mp he'
    obtain ⟨hmonth, hday⟩ := monthDay_before_ordinal hleap hlt
    rw [← hd, ← he, ← hd', ← he'] at hmonth hday
    simp only [Alike, Date.monthDay, Date.month, Date.day, hmonth, hday]

/-- One of any eight years has the length of the year of a date. -/
theorem exists_alike_in_years (after : Int) (hlo : -95745764 ≤ yearStart (after + 1))
    (hhi : yearStart (after + 9) ≤ 95745765) (d : Date) :
    ∃ e : Date, yearStart (after + 1) ≤ e.number ∧ e.number < yearStart (after + 9) ∧
      yearly.AlikeWithPrevious d e := by
  obtain ⟨year, hafter, hbefore, hleap⟩ := exists_year_alike after d.year
  have hlt : dayOfYear d.number < yearLength year := by
    have : dayOfYear d.number < yearLength d.year := dayOfYear_lt d.number
    rwa [yearLength, hleap]
  have hfrom := yearStart_mono (show after + 1 ≤ year by omega)
  have huntil := yearStart_mono (show year + 1 ≤ after + 9 by omega)
  have hyear := yearStart_add_yearLength year
  refine ⟨⟨yearStart year + dayOfYear d.number, by omega, by omega⟩, ?_, ?_,
    alikeWithPrevious_yearly hleap.symm rfl⟩
  · simp only; omega
  · simp only; omega

theorem exists_alike_after {p : Period} {base stop : Date} (h : p.after? base = some stop)
    (d : Date) : ∃ e, base < e ∧ e ≤ stop ∧ p.AlikeWithPrevious d e := by
  have hbase := base.first_le
  have hlast := stop.le_last
  cases p with
  | constant =>
    have hstop : stop.number = base.number + 1 := Date.shift?_eq_some_iff.mp h
    exact ⟨stop, by rw [Date.lt_iff]; omega, Std.le_refl _, trivial, fun _ _ _ _ => trivial⟩
  | weekly =>
    have hstop : stop.number = base.number + 7 := Date.shift?_eq_some_iff.mp h
    obtain ⟨e, hlo, hhi, k, hk⟩ := exists_congruent (n := 7) (by decide) (base.number + 1)
      (by omega) (by omega) d
    exact ⟨e, hlo, by rw [Date.le_iff]; omega, alikeWithPrevious_weekly hk⟩
  | yearly =>
    have hstop := Date.newYear?_number h
    have hyear : base.number < yearStart (base.year + 1) := lt_yearStart_succ_yearOf base.number
    obtain ⟨e, hlo, hhi, alike⟩ := exists_alike_in_years base.year (by omega) (by omega) d
    exact ⟨e, by rw [Date.lt_iff]; omega, by rw [Date.le_iff]; omega, alike⟩
  | gregorian =>
    have hstop : stop.number = base.number + 146097 := Date.shift?_eq_some_iff.mp h
    obtain ⟨e, hlo, hhi, k, hk⟩ := exists_congruent (n := 146097) (by decide) (base.number + 1)
      (by omega) (by omega) d
    exact ⟨e, hlo, by rw [Date.le_iff]; omega, alikeWithPrevious_gregorian hk⟩

theorem exists_alike_before {p : Period} {base start : Date} (h : p.before? base = some start)
    (d : Date) : ∃ e, start ≤ e ∧ e < base ∧ p.AlikeWithPrevious d e := by
  have hbase := base.le_last
  have hfirst := start.first_le
  cases p with
  | constant =>
    have hstart : start.number = base.number + -1 := Date.shift?_eq_some_iff.mp h
    exact ⟨start, Std.le_refl _, by rw [Date.lt_iff]; omega, trivial, fun _ _ _ _ => trivial⟩
  | weekly =>
    have hstart : start.number = base.number + -7 := Date.shift?_eq_some_iff.mp h
    obtain ⟨e, hlo, hhi, k, hk⟩ := exists_congruent (n := 7) (by decide) start.number
      (by omega) (by omega) d
    exact ⟨e, hlo, by rw [Date.lt_iff]; omega, alikeWithPrevious_weekly hk⟩
  | yearly =>
    have hstart := Date.newYear?_number h
    have hyear : yearStart base.year ≤ base.number := yearStart_yearOf_le base.number
    have hlo : base.year - 9 + 1 = base.year - 8 := by omega
    have hhi : base.year - 9 + 9 = base.year := by omega
    obtain ⟨e, hfrom, huntil, alike⟩ := exists_alike_in_years (base.year - 9)
      (by rw [hlo]; omega) (by rw [hhi]; omega) d
    rw [hlo] at hfrom
    rw [hhi] at huntil
    exact ⟨e, by rw [Date.le_iff]; omega, by rw [Date.lt_iff]; omega, alike⟩
  | gregorian =>
    have hstart : start.number = base.number + -146097 := Date.shift?_eq_some_iff.mp h
    obtain ⟨e, hlo, hhi, k, hk⟩ := exists_congruent (n := 146097) (by decide) start.number
      (by omega) (by omega) d
    exact ⟨e, hlo, by rw [Date.lt_iff]; omega, alikeWithPrevious_gregorian hk⟩

end Period

-- ---------------------------------------------------------------------------
-- The same schedule
-- ---------------------------------------------------------------------------

namespace Schedule

variable {s : Schedule}

theorem periodicFrom?_spec {d base : Date} (h : s.periodicFrom? d = some base) :
    d ≤ base ∧ ∀ window ∈ s.window?, window.2 < base := by
  unfold periodicFrom? at h
  cases hwindow : s.window? with
  | none =>
    obtain rfl : d = base := by simpa [hwindow] using h
    exact ⟨Std.le_refl _, by simp⟩
  | some window =>
    simp only [hwindow, Option.map_eq_some_iff] at h
    obtain ⟨next, hnext, rfl⟩ := h
    refine ⟨Std.left_le_max, fun w hw => ?_⟩
    obtain rfl : window = w := by simpa using hw
    have hlast : window.2 < next := (Date.lt_succ_iff hnext).mpr (Std.le_refl _)
    have hnext : next ≤ max d next := Std.right_le_max
    exact Int.lt_of_lt_of_le hlast hnext

theorem periodicUntil?_spec {d base : Date} (h : s.periodicUntil? d = some base) :
    base ≤ d ∧ ∀ window ∈ s.window?, base < window.1 := by
  unfold periodicUntil? at h
  cases hwindow : s.window? with
  | none =>
    obtain rfl : d = base := by simpa [hwindow] using h
    exact ⟨Std.le_refl _, by simp⟩
  | some window =>
    simp only [hwindow, Option.map_eq_some_iff] at h
    obtain ⟨previous, hprevious, rfl⟩ := h
    refine ⟨Std.min_le_left, fun w hw => ?_⟩
    obtain rfl : window = w := by simpa using hw
    exact (Date.le_pred_iff hprevious).mp Std.min_le_right

theorem day_congr {d e : Date} (hd : s.layer d = s.layer e)
    (hbefore : s.layerBefore d = s.layerBefore e) : s.day d = s.day e := by
  rw [day, day, hd, hbefore]

/-- Every day after the end of a proof is the same as one between the day it starts with and its
end. -/
theorem exists_same_day_after (h : s.WellFormed) {start stop d : Date}
    (hproof : s.proofEnd? start = some stop) (hd : stop < d) :
    ∃ e, start < e ∧ e ≤ stop ∧ s.day d = s.day e := by
  simp only [proofEnd?, Option.bind_eq_bind, Option.bind_eq_some_iff] at hproof
  obtain ⟨base, hbase, last, hlast, hstop⟩ := hproof
  obtain ⟨hstart, hwindow⟩ := periodicFrom?_spec hbase
  have hstop := Date.shift?_eq_some_iff.mp hstop
  obtain ⟨e, hbe, hle, alike, alikeBefore⟩ := Period.exists_alike_after hlast d
  have hbd : base < d := by rw [Date.lt_iff, Date.le_iff] at *; omega
  obtain ⟨d', hd'⟩ := Date.exists_pred? hbd
  obtain ⟨e', he'⟩ := Date.exists_pred? hbe
  refine ⟨e, ?_, ?_, day_congr ?_ ?_⟩
  · exact Int.lt_of_le_of_lt hstart hbe
  · rw [Date.le_iff] at *; omega
  · exact layer_congr (covers_congr_after h hwindow (Int.le_of_lt hbd) (Int.le_of_lt hbe) alike)
  · rw [layerBefore, layerBefore, hd', he']
    exact layer_congr (covers_congr_after h hwindow ((Date.le_pred_iff hd').mpr hbd)
      ((Date.le_pred_iff he').mpr hbe) (alikeBefore d' hd' e' he'))

/-- Every day before the start of a proof, but for the first one, which has none before it, is the
same as one between this start and the day that the proof is for. -/
theorem exists_same_day_before (h : s.WellFormed) {start stop d : Date}
    (hproof : s.proofStart? stop = some start) (hd : d < start) (hfirst : d ≠ Date.first) :
    ∃ e, start < e ∧ e < stop ∧ s.day d = s.day e := by
  simp only [proofStart?, Option.bind_eq_bind, Option.bind_eq_some_iff] at hproof
  obtain ⟨base, hbase, periodStart, hperiod, hstart⟩ := hproof
  obtain ⟨hstop, hwindow⟩ := periodicUntil?_spec hbase
  have hstart := Date.shift?_eq_some_iff.mp hstart
  obtain ⟨e, hle, hlt, alike, alikeBefore⟩ := Period.exists_alike_before hperiod d
  have hse : start < e := by rw [Date.lt_iff]; rw [Date.le_iff] at hle; omega
  have hdb : d < base := by rw [Date.lt_iff] at *; omega
  obtain ⟨d', hd'⟩ := Date.exists_pred? (Date.first_lt hfirst)
  obtain ⟨e', he'⟩ := Date.exists_pred? hse
  have hd'b : d' < base := Int.lt_trans ((Date.le_pred_iff hd').mp (Std.le_refl _)) hdb
  have he'b : e' < base := Int.lt_trans ((Date.le_pred_iff he').mp (Std.le_refl _)) hlt
  refine ⟨e, hse, Int.lt_of_lt_of_le hlt hstop, day_congr ?_ ?_⟩
  · exact layer_congr (covers_congr_before h hwindow (Int.le_of_lt hdb) (Int.le_of_lt hlt) alike)
  · rw [layerBefore, layerBefore, hd', he']
    exact layer_congr (covers_congr_before h hwindow (Int.le_of_lt hd'b) (Int.le_of_lt he'b)
      (alikeBefore d' hd' e' he'))

end Schedule

end OpeningTimes
