import Mathlib.Data.Set.Card
import OpeningTimes.Expression.Selector.Days
import OpeningTimes.Proofs.Calendar.Cycle
import OpeningTimes.Proofs.Calendar.YearsLater

/-!
# Occurrences of a weekday in its month

The days of a month are a stretch of day numbers, and a weekday comes back every seven of them. So
what an occurrence is by division is what it is by counting, from the start of the month and from
its end, and the first 28 days of a month hold each weekday four times.
-/

namespace OpeningTimes

-- ---------------------------------------------------------------------------
-- The day numbers of a month
-- ---------------------------------------------------------------------------

namespace Calendar

theorem month_eq_iff {year day : Int} {month : Nat} (hmonth : 1 ≤ month ∧ month ≤ 12) :
    yearOf day = year ∧ monthOf day = month ↔
      dayNumber year month 1 ≤ day ∧ day < dayNumber year month 1 + monthLength year month := by
  rw [monthStart_le_iff hmonth, lt_monthEnd_iff hmonth]
  omega

theorem dayNumber_add_monthLength_le (year : Int) {month : Nat} (hmonth : 1 ≤ month ∧ month ≤ 12) :
    yearStart year ≤ dayNumber year month 1 ∧
      dayNumber year month 1 + monthLength year month ≤ yearStart (year + 1) := by
  have hend := daysBeforeMonth_add_monthLength_le year hmonth
  rw [← yearStart_add_yearLength]
  unfold dayNumber
  omega

end Calendar

open Calendar

theorem Weekday.ofDay_eq_iff {a b : Int} : ofDay a = ofDay b ↔ a % 7 = b % 7 := by
  constructor
  · intro h
    have hindex := congrArg index h
    rw [ofDay, ofDay, index_ofIndex _ (indexOfDay_lt a),
      index_ofIndex _ (indexOfDay_lt b)] at hindex
    unfold indexOfDay at hindex
    omega
  · intro h
    unfold ofDay indexOfDay
    congr 2
    omega

theorem Weekday.exists_ofDay_in_week (w : Weekday) (start : Int) :
    ∃ x, ∀ y, (start ≤ y ∧ y < start + 7) ∧ ofDay y = w ↔ y = x := by
  have hindex := w.index_lt
  -- the day with number -5 is a Monday
  have hw : ofDay (w.index - 5) = w := by
    have hday : indexOfDay (w.index - 5) = w.index := by
      unfold indexOfDay
      omega
    rw [ofDay, hday, ofIndex_index]
  have hsame (y : Int) : ofDay y = w ↔ y % 7 = (w.index - 5) % 7 := by rw [← ofDay_eq_iff, hw]
  refine ⟨start + (w.index - 5 - start) % 7, fun y => ?_⟩
  rw [hsame]
  omega

namespace Date

variable {d e : Date} {year : Int} {month : Nat}

theorem month_bounds (d : Date) : 1 ≤ d.month ∧ d.month ≤ 12 := monthOf_bounds d.number

theorem number_injective : Function.Injective number := fun _ _ => eq_iff.mpr

theorem month_eq_iff (hmonth : 1 ≤ month ∧ month ≤ 12) :
    d.year = year ∧ d.month = month ↔
      dayNumber year month 1 ≤ d.number ∧
      d.number < dayNumber year month 1 + monthLength year month :=
  Calendar.month_eq_iff hmonth

theorem exists_number_of_month (hyear : HasYear year) (hmonth : 1 ≤ month ∧ month ≤ 12) {x : Int}
    (hx : dayNumber year month 1 ≤ x ∧ x < dayNumber year month 1 + monthLength year month) :
    ∃ e : Date, e.number = x := by
  have hbounds := dayNumber_add_monthLength_le year hmonth
  have hcalendar := yearStart_bounds hyear
  exact ⟨⟨x, by omega, by omega⟩, rfl⟩

theorem number_image_month (hyear : HasYear year) (hmonth : 1 ≤ month ∧ month ≤ 12)
    {dates : Set Date} {P : Int → Prop}
    (h : ∀ e, e ∈ dates ↔ (e.year = year ∧ e.month = month) ∧ P e.number) :
    number '' dates = {x | (dayNumber year month 1 ≤ x ∧
      x < dayNumber year month 1 + monthLength year month) ∧ P x} := by
  ext x
  constructor
  · rintro ⟨e, he, rfl⟩
    obtain ⟨hin, hP⟩ := (h e).mp he
    exact ⟨(month_eq_iff hmonth).mp hin, hP⟩
  · rintro ⟨hin, hP⟩
    obtain ⟨e, rfl⟩ := exists_number_of_month hyear hmonth hin
    exact ⟨e, (h e).mpr ⟨(month_eq_iff hmonth).mpr hin, hP⟩, rfl⟩

theorem ncard_number_image (dates : Set Date) : (number '' dates).ncard = dates.ncard :=
  Set.ncard_image_of_injective dates number_injective

-- ---------------------------------------------------------------------------
-- Counting
-- ---------------------------------------------------------------------------

def alike (d : Date) : Set Date :=
  {e | (e.year = d.year ∧ e.month = d.month) ∧ e.weekday = d.weekday}

def earlierAlike (d : Date) : Set Date := {e | e ∈ d.alike ∧ e < d}

def laterAlike (d : Date) : Set Date := {e | e ∈ d.alike ∧ d < e}

theorem number_bounds (d : Date) :
    d.number = dayNumber d.year d.month 1 + (d.day - 1 : Nat) ∧ 1 ≤ d.day ∧
      d.day ≤ monthLength d.year d.month := by
  have hself : dayNumber d.year d.month d.day = d.number := dayNumber_self d.number
  obtain ⟨hlow, hhigh⟩ : 1 ≤ d.day ∧ d.day ≤ monthLength d.year d.month :=
    dayOfMonth_bounds d.number
  unfold dayNumber at *
  omega

/-- There are so many dates of the month with the same weekday and some property as there are steps
that lead to their day numbers. -/
theorem ncard_of_steps (d : Date) {dates : Set Date} {P : Int → Prop} {steps : Nat}
    (step : Nat → Int) (hdates : ∀ e, e ∈ dates ↔ e ∈ d.alike ∧ P e.number) (hstep : step.Injective)
    (h : ∀ x, ((dayNumber d.year d.month 1 ≤ x ∧
      x < dayNumber d.year d.month 1 + monthLength d.year d.month) ∧
      Weekday.ofDay x = d.weekday ∧ P x) ↔
        ∃ i < steps, step i = x) : dates.ncard = steps := by
  have hmonth : number '' dates = _ :=
    number_image_month (P := fun x => Weekday.ofDay x = d.weekday ∧ P x)
    d.hasYear d.month_bounds fun e => (hdates e).trans and_assoc
  have himage : number '' dates = step '' (Finset.range steps : Set Nat) := by
    ext x
    simp [hmonth, h]
  rw [← ncard_number_image, himage, Set.ncard_image_of_injective _ hstep, Set.ncard_coe_finset,
    Finset.card_range]

theorem ncard_earlierAlike (d : Date) : d.earlierAlike.ncard = (d.day - 1) / 7 := by
  obtain ⟨hnumber, hlow, hhigh⟩ := d.number_bounds
  refine ncard_of_steps d (P := (· < d.number)) (fun i => d.number - 7 * (i + 1)) (fun e => .rfl)
    (fun i j => by simp) fun x => ?_
  constructor
  · rintro ⟨hmonth, hday, hlt⟩
    have hweeks := Weekday.ofDay_eq_iff.mp hday
    exact ⟨((d.number - x) / 7 - 1).toNat, by omega, by omega⟩
  · rintro ⟨i, hi, rfl⟩
    exact ⟨by omega, Weekday.ofDay_eq_iff.mpr (by omega), by omega⟩

theorem ncard_laterAlike (d : Date) :
    d.laterAlike.ncard = (monthLength d.year d.month - d.day) / 7 := by
  obtain ⟨hnumber, hlow, hhigh⟩ := d.number_bounds
  refine ncard_of_steps d (P := (d.number < ·)) (fun i => d.number + 7 * (i + 1)) (fun e => .rfl)
    (fun i j => by simp) fun x => ?_
  constructor
  · rintro ⟨hmonth, hday, hlt⟩
    have hweeks := Weekday.ofDay_eq_iff.mp hday
    exact ⟨((x - d.number) / 7 - 1).toNat, by omega, by omega⟩
  · rintro ⟨i, hi, rfl⟩
    exact ⟨by omega, Weekday.ofDay_eq_iff.mpr (by omega), by omega⟩

end Date

-- ---------------------------------------------------------------------------
-- Sets of occurrences
-- ---------------------------------------------------------------------------

namespace Occurrences

theorem covers_empty (d : Date) : (∅ : Occurrences).covers d = false := by
  show ((0#10).getLsbD _ || (0#10).getLsbD _) = false
  simp

theorem covers_foldl_union (sets : List Occurrences) (s : Occurrences) (d : Date) :
    (sets.foldl (· ∪ ·) s).covers d = (s.covers d || sets.any (·.covers d)) := by
  induction sets generalizing s with
  | nil => simp
  | cons t ts ih => rw [List.foldl_cons, ih, covers_union, List.any_cons, Bool.or_assoc]

theorem ofNumber?_eq {n : Nat} (hlow : 1 ≤ n) (hhigh : n ≤ 5) :
    ofNumber? n = some ⟨1 <<< (n - 1)⟩ := by
  have hnat : ((n : Int) - 1).toNat = n - 1 := by omega
  rw [ofNumber?, if_pos (by omega), hnat]

theorem ofNumber?_neg_eq {n : Nat} (hlow : 1 ≤ n) (hhigh : n ≤ 5) :
    ofNumber? (-n) = some ⟨1 <<< (n + 4)⟩ := by
  have hnat : (4 - -(n : Int)).toNat = n + 4 := by omega
  rw [ofNumber?, if_neg (by omega), if_pos (by omega), hnat]

theorem occurrence_bounds (d : Date) : 1 ≤ d.occurrence ∧ d.occurrence ≤ 5 := by
  obtain ⟨-, hlow, hhigh⟩ := d.number_bounds
  have hlength := monthLength_le d.year d.month
  unfold Date.occurrence
  omega

theorem occurrenceFromEnd_bounds (d : Date) :
    1 ≤ d.occurrenceFromEnd ∧ d.occurrenceFromEnd ≤ 5 := by
  obtain ⟨-, hlow, hhigh⟩ := d.number_bounds
  have hlength := monthLength_le d.year d.month
  unfold Date.occurrenceFromEnd
  omega

theorem getLsbD_bit (i : Nat) {j : Nat} (hj : j < 10) :
    ((1 <<< i : Nat) : BitVec 10).getLsbD j = decide (i = j) := by
  have hbit : (BitVec.ofNat 10 (1 <<< i)).getLsbD j = (decide (j < 10) && (1 <<< i).testBit j) :=
    BitVec.getLsbD_ofNat ..
  rw [Nat.one_shiftLeft, Nat.testBit_two_pow, decide_eq_true hj, Bool.true_and] at hbit
  rwa [Nat.one_shiftLeft]

theorem covers_bit (i : Nat) (d : Date) :
    (⟨1 <<< i⟩ : Occurrences).covers d = true ↔
    d.occurrence = i + 1 ∨ d.occurrenceFromEnd + 4 = i := by
  have hfirst := occurrence_bounds d
  have hlast := occurrenceFromEnd_bounds d
  rw [covers, Bool.or_eq_true, getLsbD_bit i (by omega), getLsbD_bit i (by omega),
    decide_eq_true_eq, decide_eq_true_eq]
  omega

section

variable {n : Nat} (hlow : 1 ≤ n) (hhigh : n ≤ 5)
include hlow hhigh

theorem ofNumber?_eq_ofNumber : ofNumber? n = some (ofNumber n) := by
  rw [ofNumber, ofNumber?_eq hlow hhigh, Option.getD_some]

theorem ofNumber?_neg_eq_ofNumber : ofNumber? (-n) = some (ofNumber (-n)) := by
  rw [ofNumber, ofNumber?_neg_eq hlow hhigh, Option.getD_some]

theorem covers_ofNumber (d : Date) : (ofNumber n).covers d = true ↔ d.occurrence = n := by
  have hlast := occurrenceFromEnd_bounds d
  rw [ofNumber, ofNumber?_eq hlow hhigh, Option.getD_some, covers_bit]
  omega

theorem covers_ofNumber_neg (d : Date) :
    (ofNumber (-n)).covers d = true ↔ d.occurrenceFromEnd = n := by
  have hfirst := occurrence_bounds d
  rw [ofNumber, ofNumber?_neg_eq hlow hhigh, Option.getD_some, covers_bit]
  omega

end

-- ---------------------------------------------------------------------------
-- The days of a month
-- ---------------------------------------------------------------------------

/-- The days of a month that a weekday with its occurrences selects. -/
def days (s : Occurrences) (w : Weekday) (year : Int) (month : Nat) : Set Date :=
  {d | (d.year = year ∧ d.month = month) ∧ d.weekday = w ∧ s.covers d = true}

section

variable {year : Int} {month : Nat} (hyear : Date.HasYear year) (hmonth : 1 ≤ month ∧ month ≤ 12)
include hyear hmonth

theorem number_image_days (w : Weekday) {n : Nat} (hlow : 1 ≤ n) (hhigh : n ≤ 5) :
    Date.number '' (ofNumber n).days w year month =
      {x | (dayNumber year month 1 ≤ x ∧ x < dayNumber year month 1 + monthLength year month) ∧
        (dayNumber year month 1 + 7 * (n - 1) ≤ x ∧ x < dayNumber year month 1 + 7 * (n - 1) + 7) ∧
        Weekday.ofDay x = w} := by
  refine Date.number_image_month hyear hmonth fun d => and_congr_right ?_
  rintro ⟨rfl, rfl⟩
  obtain ⟨hnumber, hfirst, hlast⟩ := d.number_bounds
  rw [covers_ofNumber hlow hhigh, and_comm, Date.occurrence]
  exact and_congr_left fun _ => by omega

theorem number_image_days_neg (w : Weekday) {n : Nat} (hlow : 1 ≤ n) (hhigh : n ≤ 5) :
    Date.number '' (ofNumber (-n)).days w year month =
      {x | (dayNumber year month 1 ≤ x ∧ x < dayNumber year month 1 + monthLength year month) ∧
        (dayNumber year month 1 + monthLength year month - 7 * n ≤ x ∧
          x < dayNumber year month 1 + monthLength year month - 7 * n + 7) ∧
        Weekday.ofDay x = w} := by
  refine Date.number_image_month hyear hmonth fun d => and_congr_right ?_
  rintro ⟨rfl, rfl⟩
  obtain ⟨hnumber, hfirst, hlast⟩ := d.number_bounds
  rw [covers_ofNumber_neg hlow hhigh, and_comm, Date.occurrenceFromEnd]
  exact and_congr_left fun _ => by omega

end

theorem ncard_of_week {dates : Set Date} {start stop week : Int} {w : Weekday}
    (h : Date.number '' dates =
      {x | (start ≤ x ∧ x < stop) ∧ (week ≤ x ∧ x < week + 7) ∧ Weekday.ofDay x = w}) :
    dates.ncard ≤ 1 ∧ (start ≤ week → week + 7 ≤ stop → dates.ncard = 1) := by
  obtain ⟨day, hday⟩ := w.exists_ofDay_in_week week
  have hsub : Date.number '' dates ⊆ {day} := by
    rw [h]
    exact fun x hx => (hday x).mp hx.2
  constructor
  · rw [← Date.ncard_number_image, ← Set.ncard_singleton day]
    exact Set.ncard_le_ncard hsub
  · intro hstart hstop
    have himage : Date.number '' dates = {day} := by
      refine hsub.antisymm (Set.singleton_subset_iff.mpr ?_)
      have hin := (hday day).mpr rfl
      rw [h]
      exact ⟨by omega, hin⟩
    rw [← Date.ncard_number_image, himage, Set.ncard_singleton]

/-- The fifth days of a month are those that have four weeks before them in it, and the fifth from
its end those that have four weeks after them. -/
theorem ncard_fifth_days {year : Int} {month : Nat} (hyear : Date.HasYear year)
    (hmonth : 1 ≤ month ∧ month ≤ 12) (w : Weekday) :
    ((ofNumber 5).days w year month).ncard = ((ofNumber (-5)).days w year month).ncard := by
  have hfirst : Date.number '' (ofNumber 5).days w year month = _ :=
    number_image_days hyear hmonth w (n := 5) (by decide) (by decide)
  have hlast : Date.number '' (ofNumber (-5)).days w year month = _ :=
    number_image_days_neg hyear hmonth w (n := 5) (by decide) (by decide)
  have hlow := le_monthLength year hmonth
  have hhigh := monthLength_le year month
  have hback : Function.Injective fun x : Int => x - 28 := fun x y => by simp
  have hshift : Date.number '' (ofNumber (-5)).days w year month =
      (fun x : Int => x - 28) '' (Date.number '' (ofNumber 5).days w year month) := by
    rw [hfirst]
    refine hlast.trans (Set.ext fun x => ?_)
    constructor
    · rintro ⟨hin, hweek, hday⟩
      refine ⟨x + 28, ⟨by omega, by omega, ?_⟩, by simp⟩
      rw [← hday, Weekday.ofDay_eq_iff]
      omega
    · rintro ⟨y, ⟨hin, hweek, hday⟩, rfl⟩
      refine ⟨by simp only; omega, by simp only; omega, ?_⟩
      rw [← hday, Weekday.ofDay_eq_iff]
      simp only
      omega
  rw [← Date.ncard_number_image, ← Date.ncard_number_image, hshift,
    Set.ncard_image_of_injective _ hback]

/-- An occurrence counted from the start or from the end of the month is one after so many others,
and a set of occurrences selects what its members do. Every month has each weekday four times from
either side, and as often a fifth time, at most once. -/
theorem covers_by_counting :
    (∀ (n : Nat) (d : Date), 1 ≤ n → n ≤ 5 →
      (∃ fromStart, ofNumber? n = some fromStart ∧
        (fromStart.covers d = true ↔ d.earlierAlike.ncard = n - 1)) ∧
      ∃ fromEnd, ofNumber? (-n) = some fromEnd ∧
      (fromEnd.covers d = true ↔ d.laterAlike.ncard = n - 1)) ∧
    (∀ (sets : List Occurrences) (d : Date),
      (sets.foldl (· ∪ ·) ∅).covers d = true ↔ ∃ s ∈ sets, s.covers d = true) ∧
    ∀ (w : Weekday) (year : Int) (month : Nat), Date.HasYear year → 1 ≤ month ∧ month ≤ 12 →
      (∀ n : Nat, 1 ≤ n → n ≤ 4 →
        ((ofNumber n).days w year month).ncard = 1 ∧
        ((ofNumber (-n)).days w year month).ncard = 1) ∧
      ((ofNumber 5).days w year month).ncard = ((ofNumber (-5)).days w year month).ncard ∧
      ((ofNumber 5).days w year month).ncard ≤ 1 := by
  refine ⟨fun n d hlow hhigh => ⟨?_, ?_⟩, fun sets d => ?_, fun w year month hyear hmonth => ?_⟩
  · refine ⟨_, ofNumber?_eq_ofNumber hlow hhigh, ?_⟩
    rw [covers_ofNumber hlow hhigh, Date.ncard_earlierAlike, Date.occurrence]
    omega
  · refine ⟨_, ofNumber?_neg_eq_ofNumber hlow hhigh, ?_⟩
    rw [covers_ofNumber_neg hlow hhigh, Date.ncard_laterAlike, Date.occurrenceFromEnd]
    omega
  · rw [covers_foldl_union, covers_empty, Bool.false_or, List.any_eq_true]
  · have hlength := le_monthLength year hmonth
    refine ⟨fun n hlow hhigh => ⟨?_, ?_⟩, ncard_fifth_days hyear hmonth w,
      (ncard_of_week (number_image_days hyear hmonth w (n := 5) (by decide) (by decide))).1⟩
    · exact (ncard_of_week (number_image_days hyear hmonth w hlow (by omega))).2
        (by omega) (by omega)
    · exact (ncard_of_week (number_image_days_neg hyear hmonth w hlow (by omega))).2
        (by omega) (by omega)

/-- The fifth and last Thursday of a February before the year 0. -/
theorem covers_by_counting_leap_day :
    ∃ d, Date.ofYearMonthDay? (-4) 2 29 = some d ∧ d.weekday = .thursday ∧
      (∃ fromStart, ofNumber? 5 = some fromStart ∧ fromStart.covers d = true ∧
        d.earlierAlike.ncard = 4) ∧
      (∃ fromEnd, ofNumber? (-1) = some fromEnd ∧ fromEnd.covers d = true ∧
        d.laterAlike.ncard = 0) ∧
      ([ofNumber 2, ofNumber (-1)].foldl (· ∪ ·) ∅).covers d = true ∧
      ((ofNumber 4).days .thursday (-4) 2).ncard = 1 ∧
      ((ofNumber (-4)).days .thursday (-4) 2).ncard = 1 := by
  let d : Date := ⟨-1402, by decide, by decide⟩
  obtain ⟨fromStart, hstart, hearlier⟩ := (covers_by_counting.1 5 d (by decide) (by decide)).1
  obtain ⟨fromEnd, hend, hlater⟩ := (covers_by_counting.1 1 d (by decide) (by decide)).2
  have hfifth : fromStart.covers d = true := by
    obtain rfl := Option.some.inj hstart
    decide
  have hlast : fromEnd.covers d = true := by
    obtain rfl := Option.some.inj hend
    decide
  have hunion := (covers_by_counting.2.1 [ofNumber 2, ofNumber (-1)] d).mpr
    ⟨ofNumber (-1), by simp, by decide⟩
  have hfour := (covers_by_counting.2.2 .thursday (-4) 2 ⟨by decide, by decide⟩ (by decide)).1 4
    (by decide) (by decide)
  exact ⟨d, by decide, by decide, ⟨fromStart, hstart, hfifth, hearlier.mp hfifth⟩,
    ⟨fromEnd, hend, hlast, hlater.mp hlast⟩, hunion, hfour⟩

end Occurrences

end OpeningTimes
