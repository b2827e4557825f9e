import OpeningTimes.Calendar.Date
import OpeningTimes.Proofs.Calendar.Years

/-!
# Dates among years and months

The first days of years and months exist as far as the calendar goes, and a date comes after one of
them if its own year and month do.
-/

namespace OpeningTimes

open Calendar

namespace Date

-- ---------------------------------------------------------------------------
-- Order
-- ---------------------------------------------------------------------------

theorem not_le {a b : Date} : ¬ a ≤ b ↔ b < a := Int.not_le

theorem not_lt {a b : Date} : ¬ a < b ↔ b ≤ a := Int.not_lt

theorem lt_or_eq_of_le {a b : Date} (h : a ≤ b) : a < b ∨ a = b := by
  rw [lt_iff, eq_iff]
  rw [le_iff] at h
  omega

theorem first_lt {d : Date} (h : d ≠ first) : first < d := by
  rcases lt_or_eq_of_le (show first ≤ d from d.first_le) with hlt | rfl
  · exact hlt
  · exact absurd rfl h

theorem le_antisymm {a b : Date} (hab : a ≤ b) (hba : b ≤ a) : a = b :=
  eq_iff.mpr (Int.le_antisymm hab hba)

theorem lt_succ_iff {a d next : Date} (h : d.succ? = some next) : a < next ↔ a ≤ d := by
  have := shift?_eq_some_iff.mp h
  rw [lt_iff, le_iff]
  omega

theorem exists_pred? {a d : Date} (h : a < d) : ∃ previous, d.pred? = some previous := by
  have := a.first_le
  have := d.le_last
  rw [lt_iff] at h
  exact ⟨⟨d.number - 1, by omega, by omega⟩, shift?_eq_some_iff.mpr rfl⟩

theorem pred?_eq_none_iff {d : Date} : d.pred? = none ↔ d = first := by
  have := d.first_le
  have := d.le_last
  unfold pred? shift?
  rw [ofNumber?_eq_none_iff, eq_iff]
  simp only [first]
  omega

theorem pred?_of_succ? {d next : Date} (h : d.succ? = some next) : next.pred? = some d := by
  have := shift?_eq_some_iff.mp h
  exact shift?_eq_some_iff.mpr (by omega)

theorem exists_shift? {d e : Date} {n : Int} (hn : 0 ≤ n) (h : d.number + n ≤ e.number) :
    ∃ later, d.shift? n = some later := by
  have := d.first_le
  have := e.le_last
  exact ⟨⟨d.number + n, by omega, by omega⟩, shift?_eq_some_iff.mpr rfl⟩

theorem le_pred_iff {a d previous : Date} (h : d.pred? = some previous) : a ≤ previous ↔ a < d := by
  have := shift?_eq_some_iff.mp h
  rw [lt_iff, le_iff]
  omega

theorem number_min (a b : Date) : (min a b).number = min a.number b.number := by
  have : min a b = if a ≤ b then a else b := rfl
  rw [this]
  split <;> rename_i h <;> rw [le_iff] at h <;> omega

theorem number_max (a b : Date) : (max a b).number = max a.number b.number := by
  have : max a b = if a ≤ b then b else a := rfl
  rw [this]
  split <;> rename_i h <;> rw [le_iff] at h <;> omega

instance : Std.IsLinearOrder Date := .of_le
  ⟨fun _ _ => le_antisymm⟩
  ⟨fun hab hbc => Int.le_trans hab hbc⟩
  ⟨fun a b => Int.le_total a.number b.number⟩

instance : Std.LawfulOrderMin Date := .of_le_min_iff
  (fun a b c => by simp only [le_iff, number_min]; omega)
  (fun a b => by simp only [eq_iff, number_min]; omega)

instance : Std.LawfulOrderMax Date := .of_max_le_iff
  (fun a b c => by simp only [le_iff, number_max]; omega)
  (fun a b => by simp only [eq_iff, number_max]; omega)

-- ---------------------------------------------------------------------------
-- Years and months
-- ---------------------------------------------------------------------------

def HasYear (year : Int) : Prop := -262143 ≤ year ∧ year ≤ 262142

theorem yearStart_bounds {year : Int} (h : HasYear year) :
    -95745764 ≤ yearStart year ∧ yearStart (year + 1) ≤ 95745765 :=
  ⟨yearStart_mono (a := -262143) h.1, yearStart_mono (b := 262143) (by have := h.2; omega)⟩

theorem ofYearMonthDay?_eq_some_iff {year : Int} {month day : Nat} {d : Date} :
    ofYearMonthDay? year month day = some d ↔
      (1 ≤ day ∧ day ≤ monthLength year month) ∧ d.number = dayNumber year month day := by
  unfold ofYearMonthDay?
  split <;> rename_i h <;> simp [h, ofNumber?_eq_some_iff]

theorem exists_ofYearMonthDay? {year : Int} {month day : Nat} (hyear : HasYear year)
    (hmonth : 1 ≤ month ∧ month ≤ 12) (hday : 1 ≤ day ∧ day ≤ monthLength year month) :
    ∃ d, ofYearMonthDay? year month day = some d := by
  have hend := daysBeforeMonth_add_monthLength_le year hmonth
  have hnext := yearStart_add_yearLength year
  have hnumber : -95745764 ≤ dayNumber year month day ∧ dayNumber year month day ≤ 95745764 := by
    have := yearStart_bounds hyear
    unfold dayNumber
    omega
  exact ⟨_, (if_pos hday).trans (dif_pos hnumber)⟩

theorem exists_newYear? {year : Int} (h : HasYear year) : ∃ d, newYear? year = some d :=
  exists_ofYearMonthDay? h (by decide) ⟨Nat.le_refl _, (by decide : 1 ≤ 31)⟩

theorem exists_newYearsEve? {year : Int} (h : HasYear year) : ∃ d, newYearsEve? year = some d :=
  exists_ofYearMonthDay? h (by decide) ⟨by decide, (by decide : 31 ≤ 31)⟩

theorem newYear?_number {year : Int} {start : Date} (h : newYear? year = some start) :
    start.number = yearStart year := by
  obtain ⟨-, hnumber⟩ := ofYearMonthDay?_eq_some_iff.mp h
  simp only [dayNumber, daysBeforeMonth] at hnumber
  omega

theorem newYear_le_iff {year : Int} {start d : Date} (h : newYear? year = some start) :
    start ≤ d ↔ year ≤ d.year := by
  rw [le_iff, newYear?_number h]
  exact yearStart_le_iff

theorem le_newYearsEve_iff {year : Int} {last d : Date} (h : newYearsEve? year = some last) :
    d ≤ last ↔ d.year ≤ year := by
  obtain ⟨-, hnumber⟩ := ofYearMonthDay?_eq_some_iff.mp h
  have hend := daysBeforeMonth_december year
  have hnext := yearStart_add_yearLength year
  have hiff : yearStart (year + 1) ≤ d.number ↔ year + 1 ≤ d.year := yearStart_le_iff
  rw [le_iff, hnumber, dayNumber]
  omega

theorem monthStart_le_iff {year : Int} {month : Nat} {start d : Date}
    (hmonth : 1 ≤ month ∧ month ≤ 12) (h : ofYearMonthDay? year month 1 = some start) :
    start ≤ d ↔ year < d.year ∨ year = d.year ∧ month ≤ d.month := by
  obtain ⟨-, hnumber⟩ := ofYearMonthDay?_eq_some_iff.mp h
  rw [le_iff, hnumber]
  exact Calendar.monthStart_le_iff hmonth

theorem afterMonth?_eq_some_iff {year : Int} {month : Nat} {after : Date} :
    afterMonth? year month = some after ↔ ∃ start, ofYearMonthDay? year month 1 = some start ∧
      after.number = start.number + monthLength year month := by
  simp only [afterMonth?, Option.bind_eq_some_iff, shift?_eq_some_iff]

theorem exists_afterMonth? {year : Int} {month : Nat} (hyear : HasYear year)
    (hnext : HasYear (year + 1)) (hmonth : 1 ≤ month ∧ month ≤ 12) :
    ∃ after, afterMonth? year month = some after := by
  have hlength := le_monthLength year hmonth
  obtain ⟨start, hstart⟩ := exists_ofYearMonthDay? hyear hmonth (by omega : 1 ≤ 1 ∧ 1 ≤ _)
  obtain ⟨-, hnumber⟩ := ofYearMonthDay?_eq_some_iff.mp hstart
  have hend := daysBeforeMonth_add_monthLength_le year hmonth
  have hlength := yearStart_add_yearLength year
  have hbounds : -95745764 ≤ start.number + monthLength year month ∧
      start.number + monthLength year month ≤ 95745764 := by
    have := start.first_le
    have := yearStart_bounds hyear
    have := yearStart_bounds hnext
    have := yearStart_lt (show year + 1 < year + 1 + 1 by omega)
    unfold dayNumber at hnumber
    omega
  exact ⟨⟨_, hbounds.1, hbounds.2⟩, afterMonth?_eq_some_iff.mpr ⟨start, hstart, rfl⟩⟩

theorem lt_afterMonth_iff {year : Int} {month : Nat} {after d : Date}
    (hmonth : 1 ≤ month ∧ month ≤ 12) (h : afterMonth? year month = some after) :
    d < after ↔ d.year < year ∨ d.year = year ∧ d.month ≤ month := by
  obtain ⟨start, hstart, hafter⟩ := afterMonth?_eq_some_iff.mp h
  obtain ⟨-, hnumber⟩ := ofYearMonthDay?_eq_some_iff.mp hstart
  rw [lt_iff, hafter, hnumber]
  exact lt_monthEnd_iff hmonth

end Date

end OpeningTimes
