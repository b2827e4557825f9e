import OpeningTimes.Proofs.Answer.RangeEnds
import OpeningTimes.Proofs.Schedule.WholeStretches

/-!
# A day cut at its ends

A day is answered from the three days around it. Cut at its ends, this is what a range from its
midnight to the next one gives: both are separate stretches that say the same of the day. At the
ends of the calendar there are fewer days around, and still the day is among them.
-/

namespace OpeningTimes

-- ---------------------------------------------------------------------------
-- Midnights
-- ---------------------------------------------------------------------------

namespace Instant

theorem key_first : first.key = -95745764 * 172800000000000 := rfl

theorem key_last : last.key = 95745764 * 172800000000000 + 172798999999999 := rfl

/-- Midnights are 172,800 thousand million keys apart, since each second has room for a leap
second. -/
theorem key_midnight (d : Date) : (midnight d).key = d.number * 172800000000000 := by
  simp only [key, midnight, TimeOfDay.midnight]
  omega

theorem date_eq_iff {t : Instant} {d : Date} :
    t.date = d ↔ d.number * 172800000000000 ≤ t.key ∧ t.key < (d.number + 1) * 172800000000000 := by
  have := t.time.second_lt
  have := t.time.nanosecond_lt
  rw [Date.eq_iff, key]
  omega

theorem midnightAfter_zero (d : Date) : midnightAfter d 0 = midnight d := by
  have hshift : d.shift? 0 = some d := Date.shift?_eq_some_iff.mpr (by omega)
  simp only [midnightAfter, hshift]

theorem key_midnightAfter (d : Date) (days : Int) : (midnightAfter d days).key =
    max first.key (min ((d.number + days) * 172800000000000) last.key) := by
  have hd := d.first_le
  have hd' := d.le_last
  rw [key_first, key_last]
  unfold midnightAfter
  cases hshift : d.shift? days with
  | some e =>
    have := Date.shift?_eq_some_iff.mp hshift
    have := e.first_le
    have := e.le_last
    simp only [key_midnight]
    omega
  | none =>
    have := Date.ofNumber?_eq_none_iff.mp hshift
    simp only
    split
    · rw [key_first]
      omega
    · rw [key_last]
      omega

theorem midnightAfter_le_last (d : Date) (days : Int) : midnightAfter d days ≤ last := by
  rw [le_iff, key_midnightAfter, key_first, key_last]
  omega

theorem nanosecond_midnightAfter (d : Date) (days : Int) :
    (midnightAfter d days).time.InFirstSecond → (midnightAfter d days).time.nanosecond = 0 := by
  unfold midnightAfter
  split
  · exact fun _ => rfl
  · split <;> decide

theorem midnightAfter_mono (d : Date) {days later : Int} (h : days ≤ later) :
    midnightAfter d days ≤ midnightAfter d later := by
  rw [le_iff, key_midnightAfter, key_midnightAfter]
  omega

theorem midnightAfter_le_midnight (d : Date) {days : Int} (h : days ≤ 0) :
    midnightAfter d days ≤ midnight d := by
  rw [← midnightAfter_zero]
  exact midnightAfter_mono d h

theorem midnight_lt_midnightAfter (d : Date) {days : Int} (h : 0 < days) :
    midnight d < midnightAfter d days := by
  have hd := d.le_last
  rw [lt_iff, key_midnightAfter, key_midnight, key_last]
  omega

end Instant

theorem Stretch.within_eq_map_filter {rs : List Stretch} (h : ∀ r ∈ rs, r.start < r.stop)
    {start stop : Instant} (hrange : start < stop) : within rs start stop =
      (rs.filter fun r => start < r.stop && r.start < stop).map (·.clip start stop) := by
  unfold within
  rw [List.filter_map]
  congr 1
  refine List.filter_congr fun r hr => ?_
  have hproper := h r hr
  rw [Function.comp_apply, ← Bool.decide_and, decide_eq_decide]
  simp only [clip, Instant.lt_iff, Instant.key_min, Instant.key_max] at *
  omega

-- ---------------------------------------------------------------------------
-- Between midnights
-- ---------------------------------------------------------------------------

namespace Schedule

section

variable {s : Schedule} (h : s.WellFormed) (d : Date) {days later : Int}

theorem midnightAfter_lt_midnightAfter (hdays : days ≤ 0) (hlater : 0 < later) :
    Instant.midnightAfter d days < .midnightAfter d later :=
  Instant.lt_of_le_of_lt (Instant.midnightAfter_le_midnight d hdays)
    (Instant.midnight_lt_midnightAfter d hlater)

include h

theorem separate_between_midnights (hdays : days ≤ 0) (hlater : 0 < later) :
    Stretch.Separate (s.openStretches (.midnightAfter d days) (.midnightAfter d later)) :=
  openStretches_separate h (midnightAfter_lt_midnightAfter d hdays hlater)

theorem tell_between_midnights (hdays : days ≤ 0) (hlater : 0 < later) :
    Stretch.Tell (s.openStretches (.midnightAfter d days) (.midnightAfter d later)) s
      (.midnightAfter d days) (.midnightAfter d later) := by
  intro t status
  rw [gives_openStretches_iff h (midnightAfter_lt_midnightAfter d hdays hlater)]
  constructor
  · rintro ⟨⟨hstart, hstop, -⟩, hstatus⟩
    exact ⟨⟨hstart, hstop⟩, hstatus⟩
  · rintro ⟨⟨hstart, hstop⟩, hstatus⟩
    have hlast : t < Instant.last :=
      Int.lt_of_lt_of_le hstop (Instant.midnightAfter_le_last d later)
    have hkept := not_leftOut (.midnightAfter d days) hstop
      (Instant.nanosecond_midnightAfter d later)
    exact ⟨⟨hstart, hstop, hkept, hlast⟩, hstatus⟩

end

-- ---------------------------------------------------------------------------
-- Days cut at their ends
-- ---------------------------------------------------------------------------

/-- The stretches from the midnight before a day through the day after it. -/
def around (s : Schedule) (d : Date) : List Stretch :=
  s.openStretches (.midnightAfter d (-1)) (.midnightAfter d 2)

theorem stretchesOn_cut (s : Schedule) (d : Date) : s.stretchesOn d false =
    ((s.around d).filter fun r =>
      Instant.midnight d < r.stop && r.start < Instant.midnightAfter d 1).map
      (·.clip (.midnight d) (.midnightAfter d 1)) := rfl

section

variable {s : Schedule} (h : s.WellFormed) (d : Date)
include h

theorem separate_around : Stretch.Separate (s.around d) :=
  separate_between_midnights h d (by decide) (by decide)

theorem tell_around : Stretch.Tell (s.around d) s (.midnightAfter d (-1)) (.midnightAfter d 2) :=
  tell_between_midnights h d (by decide) (by decide)

theorem stretchesOn_cut_eq :
    s.stretchesOn d false = s.openStretches (.midnight d) (.midnightAfter d 1) := by
  have hday : Instant.midnight d < .midnightAfter d 1 :=
    Instant.midnight_lt_midnightAfter d (by decide)
  have tells : Stretch.Tell (s.openStretches (.midnight d) (.midnightAfter d 1)) s (.midnight d)
      (.midnightAfter d 1) := by
    rw [← Instant.midnightAfter_zero]
    exact tell_between_midnights h d (by decide) (by decide)
  rw [stretchesOn_cut, ← Stretch.within_eq_map_filter (separate_around h d).proper hday]
  refine Stretch.Separate.eq_of_tell ((separate_around h d).within _ _)
    (openStretches_separate h hday) ?_ tells
  exact (tell_around h d).within (Instant.midnightAfter_le_midnight d (by decide))
    (Instant.midnightAfter_mono d (by decide))

end

/-- Cut at its ends, a day has just what is open from its midnight to the next one, or to the end of
the calendar. It opens if this is anything at all. -/
theorem stretchesOn_cut_is_range {raw : String} {rules : List Rule}
    (h : Rule.ofText raw = .ok rules) (c : Context) (d : Date) :
    let s : Schedule := ⟨rules, c⟩
    (s.openStretches? (.midnightAfter d (-1)) (.midnightAfter d 2)).isSome ∧
      s.openStretches? (.midnight d) (.midnightAfter d 1) = some (s.stretchesOn d false) ∧
      (s.opensOn d = true ↔ s.stretchesOn d false ≠ []) := by
  intro s
  have wellFormed : s.WellFormed := Rule.wellFormed_of_ofText h
  refine ⟨?_, ?_, ?_⟩
  · rw [openStretches?_eq_some (midnightAfter_lt_midnightAfter d (by decide) (by decide))
      (Instant.nanosecond_midnightAfter d 2)]
    rfl
  · rw [stretchesOn_cut_eq wellFormed]
    exact openStretches?_eq_some (Instant.midnight_lt_midnightAfter d (by decide))
      (Instant.nanosecond_midnightAfter d 1)
  · rw [stretchesOn_cut_eq wellFormed]
    simp [opensOn]

/-- The last date has the end of the night before and the beginning of one that the calendar cuts
off. -/
theorem stretchesOn_cut_is_range_on_last_date :
    ∃ rules, Rule.ofText "22:00-02:00" = .ok rules ∧
      let s : Schedule := ⟨rules, {}⟩
      let opened : Status := ⟨.opened, false, none⟩
      s.stretchesOn .last false = [⟨.midnight .last, .atMinute .last 120, opened⟩,
          ⟨.atMinute .last 1320, .last, opened⟩] ∧
        s.openStretches? (.midnight .last) (.midnightAfter .last 1) =
          some (s.stretchesOn .last false) ∧
        (s.opensOn .last = true ↔ s.stretchesOn .last false ≠ []) := by
  have parsed : Rule.ofText "22:00-02:00" = .ok
      [⟨[], [], [], {}, [⟨.fixed 1320, some (.fixed 120), false⟩], .opened, none, .replace⟩] := rfl
  refine ⟨_, parsed, ?_⟩
  intro s opened
  exact ⟨by decide +kernel, (stretchesOn_cut_is_range parsed {} .last).2⟩

end Schedule

end OpeningTimes
