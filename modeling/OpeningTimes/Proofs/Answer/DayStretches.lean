import OpeningTimes.Proofs.Answer.DayRange

/-!
# The stretches of a day

With the ends that they have, a day has the whole stretches that start on it, but of those that last
over a day each day has its part. The three days from which a day is answered are enough to tell how
long a stretch lasts, as far as it matters: one that is cut at their ends and meets the day in the
middle lasts over a day.
-/

namespace OpeningTimes

-- ---------------------------------------------------------------------------
-- How long a stretch lasts
-- ---------------------------------------------------------------------------

namespace Stretch

theorem lastsOverADay_of_lt {r : Stretch} (hstart : r.start.IsFullMinute)
    (h : r.start.key + 172800000000000 < r.stop.key) : r.lastsOverADay = true := by
  obtain ⟨hsecond, hnano⟩ := hstart
  have := r.start.time.second_lt
  have := r.stop.time.second_lt
  have := r.stop.time.nanosecond_lt
  unfold Instant.key at h
  unfold lastsOverADay duration Instant.nanosecondsSince TimeOfDay.isLeap
  simp only [hnano, decide_eq_true_eq, Bool.and_eq_true] at h ⊢
  split
  · omega
  · split <;> omega

/-- Full minutes are in no leap second, so their keys tell how long it is between them. -/
theorem lastsOverADay_iff {r : Stretch} (hstart : r.start.IsFullMinute)
    (hstop : r.stop.IsFullMinute) :
    r.lastsOverADay = true ↔ r.start.key + 172800000000000 < r.stop.key := by
  refine ⟨fun h => ?_, lastsOverADay_of_lt hstart⟩
  obtain ⟨hsecond, hnano⟩ := hstart
  obtain ⟨hsecond', hnano'⟩ := hstop
  have := r.start.time.second_lt
  have := r.stop.time.second_lt
  unfold Instant.key
  unfold lastsOverADay duration Instant.nanosecondsSince TimeOfDay.isLeap at h
  simp only [hnano, hnano', decide_eq_true_eq, Bool.and_eq_true] at h ⊢
  split at h
  · omega
  · split at h <;> omega

theorem Whole.lastsOverADay_iff {s : Schedule} {w : Stretch} (hw : w.Whole s)
    (h : w.start.key + 172800000000000 < Instant.last.key) :
    w.lastsOverADay = true ↔ w.start.key + 172800000000000 < w.stop.key := by
  rcases Int.lt_or_le (w.start.key + 172800000000000) w.stop.key with hlong | hshort
  · simp only [lastsOverADay_of_lt hw.start_isFullMinute hlong, hlong]
  · have hlast : w.stop < Instant.last := Int.lt_of_le_of_lt hshort h
    exact Stretch.lastsOverADay_iff hw.start_isFullMinute (hw.stop_isFullMinute hlast)

end Stretch

-- ---------------------------------------------------------------------------
-- Days within the calendar
-- ---------------------------------------------------------------------------

/-- At least three days from either end of the calendar. -/
def Date.IsInner (d : Date) : Prop :=
  Date.first.number + 3 ≤ d.number ∧ d.number + 3 ≤ Date.last.number

theorem Date.IsInner.key_midnightAfter {d : Date} (h : d.IsInner) {days : Int}
    (hdays : -3 ≤ days ∧ days ≤ 3) :
    (Instant.midnightAfter d days).key = (d.number + days) * 172800000000000 := by
  obtain ⟨hlow, hhigh⟩ := h
  simp only [Date.first, Date.last] at hlow hhigh
  rw [Instant.key_midnightAfter, Instant.key_first, Instant.key_last]
  omega

theorem Instant.date_eq_iff_midnights {t : Instant} {d : Date} (hd : d.IsInner) :
    t.date = d ↔ midnight d ≤ t ∧ t < midnightAfter d 1 := by
  rw [date_eq_iff, le_iff, lt_iff, key_midnight, hd.key_midnightAfter (by decide)]

namespace Stretch

theorem clip_liesIn (r : Stretch) (start stop : Instant) : (r.clip start stop).LiesIn r := by
  simp only [LiesIn, clip, Instant.le_iff, Instant.key_min, Instant.key_max]
  omega

def MeetsDay (r : Stretch) (d : Date) : Prop := ∃ t, r.Contains t ∧ t.date = d

theorem meetsDay_iff {r : Stretch} {d : Date} (hproper : r.start < r.stop) : r.MeetsDay d ↔
    d.number * 172800000000000 < r.stop.key ∧ r.start.key < (d.number + 1) * 172800000000000 := by
  simp only [MeetsDay, Contains, Instant.date_eq_iff, Instant.le_iff, Instant.lt_iff] at *
  constructor
  · rintro ⟨t, ⟨hstart, hstop⟩, hlow, hhigh⟩
    omega
  · rintro ⟨hstop, hstart⟩
    refine ⟨max r.start (.midnight d), ?_⟩
    rw [Instant.key_max, Instant.key_midnight]
    omega

def partOn (r : Stretch) (d : Date) : Stretch := r.clip (.midnight d) (.midnightAfter d 1)

/-- The part that the three days around a day have. -/
def partAround (r : Stretch) (d : Date) : Stretch :=
  r.clip (.midnightAfter d (-1)) (.midnightAfter d 2)

theorem partOn_partAround (r : Stretch) (d : Date) : (r.partAround d).partOn d = r.partOn d := by
  have hlow := Instant.midnightAfter_le_midnight d (by decide : (-1 : Int) ≤ 0)
  have hhigh := Instant.midnightAfter_mono d (by decide : (1 : Int) ≤ 2)
  rw [Instant.le_iff] at hlow hhigh
  refine eq_of_bounds ?_ ?_ rfl
  all_goals
    simp only [partOn, partAround, clip, Instant.key_min, Instant.key_max]
    omega

section

variable {r : Stretch} {d : Date} (hd : d.IsInner)
include hd

theorem contains_partOn {t : Instant} : (r.partOn d).Contains t ↔ r.Contains t ∧ t.date = d := by
  rw [partOn, contains_clip, Instant.date_eq_iff_midnights hd]

theorem contains_start_partOn (hmeets : r.MeetsDay d) :
    (r.partOn d).Contains (r.partOn d).start := by
  obtain ⟨t, ht⟩ := hmeets
  obtain ⟨hstart, hstop⟩ := (contains_partOn hd).mpr ht
  exact ⟨Int.le_refl _, Instant.lt_of_le_of_lt hstart hstop⟩

theorem partAround_proper (hmeets : r.MeetsDay d) :
    (r.partAround d).start < (r.partAround d).stop := by
  have hpart := contains_start_partOn hd hmeets
  rw [← partOn_partAround] at hpart
  obtain ⟨hstart, hstop⟩ := (contains_clip.mp hpart).1
  exact Instant.lt_of_le_of_lt hstart hstop

theorem key_partAround :
    (r.partAround d).start.key = max r.start.key ((d.number - 1) * 172800000000000) ∧
      (r.partAround d).stop.key = min r.stop.key ((d.number + 2) * 172800000000000) := by
  have hbefore := hd.key_midnightAfter (by decide : -3 ≤ -1 ∧ (-1 : Int) ≤ 3)
  have hafter := hd.key_midnightAfter (by decide : -3 ≤ 2 ∧ (2 : Int) ≤ 3)
  simp only [partAround, clip, Instant.key_max, Instant.key_min]
  omega

theorem meetsDay_iff_partAround (hproper : r.start < r.stop) : r.MeetsDay d ↔
    .midnight d < (r.partAround d).stop ∧ (r.partAround d).start < .midnightAfter d 1 := by
  obtain ⟨hstart, hstop⟩ := key_partAround (r := r) hd
  rw [meetsDay_iff hproper, Instant.lt_iff, Instant.lt_iff, Instant.key_midnight,
    hd.key_midnightAfter (by decide)]
  omega

section

variable {s : Schedule} (hw : r.Whole s) (hmeets : r.MeetsDay d)
include hw hmeets

theorem Whole.lastsOverADay_iff_of_meetsDay :
    r.lastsOverADay = true ↔ r.start.key + 172800000000000 < r.stop.key := by
  refine hw.lastsOverADay_iff ?_
  obtain ⟨-, hstart⟩ := (meetsDay_iff hw.proper).mp hmeets
  have hinner := hd.2
  simp only [Date.last] at hinner
  rw [Instant.key_last]
  omega

/-- Cut at the ends of the three days around a day that it meets, a whole stretch lasts over a day
just if it does so altogether. -/
theorem Whole.lastsOverADay_partAround : (r.partAround d).lastsOverADay = r.lastsOverADay := by
  obtain ⟨hstop, hstart⟩ := (meetsDay_iff hw.proper).mp hmeets
  obtain ⟨hfrom, hto⟩ := key_partAround (r := r) hd
  have hfull : (r.partAround d).start.IsFullMinute := by
    have := Instant.isFullMinute_iff.mp hw.start_isFullMinute
    rw [Instant.isFullMinute_iff]
    omega
  have hfull' : (r.partAround d).stop.IsFullMinute := by
    rw [Instant.isFullMinute_iff]
    rcases Int.lt_or_le r.stop.key Instant.last.key with hlt | hle
    · have := Instant.isFullMinute_iff.mp (hw.stop_isFullMinute hlt)
      omega
    · have hinner := hd.2
      simp only [Date.last] at hinner
      rw [Instant.key_last] at hle
      omega
  rw [Bool.eq_iff_iff, Stretch.lastsOverADay_iff hfull hfull',
    hw.lastsOverADay_iff_of_meetsDay hd hmeets]
  omega

theorem Whole.partAround_eq (hshort : r.lastsOverADay = false)
    (hstart : Instant.midnight d ≤ (r.partAround d).start) : r.partAround d = r := by
  have hlasts : ¬ r.start.key + 172800000000000 < r.stop.key := by
    rw [← hw.lastsOverADay_iff_of_meetsDay hd hmeets, hshort]
    decide
  obtain ⟨-, hnext⟩ := (meetsDay_iff hw.proper).mp hmeets
  obtain ⟨hfrom, hto⟩ := key_partAround (r := r) hd
  rw [Instant.le_iff, Instant.key_midnight] at hstart
  exact eq_of_bounds (by omega) (by omega) rfl

end

end

end Stretch

namespace Schedule

/-- What a day lists: the whole stretches that start on it, but of those that last over a day the
parts of those that meet it. -/
def Lists (s : Schedule) (d : Date) (r : Stretch) : Prop :=
  (r.Whole s ∧ r.lastsOverADay = false ∧ r.start.date = d) ∨
    ∃ w : Stretch, w.Whole s ∧ w.lastsOverADay = true ∧ w.MeetsDay d ∧ w.partOn d = r

theorem mem_stretchesOn_true {s : Schedule} {d : Date} {r : Stretch} :
    r ∈ s.stretchesOn d true ↔ ∃ a ∈ s.around d,
      (Instant.midnight d < a.stop ∧ a.start < Instant.midnightAfter d 1) ∧
        (if a.lastsOverADay then a.partOn d else a) = r ∧
        Instant.midnight d ≤ r.start ∧ r.start < Instant.midnightAfter d 1 := by
  simp only [stretchesOn, if_true, List.mem_filter, List.mem_map, Bool.and_eq_true,
    decide_eq_true_eq]
  constructor
  · rintro ⟨⟨a, ⟨ha, htouch⟩, rfl⟩, hrange⟩
    exact ⟨a, ha, htouch, rfl, hrange⟩
  · rintro ⟨a, ha, htouch, rfl, hrange⟩
    exact ⟨⟨a, ⟨ha, htouch⟩, rfl⟩, hrange⟩

theorem mem_stretchesOn_iff {s : Schedule} (h : s.WellFormed) {d : Date} (hd : d.IsInner)
    {r : Stretch} : r ∈ s.stretchesOn d true ↔ s.Lists d r := by
  have mem {a : Stretch} : a ∈ s.around d ↔
      ∃ w : Stretch, w.Whole s ∧ w.partAround d = a ∧ a.start < a.stop :=
    (separate_around h d).mem_iff_whole (tell_around h d)
  rw [mem_stretchesOn_true]
  constructor
  -- what the three days have is a part of a whole stretch, and this part lasts over a day if the
  -- whole does
  · rintro ⟨a, ha, htouch, rfl, hrange⟩
    obtain ⟨w, hw, rfl, -⟩ := mem.mp ha
    have hmeets : w.MeetsDay d := (Stretch.meetsDay_iff_partAround hd hw.proper).mpr htouch
    rw [hw.lastsOverADay_partAround hd hmeets] at hrange ⊢
    cases hlasts : w.lastsOverADay with
    | true => exact .inr ⟨w, hw, hlasts, hmeets, (Stretch.partOn_partAround w d).symm⟩
    | false =>
      simp only [hlasts, Bool.false_eq_true, if_false] at hrange ⊢
      have hsame := hw.partAround_eq hd hmeets hlasts hrange.1
      rw [hsame] at hrange ⊢
      exact .inl ⟨hw, hlasts, (Instant.date_eq_iff_midnights hd).mpr hrange⟩
  · rintro (⟨hw, hlasts, hdate⟩ | ⟨w, hw, hlasts, hmeets, rfl⟩)
    · have hmeets : r.MeetsDay d := ⟨r.start, hw.contains_start, hdate⟩
      have hrange := (Instant.date_eq_iff_midnights hd).mp hdate
      have hsame := hw.partAround_eq hd hmeets hlasts
        (Instant.le_trans hrange.1 (Stretch.clip_liesIn ..).1)
      refine ⟨r.partAround d, mem.mpr ⟨r, hw, rfl, Stretch.partAround_proper hd hmeets⟩,
        (Stretch.meetsDay_iff_partAround hd hw.proper).mp hmeets, ?_, hrange⟩
      rw [hsame, hlasts]
      rfl
    · refine ⟨w.partAround d, mem.mpr ⟨w, hw, rfl, Stretch.partAround_proper hd hmeets⟩,
        (Stretch.meetsDay_iff_partAround hd hw.proper).mp hmeets, ?_, ?_⟩
      · rw [hw.lastsOverADay_partAround hd hmeets, hlasts, if_pos rfl, Stretch.partOn_partAround]
      · have hstart := Stretch.contains_start_partOn hd hmeets
        exact (Instant.date_eq_iff_midnights hd).mp ((Stretch.contains_partOn hd).mp hstart).2

theorem stretchesOn_ordered {s : Schedule} (h : s.WellFormed) {d : Date} (hd : d.IsInner) :
    Stretch.Ordered (s.stretchesOn d true) := by
  constructor
  case proper =>
    intro r hr
    rcases (mem_stretchesOn_iff h hd).mp hr with ⟨hw, -⟩ | ⟨w, -, -, hmeets, rfl⟩
    · exact hw.proper
    · exact (Stretch.contains_start_partOn hd hmeets).2
  case apart =>
    let cut (a : Stretch) : Stretch := if a.lastsOverADay then a.partOn d else a
    have hcut (a : Stretch) : (cut a).LiesIn a := by
      simp only [cut]
      split
      · exact Stretch.clip_liesIn ..
      · exact ⟨Int.le_refl _, Int.le_refl _⟩
    have touching := (separate_around h d).apart.filter fun r =>
      Instant.midnight d < r.stop && r.start < Instant.midnightAfter d 1
    refine List.Pairwise.filter _ (List.pairwise_map.mpr (touching.imp fun {a b} hab => ?_))
    exact Instant.le_trans (hcut a).2 (Instant.le_trans hab (hcut b).1)

/-- An instant is listed once: on its own day where the stretch that it lies in lasts over a day,
and else on the day that the stretch starts on. -/
theorem lists_contains_iff {s : Schedule} {d : Date} (hd : d.IsInner) {w r : Stretch}
    (hw : w.Whole s) {t : Instant} (ht : w.Contains t) : s.Lists d r ∧ r.Contains t ↔
      if w.lastsOverADay then d = t.date ∧ r = w.partOn d else d = w.start.date ∧ r = w := by
  constructor
  · rintro ⟨⟨hr, hlasts, hdate⟩ | ⟨w', hw', hlasts, hmeets, rfl⟩, hrt⟩
    · obtain rfl := hw.eq_of_meets hr ht hrt
      simp [hlasts, hdate]
    · obtain ⟨hw't, hdate⟩ := (Stretch.contains_partOn hd).mp hrt
      obtain rfl := hw.eq_of_meets hw' ht hw't
      simp [hlasts, hdate]
  · cases hlasts : w.lastsOverADay with
    | true =>
      rintro ⟨rfl, rfl⟩
      exact ⟨.inr ⟨w, hw, hlasts, ⟨t, ht, rfl⟩, rfl⟩, (Stretch.contains_partOn hd).mpr ⟨ht, rfl⟩⟩
    | false =>
      rintro ⟨rfl, rfl⟩
      exact ⟨.inl ⟨hw, hlasts, rfl⟩, ht⟩

/-- A day lists in order the whole stretches that start on it, and of those that last over a day its
parts. So a stretch of at most a day is listed once, and a longer one is cut into the parts of the
days. -/
theorem stretchesOn_lists_once {raw : String} {rules : List Rule} (h : Rule.ofText raw = .ok rules)
    (c : Context) :
    let s : Schedule := ⟨rules, c⟩
    (∀ d : Date, d.IsInner → Stretch.Ordered (s.stretchesOn d true) ∧
        ∀ r, r ∈ s.stretchesOn d true ↔ s.Lists d r) ∧
      ∀ w : Stretch, w.Whole s → ∀ t, w.Contains t → ∀ d : Date, d.IsInner → ∀ r,
        (r ∈ s.stretchesOn d true ∧ r.Contains t ↔
          if w.lastsOverADay then d = t.date ∧ r = w.partOn d else d = w.start.date ∧ r = w) := by
  intro s
  have wellFormed : s.WellFormed := Rule.wellFormed_of_ofText h
  refine ⟨fun d hd => ⟨stretchesOn_ordered wellFormed hd,
    fun r => mem_stretchesOn_iff wellFormed hd⟩, ?_⟩
  intro w hw t ht d hd r
  rw [mem_stretchesOn_iff wellFormed hd]
  exact lists_contains_iff hd hw ht

/-- A Monday night is listed on Monday alone, and of the time from Wednesday through Thursday each
of the two days has its part. -/
theorem stretchesOn_lists_once_week :
    ∃ rules, Rule.ofText "Mo 22:00-02:00; We-Th" = .ok rules ∧
      let s : Schedule := ⟨rules, {}⟩
      let monday : Date := ⟨739384, by decide, by decide⟩
      let tuesday : Date := ⟨739385, by decide, by decide⟩
      let wednesday : Date := ⟨739386, by decide, by decide⟩
      let opened : Status := ⟨.opened, false, none⟩
      let night : Stretch := ⟨.atMinute monday 1320, .atMinute tuesday 120, opened⟩
      s.stretchesOn monday true = [night] ∧
        (∀ d : Date, d.IsInner → ∀ r,
          (r ∈ s.stretchesOn d true ∧ r.Contains (.midnight tuesday) ↔ d = monday ∧ r = night)) ∧
        ∃ w : Stretch, w.Whole s ∧ w.lastsOverADay = true ∧
          s.stretchesOn wednesday true = [w.partOn wednesday] := by
  have parsed : Rule.ofText "Mo 22:00-02:00; We-Th" = .ok
      [⟨[], [], [], { weekdays := .ofDay .monday }, [⟨.fixed 1320, some (.fixed 120), false⟩],
          .opened, none, .replace⟩,
        ⟨[], [], [], { weekdays := .range .wednesday .thursday }, [], .opened, none,
          .replace⟩] := rfl
  refine ⟨_, parsed, ?_⟩
  intro s monday tuesday wednesday opened night
  obtain ⟨days, once⟩ := stretchesOn_lists_once parsed {}
  have inner : monday.IsInner ∧ wednesday.IsInner := by
    simp [Date.IsInner, Date.first, Date.last, monday, wednesday]
  have onMonday : s.stretchesOn monday true = [night] := by decide +kernel
  have overMidnight : night.Contains (.midnight tuesday) := ⟨by decide +kernel, by decide +kernel⟩
  have nightWhole : night.Whole s := by
    have listed : night ∈ s.stretchesOn monday true := by simp [onMonday]
    rcases ((days monday inner.1).2 night).mp listed with ⟨hw, -⟩ | ⟨w, -, -, -, hpart⟩
    · exact hw
    · obtain ⟨-, hdate⟩ := (Stretch.contains_partOn inner.1).mp (hpart ▸ overMidnight)
      exact absurd hdate (by decide)
  refine ⟨onMonday, fun d hd r => ?_, ?_⟩
  · have short : night.lastsOverADay = false := by decide +kernel
    have listed := once night nightWhole _ overMidnight d hd r
    rw [short] at listed
    exact listed
  · let part : Stretch := ⟨.midnight wednesday, .midnightAfter wednesday 1, opened⟩
    let both : Stretch := ⟨.midnight wednesday, .midnightAfter wednesday 2, opened⟩
    have onWednesday : s.stretchesOn wednesday true = [part] := by decide +kernel
    have listed : part ∈ s.stretchesOn wednesday true := by simp [onWednesday]
    rcases ((days wednesday inner.2).2 part).mp listed with ⟨hw, -⟩ | ⟨w, hw, hlasts, -, hpart⟩
    · have wellFormed : s.WellFormed := Rule.wellFormed_of_ofText parsed
      have holds : both.Holds s := ((separate_around wellFormed wednesday).holds_of_mem
        (tell_around wellFormed wednesday) (by decide +kernel)).1
      exact absurd (hw.maximal both holds ⟨by decide +kernel, by decide +kernel⟩)
        (by decide +kernel)
    · exact ⟨w, hw, hlasts, hpart ▸ onWednesday⟩

end Schedule

end OpeningTimes
