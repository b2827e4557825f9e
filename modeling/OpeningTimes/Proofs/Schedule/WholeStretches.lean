import OpeningTimes.Proofs.Schedule.Stretches

/-!
# Whole stretches

A whole stretch is a time of one status, not a closed one, that cannot be made longer. Every time of
one status lies in a whole stretch, and no two whole stretches have an instant in common. Since the
status of an instant is the one of its minute, whole stretches start and stop at full minutes.
Separate stretches that say all there is to say of a time are its parts of the whole ones, so that
no two lists do so.
-/

namespace OpeningTimes

-- ---------------------------------------------------------------------------
-- Full minutes
-- ---------------------------------------------------------------------------

namespace Instant

/-- The first instant of a minute. -/
def IsFullMinute (t : Instant) : Prop := t.time.second % 60 = 0 ∧ t.time.nanosecond = 0

/-- Full minutes are 120 thousand million keys apart, since a second has room for a leap second. -/
theorem key_div (t : Instant) : t.key / 120000000000 = t.date.number * 1440 + t.minute := by
  have := t.time.second_lt
  have := t.time.nanosecond_lt
  unfold key minute
  omega

theorem isFullMinute_iff {t : Instant} : t.IsFullMinute ↔ t.key % 120000000000 = 0 := by
  have := t.time.nanosecond_lt
  unfold key IsFullMinute
  omega

theorem key_atMinute_minute (t : Instant) :
    (atMinute t.date t.minute).key = t.key / 120000000000 * 120000000000 := by
  have := t.minute_lt
  have := t.time.nanosecond_lt
  rw [atMinute_of_lt _ t.minute_lt]
  simp only [key, TimeOfDay.ofMinute, minute] at *
  omega

theorem key_atMinute_succ_minute (t : Instant) :
    (atMinute t.date (t.minute + 1)).key =
      min ((t.key / 120000000000 + 1) * 120000000000) last.key := by
  have := t.minute_lt
  rw [key_atMinute _ (by omega), key_div]
  omega

end Instant

theorem Schedule.status_of_same_minute (s : Schedule) {t u : Instant}
    (h : t.key / 120000000000 = u.key / 120000000000) : s.status t = s.status u := by
  have := t.minute_lt
  have := u.minute_lt
  rw [Instant.key_div, Instant.key_div] at h
  exact s.status_congr (Date.eq_iff.mpr (by omega)) (by omega)

namespace Stretch

-- ---------------------------------------------------------------------------
-- Times of one status
-- ---------------------------------------------------------------------------

/-- All of the stretch has its status, in which the place is not closed. -/
structure Holds (r : Stretch) (s : Schedule) : Prop where
  proper : r.start < r.stop
  notClosed : r.status.state ≠ .closed
  keeps : ∀ t, r.Contains t → s.status t = r.status

def LiesIn (a b : Stretch) : Prop := b.start ≤ a.start ∧ a.stop ≤ b.stop

/-- As long as its status lasts. -/
structure Whole (r : Stretch) (s : Schedule) : Prop extends Holds r s where
  maximal : ∀ longer : Stretch, longer.Holds s → r.LiesIn longer → longer = r

theorem LiesIn.trans {a b c : Stretch} (hab : a.LiesIn b) (hbc : b.LiesIn c) : a.LiesIn c :=
  ⟨Instant.le_trans hbc.1 hab.1, Instant.le_trans hab.2 hbc.2⟩

theorem eq_of_bounds {a b : Stretch} (hstart : a.start.key = b.start.key)
    (hstop : a.stop.key = b.stop.key) (hstatus : a.status = b.status) : a = b := by
  cases a; cases b
  simp_all [Instant.key_inj]

theorem LiesIn.antisymm {a b : Stretch} (hab : a.LiesIn b) (hba : b.LiesIn a)
    (hstatus : a.status = b.status) : a = b :=
  eq_of_bounds (Int.le_antisymm hba.1 hab.1) (Int.le_antisymm hab.2 hba.2) hstatus

section

variable {s : Schedule}

theorem Holds.contains_start {r : Stretch} (h : r.Holds s) : r.Contains r.start :=
  ⟨Int.le_refl _, h.proper⟩

theorem Holds.union {a b : Stretch} (ha : a.Holds s) (hb : b.Holds s) {t : Instant}
    (hat : a.Contains t) (hbt : b.Contains t) :
    Holds ⟨min a.start b.start, max a.stop b.stop, a.status⟩ s := by
  have hstatus : b.status = a.status := (hb.keeps t hbt).symm.trans (ha.keeps t hat)
  constructor
  case proper =>
    simp only [Contains, Instant.le_iff, Instant.lt_iff, Instant.key_min, Instant.key_max] at *
    omega
  case notClosed => exact ha.notClosed
  case keeps =>
    intro u hu
    have hone : a.Contains u ∨ b.Contains u := by
      simp only [Contains, Instant.le_iff, Instant.lt_iff, Instant.key_min, Instant.key_max] at *
      omega
    rcases hone with hau | hbu
    · exact ha.keeps u hau
    · exact (hb.keeps u hbu).trans hstatus

theorem liesIn_union_left (a b : Stretch) :
    a.LiesIn ⟨min a.start b.start, max a.stop b.stop, a.status⟩ := by
  simp only [LiesIn, Instant.le_iff, Instant.key_min, Instant.key_max]
  omega

theorem Whole.liesIn_of_meets {w r : Stretch} (hw : w.Whole s) (hr : r.Holds s) {t : Instant}
    (hwt : w.Contains t) (hrt : r.Contains t) : r.LiesIn w := by
  have hsame := hw.maximal _ (hw.union hr hwt hrt) (liesIn_union_left w r)
  rw [← hsame]
  simp only [LiesIn, Instant.le_iff, Instant.key_min, Instant.key_max]
  omega

theorem Whole.eq_of_meets {a b : Stretch} (ha : a.Whole s) (hb : b.Whole s) {t : Instant}
    (hat : a.Contains t) (hbt : b.Contains t) : a = b :=
  hb.maximal a ha.toHolds (ha.liesIn_of_meets hb.toHolds hat hbt)

/-- Until where on both sides a stretch could still be made longer. -/
def room (r : Stretch) : Nat :=
  (r.start.key - Instant.first.key).toNat + (Instant.last.key + 2000000000 - r.stop.key).toNat

theorem room_lt {a b : Stretch} (h : a.LiesIn b) (hlonger : b.start.key < a.start.key ∨
    a.stop.key < b.stop.key) : b.room < a.room := by
  have hfirst : Instant.first.key ≤ b.start.key := by
    have := b.start.date.first_le
    simp only [Instant.key, Instant.first, Date.first, TimeOfDay.midnight]
    omega
  have hlast : b.stop.key ≤ Instant.last.key + 2000000000 := by
    have := b.stop.date.le_last
    have := b.stop.time.second_lt
    have := b.stop.time.nanosecond_lt
    simp only [Instant.key, Instant.last, Date.last]
    omega
  obtain ⟨hstart, hstop⟩ := h
  rw [Instant.le_iff] at hstart hstop
  unfold room
  omega

/-- Every time of one status lies in a whole stretch: as long as it can be made longer, there is
room for it. -/
theorem Holds.exists_whole {r : Stretch} (h : r.Holds s) :
    ∃ w : Stretch, w.Whole s ∧ r.LiesIn w := by
  by_cases hmaximal : ∀ longer : Stretch, longer.Holds s → r.LiesIn longer → longer = r
  · exact ⟨r, ⟨h, hmaximal⟩, Int.le_refl _, Int.le_refl _⟩
  · simp only [not_forall] at hmaximal
    obtain ⟨longer, hlonger, hin, hne⟩ := hmaximal
    have hstatus : longer.status = r.status := by
      have hstart : longer.Contains r.start := ⟨hin.1, Int.lt_of_lt_of_le h.proper hin.2⟩
      exact (hlonger.keeps _ hstart).symm.trans (h.keeps _ h.contains_start)
    have hroom : longer.room < r.room := by
      refine room_lt hin (Classical.byContradiction fun hnot => hne ?_)
      obtain ⟨hstart, hstop⟩ := hin
      rw [Instant.le_iff] at hstart hstop
      exact eq_of_bounds (by omega) (by omega) hstatus
    obtain ⟨w, hw, hlies⟩ := hlonger.exists_whole
    exact ⟨w, hw, hin.trans hlies⟩
termination_by r.room

-- ---------------------------------------------------------------------------
-- Whole stretches among the minutes
-- ---------------------------------------------------------------------------

theorem Whole.start_isFullMinute {w : Stretch} (hw : w.Whole s) : w.start.IsFullMinute := by
  let longer : Stretch := { w with start := .atMinute w.start.date w.start.minute }
  have hfloor := w.start.key_atMinute_minute
  have hlies : w.LiesIn longer := ⟨by rw [Instant.le_iff, hfloor]; omega, Int.le_refl _⟩
  have hlonger : longer.Holds s := by
    refine ⟨Instant.lt_of_le_of_lt hlies.1 hw.proper, hw.notClosed, fun u hu => ?_⟩
    obtain ⟨hlow, hhigh⟩ := hu
    rcases Int.lt_or_le u.key w.start.key with hbefore | hafter
    · rw [Instant.le_iff, hfloor] at hlow
      calc s.status u = s.status w.start := s.status_of_same_minute (by omega)
        _ = w.status := hw.keeps _ hw.contains_start
    · exact hw.keeps u ⟨hafter, hhigh⟩
  have hsame : longer.start.key = w.start.key := by rw [hw.maximal longer hlonger hlies]
  rw [Instant.isFullMinute_iff]
  rw [hfloor] at hsame
  omega

theorem Whole.stop_isFullMinute {w : Stretch} (hw : w.Whole s) (hlast : w.stop < Instant.last) :
    w.stop.IsFullMinute := by
  rw [Instant.isFullMinute_iff]
  refine Classical.byContradiction fun hpart => ?_
  let longer : Stretch := { w with stop := .atMinute w.stop.date (w.stop.minute + 1) }
  have hnext := w.stop.key_atMinute_succ_minute
  have hfloor := w.stop.key_atMinute_minute
  have hproper := hw.proper
  rw [Instant.lt_iff] at hlast hproper
  have hlater : w.stop.key < longer.stop.key := by
    show _ < (Instant.atMinute _ _).key
    omega
  -- the part of the minute that the stretch has
  let v := max w.start (.atMinute w.stop.date w.stop.minute)
  have hv : v.key = max w.start.key (Instant.atMinute w.stop.date w.stop.minute).key :=
    Instant.key_max ..
  have hmember : w.Contains v := by
    rw [Contains, Instant.le_iff, Instant.lt_iff]
    omega
  have hlonger : longer.Holds s := by
    refine ⟨?_, hw.notClosed, fun u hu => ?_⟩
    · show w.start.key < longer.stop.key
      omega
    · obtain ⟨hlow, hhigh⟩ := hu
      rcases Int.lt_or_le u.key w.stop.key with hbefore | hafter
      · exact hw.keeps u ⟨hlow, hbefore⟩
      · replace hhigh : u.key < (Instant.atMinute _ _).key := hhigh
        calc s.status u = s.status v := s.status_of_same_minute (by omega)
          _ = w.status := hw.keeps v hmember
  have hsame : longer.stop.key = w.stop.key := by
    rw [hw.maximal longer hlonger ⟨Int.le_refl _, Int.le_of_lt hlater⟩]
  omega

end

-- ---------------------------------------------------------------------------
-- Separate stretches
-- ---------------------------------------------------------------------------

/-- The first one stops before the second one starts, and the status changes if it does so just
there. -/
def ComesBefore (a b : Stretch) : Prop :=
  a.stop ≤ b.start ∧ (a.stop = b.start → a.status ≠ b.status)

def Apart (a b : Stretch) : Prop := a.ComesBefore b ∨ b.ComesBefore a

instance : Std.Symm Apart := ⟨fun _ _ h => h.symm⟩

section

variable {as bs : List Stretch}

theorem Separate.apart_of_ne (h : Separate as) {a b : Stretch} (ha : a ∈ as) (hb : b ∈ as)
    (hne : a ≠ b) : a.Apart b := by
  have hpairwise : as.Pairwise Apart := (h.apart.and h.differ).imp fun hab => .inl hab
  exact hpairwise.forall ha hb hne

theorem Separate.exists_of_gives (h : Separate as) {r : Stretch} (hr : r.start < r.stop)
    (hgives : ∀ t, r.Contains t → Gives as t r.status) :
    ∃ a ∈ as, r.LiesIn a ∧ a.status = r.status := by
  obtain ⟨a, ha, hstart, hstatus⟩ := hgives r.start ⟨Int.le_refl _, hr⟩
  refine ⟨a, ha, ⟨hstart.1, Instant.not_lt.mp fun hlt => ?_⟩, hstatus⟩
  -- the one with the stop of this one would follow at once, with the same status
  obtain ⟨b, hb, hstop, hsame⟩ := hgives a.stop ⟨Instant.le_of_lt hstart.2, hlt⟩
  have hne : a ≠ b := fun hab => Int.lt_irrefl _ (hab ▸ hstop.2)
  rcases h.apart_of_ne ha hb hne with ⟨hle, hdiffer⟩ | ⟨hle, -⟩
  · have htouch : a.stop = b.start := Instant.key_inj.mp (Int.le_antisymm hle hstop.1)
    exact hdiffer htouch (hstatus.trans hsame.symm)
  · have := h.proper a ha
    have := hstop.2
    rw [Instant.le_iff] at hle
    rw [Instant.lt_iff] at *
    omega

theorem Separate.mem_of_gives_iff (ha : Separate as) (hb : Separate bs)
    (h : ∀ t status, Gives as t status ↔ Gives bs t status) {r : Stretch} (hr : r ∈ as) :
    r ∈ bs := by
  have hproper := ha.proper r hr
  obtain ⟨b, hmem, hrb, hstatus⟩ :=
    hb.exists_of_gives hproper fun t ht => (h t _).mp ⟨r, hr, ht, rfl⟩
  obtain ⟨a, hmem', hba, hstatus'⟩ := ha.exists_of_gives (hb.proper b hmem) fun t ht =>
    (h t _).mpr ⟨b, hmem, ht, rfl⟩
  have hin : r.LiesIn a := hrb.trans hba
  have hsame : a = r := ha.unique hmem' hr (t := r.start)
    ⟨hin.1, Int.lt_of_lt_of_le hproper hin.2⟩ ⟨Int.le_refl _, hproper⟩
  rwa [hrb.antisymm (hsame ▸ hba) hstatus.symm]

theorem Ordered.starts (h : Ordered as) : as.Pairwise fun a b => a.start < b.start :=
  h.apart.imp_of_mem fun ha _ hab => Int.lt_of_lt_of_le (h.proper _ ha) hab

theorem Separate.eq_of_gives_iff (ha : Separate as) (hb : Separate bs)
    (h : ∀ t status, Gives as t status ↔ Gives bs t status) : as = bs := by
  have nodup {rs : List Stretch} (hrs : Separate rs) : rs.Nodup :=
    hrs.starts.imp fun {a b} hlt (hab : a = b) => Int.lt_irrefl _ (hab ▸ hlt)
  have hperm : as.Perm bs := (List.perm_ext_iff_of_nodup (nodup ha) (nodup hb)).mpr fun r =>
    ⟨ha.mem_of_gives_iff hb h, hb.mem_of_gives_iff ha fun t status => (h t status).symm⟩
  exact hperm.eq_of_pairwise (fun a b _ _ hab hba => absurd hab (Int.lt_asymm hba))
    ha.starts hb.starts

end

/-- The stretches say of a range what holds in it, but for the closed times, and no more. -/
def Tell (as : List Stretch) (s : Schedule) (start stop : Instant) : Prop :=
  ∀ t status, Gives as t status ↔
    (start ≤ t ∧ t < stop) ∧ s.status t = status ∧ status.state ≠ .closed

section

variable {as : List Stretch} {s : Schedule} {start stop : Instant}

theorem Tell.within {low high : Instant} (h : Tell as s low high) (hlow : low ≤ start)
    (hhigh : stop ≤ high) : Tell (within as start stop) s start stop := by
  intro t status
  rw [gives_within, h]
  constructor
  · rintro ⟨⟨-, hstatus⟩, hrange⟩
    exact ⟨hrange, hstatus⟩
  · rintro ⟨hrange, hstatus⟩
    exact ⟨⟨⟨Instant.le_trans hlow hrange.1, Int.lt_of_lt_of_le hrange.2 hhigh⟩, hstatus⟩, hrange⟩

theorem Separate.eq_of_tell {bs : List Stretch} (ha : Separate as) (hb : Separate bs)
    (hta : Tell as s start stop) (htb : Tell bs s start stop) : as = bs :=
  ha.eq_of_gives_iff hb fun t status => (hta t status).trans (htb t status).symm

variable (h : Separate as) (htell : Tell as s start stop)
include h htell

theorem Separate.holds_of_mem {r : Stretch} (hr : r ∈ as) :
    r.Holds s ∧ start ≤ r.start ∧ r.stop ≤ stop := by
  have told {t : Instant} (ht : r.Contains t) := (htell t r.status).mp ⟨r, hr, ht, rfl⟩
  have hproper := h.proper r hr
  obtain ⟨⟨hstart, hstop⟩, -, hopen⟩ := told ⟨Int.le_refl _, hproper⟩
  refine ⟨⟨hproper, hopen, fun t ht => (told ht).2.1⟩, hstart, Instant.not_lt.mp fun hlt => ?_⟩
  exact Int.lt_irrefl _ (told ⟨Int.le_of_lt hstop, hlt⟩).1.2

theorem Separate.exists_of_whole {w : Stretch} (hw : w.Whole s)
    (hproper : (w.clip start stop).start < (w.clip start stop).stop) :
    ∃ a ∈ as, (w.clip start stop).LiesIn a ∧ a.status = w.status := by
  refine h.exists_of_gives (r := w.clip start stop) hproper fun t ht => ?_
  obtain ⟨hwt, hrange⟩ := contains_clip.mp ht
  exact (htell t _).mpr ⟨hrange, hw.keeps t hwt, hw.notClosed⟩

theorem Separate.exists_whole_of_mem {r : Stretch} (hr : r ∈ as) :
    ∃ w : Stretch, w.Whole s ∧ w.clip start stop = r := by
  obtain ⟨hholds, hstart, hstop⟩ := h.holds_of_mem htell hr
  obtain ⟨w, hw, hrw⟩ := hholds.exists_whole
  have hin : r.LiesIn (w.clip start stop) := by
    obtain ⟨hlow, hhigh⟩ := hrw
    simp only [LiesIn, clip, Instant.le_iff, Instant.key_min, Instant.key_max] at *
    omega
  have hproper := Int.lt_of_le_of_lt hin.1 (Int.lt_of_lt_of_le hholds.proper hin.2)
  obtain ⟨a, ha, hclip, hstatus⟩ := h.exists_of_whole htell hw hproper
  have hra := hin.trans hclip
  have hsame : a = r := h.unique ha hr (t := r.start)
    ⟨hra.1, Int.lt_of_lt_of_le hholds.proper hra.2⟩ hholds.contains_start
  rw [hsame] at hclip hstatus
  exact ⟨w, hw, hclip.antisymm hin hstatus.symm⟩

/-- The parts that a range has of the whole stretches are all that separate stretches can tell of
it. -/
theorem Separate.mem_iff_whole {r : Stretch} :
    r ∈ as ↔ ∃ w : Stretch, w.Whole s ∧ w.clip start stop = r ∧ r.start < r.stop := by
  constructor
  · intro hr
    obtain ⟨w, hw, hclip⟩ := h.exists_whole_of_mem htell hr
    exact ⟨w, hw, hclip, h.proper r hr⟩
  · rintro ⟨w, hw, rfl, hproper⟩
    obtain ⟨a, ha, hin, -⟩ := h.exists_of_whole htell hw hproper
    obtain ⟨w', hw', hclip⟩ := h.exists_whole_of_mem htell ha
    have hstart : (w.clip start stop).Contains (w.clip start stop).start := ⟨Int.le_refl _, hproper⟩
    have hstart' : (w'.clip start stop).Contains (w.clip start stop).start := by
      rw [hclip]
      exact ⟨hin.1, Int.lt_of_lt_of_le hproper hin.2⟩
    obtain rfl := hw.eq_of_meets hw' (contains_clip.mp hstart).1 (contains_clip.mp hstart').1
    rwa [hclip]

end

end Stretch

end OpeningTimes
