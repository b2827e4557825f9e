import OpeningTimes.Answer.Range
import OpeningTimes.Proofs.Schedule.Timeline

/-!
# Lists of stretches

Stretches in order say at most one thing of an instant. Joining those between which nothing changes
and cutting them at the ends of a range keep what they say within the range.
-/

namespace OpeningTimes

namespace Stretch

def Contains (r : Stretch) (t : Instant) : Prop := r.start ≤ t ∧ t < r.stop

/-- None is empty, and they come one after another. -/
structure Ordered (rs : List Stretch) : Prop where
  proper : ∀ r ∈ rs, r.start < r.stop
  apart : rs.Pairwise fun a b => a.stop ≤ b.start

/-- Where one goes over into the next, the status changes. -/
structure Separate (rs : List Stretch) : Prop extends Ordered rs where
  differ : rs.Pairwise fun a b => a.stop = b.start → a.status ≠ b.status

/-- An instant has the status by one of the stretches. -/
def Gives (rs : List Stretch) (t : Instant) (status : Status) : Prop :=
  ∃ r ∈ rs, r.Contains t ∧ r.status = status

theorem gives_cons {r : Stretch} {rs : List Stretch} {t : Instant} {status : Status} :
    Gives (r :: rs) t status ↔ (r.Contains t ∧ r.status = status) ∨ Gives rs t status := by
  simp [Gives]

theorem Ordered.unique {rs : List Stretch} {a b : Stretch} {t : Instant} (h : Ordered rs)
    (ha : a ∈ rs) (hb : b ∈ rs) (hat : a.Contains t) (hbt : b.Contains t) : a = b := by
  let Near (a b : Stretch) : Prop := a.Contains t → b.Contains t → a = b
  have near : rs.Pairwise Near := h.apart.imp fun hab hat hbt => by
    simp only [Contains, Instant.le_iff, Instant.lt_iff] at *; omega
  have flipped : rs.Pairwise (flip Near) := h.apart.imp fun hab hbt hat => by
    simp only [Contains, Instant.le_iff, Instant.lt_iff] at *; omega
  exact near.forall_of_forall_of_flip (fun _ _ _ _ => rfl) flipped ha hb hat hbt

-- ---------------------------------------------------------------------------
-- Joining
-- ---------------------------------------------------------------------------

theorem Separate.consJoined {r : Stretch} {rs : List Stretch} (h : Ordered (r :: rs))
    (hrs : Separate rs) : Separate (r.consJoined rs) := by
  obtain ⟨hr, -⟩ := List.forall_mem_cons.mp h.proper
  obtain ⟨hnext, -⟩ := List.pairwise_cons.mp h.apart
  cases rs with
  | nil => exact ⟨h, by simp [Stretch.consJoined]⟩
  | cons b bs =>
    obtain ⟨hb, hbs⟩ := List.forall_mem_cons.mp hrs.proper
    obtain ⟨bApart, bsApart⟩ := List.pairwise_cons.mp hrs.apart
    obtain ⟨bDiffer, bsDiffer⟩ := List.pairwise_cons.mp hrs.differ
    have hrb := hnext b (by simp)
    simp only [Stretch.consJoined]
    split
    · rename_i hjoin
      refine ⟨⟨List.forall_mem_cons.mpr ⟨?_, hbs⟩, List.pairwise_cons.mpr ⟨bApart, bsApart⟩⟩,
        List.pairwise_cons.mpr ⟨?_, bsDiffer⟩⟩
      · simp only [Instant.le_iff, Instant.lt_iff] at *; omega
      · simpa only [hjoin.2] using bDiffer
    · rename_i hjoin
      refine ⟨h, List.pairwise_cons.mpr ⟨?_, hrs.differ⟩⟩
      refine List.forall_mem_cons.mpr ⟨fun htouch hstatus => hjoin ⟨htouch, hstatus⟩, ?_⟩
      -- one further on starts after the next one has ended
      intro c hc htouch
      have hbc := bApart c hc
      rw [← htouch, Instant.le_iff] at hbc
      simp only [Instant.le_iff, Instant.lt_iff] at hb hrb
      omega

theorem gives_consJoined {r : Stretch} {rs : List Stretch} (h : Ordered (r :: rs)) {t : Instant}
    {status : Status} : Gives (r.consJoined rs) t status ↔ Gives (r :: rs) t status := by
  cases rs with
  | nil => rfl
  | cons b bs =>
    have hr := h.proper r (by simp)
    have hb := h.proper b (by simp)
    simp only [Stretch.consJoined]
    split
    · rename_i hjoin
      have hmeet : Contains { r with stop := b.stop } t ↔ r.Contains t ∨ b.Contains t := by
        simp only [Contains, hjoin.1, Instant.le_iff, Instant.lt_iff] at *; omega
      rw [gives_cons, gives_cons, gives_cons, hmeet, hjoin.2, or_and_right, or_assoc]
    · rfl

theorem le_start_consJoined {r : Stretch} {rs : List Stretch} {t : Instant} (hr : t ≤ r.start)
    (hrs : ∀ b ∈ rs, t ≤ b.start) : ∀ b ∈ r.consJoined rs, t ≤ b.start := by
  cases rs with
  | nil => simpa [Stretch.consJoined] using hr
  | cons b bs =>
    simp only [Stretch.consJoined]
    split
    · exact List.forall_mem_cons.mpr ⟨hr, fun c hc => hrs c (.tail _ hc)⟩
    · exact List.forall_mem_cons.mpr ⟨hr, hrs⟩

theorem Ordered.joined {rs : List Stretch} (h : Ordered rs) :
    Separate (rs.foldr Stretch.consJoined []) ∧
      (∀ t status, Gives (rs.foldr Stretch.consJoined []) t status ↔ Gives rs t status) ∧
      ∀ t : Instant, (∀ r ∈ rs, t ≤ r.start) →
      ∀ r ∈ rs.foldr Stretch.consJoined [], t ≤ r.start := by
  induction rs with
  | nil => exact ⟨⟨h, .nil⟩, fun _ _ => Iff.rfl, fun _ hle => hle⟩
  | cons r rs ih =>
    obtain ⟨hr, hproper⟩ := List.forall_mem_cons.mp h.proper
    obtain ⟨hnext, hapart⟩ := List.pairwise_cons.mp h.apart
    obtain ⟨separate, gives, start⟩ := ih ⟨hproper, hapart⟩
    have ordered : Ordered (r :: rs.foldr Stretch.consJoined []) :=
      ⟨List.forall_mem_cons.mpr ⟨hr, separate.proper⟩,
        List.pairwise_cons.mpr ⟨start _ hnext, separate.apart⟩⟩
    refine ⟨separate.consJoined ordered, fun t status => ?_, fun t hle => ?_⟩
    · rw [List.foldr_cons, gives_consJoined ordered, gives_cons, gives_cons, gives]
    · obtain ⟨hr, hrs⟩ := List.forall_mem_cons.mp hle
      exact le_start_consJoined hr (start t hrs)

-- ---------------------------------------------------------------------------
-- Cutting
-- ---------------------------------------------------------------------------

theorem contains_clip {start stop t : Instant} {r : Stretch} :
    (r.clip start stop).Contains t ↔ r.Contains t ∧ start ≤ t ∧ t < stop := by
  simp only [Contains, clip, Instant.le_iff, Instant.lt_iff, Instant.key_min, Instant.key_max]
  omega

/-- What a range has of some stretches. -/
def within (rs : List Stretch) (start stop : Instant) : List Stretch :=
  (rs.map (·.clip start stop)).filter fun r => r.start < r.stop

theorem mem_within {rs : List Stretch} {start stop : Instant} {b : Stretch} :
    b ∈ within rs start stop ↔ ∃ a ∈ rs, a.clip start stop = b ∧ b.start < b.stop := by
  simp only [within, List.mem_filter, List.mem_map, decide_eq_true_eq]
  constructor
  · rintro ⟨⟨a, ha, hab⟩, hb⟩
    exact ⟨a, ha, hab, hb⟩
  · rintro ⟨a, ha, hab, hb⟩
    exact ⟨⟨a, ha, hab⟩, hb⟩

theorem gives_within {rs : List Stretch} {start stop t : Instant} {status : Status} :
    Gives (within rs start stop) t status ↔ Gives rs t status ∧ start ≤ t ∧ t < stop := by
  simp only [Gives, mem_within]
  constructor
  · rintro ⟨_, ⟨a, ha, rfl, -⟩, hm, rfl⟩
    obtain ⟨hm, hrange⟩ := contains_clip.mp hm
    exact ⟨⟨a, ha, hm, rfl⟩, hrange⟩
  · rintro ⟨⟨a, ha, hm, rfl⟩, hrange⟩
    have hm := contains_clip.mpr ⟨hm, hrange⟩
    exact ⟨_, ⟨a, ha, rfl, Instant.lt_of_le_of_lt hm.1 hm.2⟩, hm, rfl⟩

theorem within_bounds {rs : List Stretch} {start stop : Instant} :
    ∀ r ∈ within rs start stop, r.start < r.stop ∧ start ≤ r.start ∧ r.stop ≤ stop := by
  intro r hr
  obtain ⟨a, -, rfl, hlt⟩ := mem_within.mp hr
  simp only [clip, Instant.le_iff, Instant.lt_iff, Instant.key_min, Instant.key_max] at *
  omega

/-- Two stretches that touch after they have been cut touched before, since neither is cut between
them. -/
theorem Separate.within {rs : List Stretch} (h : Separate rs) (start stop : Instant) :
    Separate (within rs start stop) := by
  refine ⟨⟨fun r hr => (within_bounds r hr).1, ?_⟩, ?_⟩
  · refine List.Pairwise.filter _ (List.pairwise_map.mpr (h.apart.imp fun hab => ?_))
    simp only [clip, Instant.le_iff, Instant.key_min, Instant.key_max] at *
    omega
  · have both := h.apart.and h.differ
    refine List.pairwise_filter.mpr (List.pairwise_map.mpr (both.imp ?_))
    rintro a b ⟨hab, hdiffer⟩ ha hb htouch
    refine hdiffer (Instant.key_inj.mp ?_)
    simp only [clip, decide_eq_true_eq, Instant.le_iff, Instant.lt_iff, ← Instant.key_inj,
      Instant.key_min, Instant.key_max] at *
    omega

end Stretch

-- ---------------------------------------------------------------------------
-- The stretches of a day
-- ---------------------------------------------------------------------------

namespace Block

/-- An instant lies in a stretch of a date if its minute lies in the block, but for those at the end
of the calendar, which lie in none. -/
theorem contains_onDate {b : Block} (hlt : b.start < b.stop) (hle : b.stop ≤ 1440) {d : Date}
    {t : Instant} :
    (b.onDate d).Contains t ↔ t.date = d ∧ b.Contains t.minute ∧ t < Instant.last := by
  have := t.time.second_lt
  have := t.time.nanosecond_lt
  have := d.le_last
  have := t.date.le_last
  simp only [onDate, Stretch.Contains, Instant.le_iff, Instant.lt_iff,
    Instant.key_atMinute d (by omega : b.start ≤ 1440), Instant.key_atMinute d hle, Contains,
    Date.eq_iff, Instant.minute]
  simp only [Instant.key, Instant.last, Date.last]
  omega

theorem onDate_proper {b : Block} (hlt : b.start < b.stop) (hle : b.stop ≤ 1440) (d : Date) :
    (b.onDate d).start < (b.onDate d).stop := by
  have := d.le_last
  simp only [onDate, Instant.lt_iff, Instant.key_atMinute d (by omega : b.start ≤ 1440),
    Instant.key_atMinute d hle]
  simp only [Instant.key, Instant.last, Date.last]
  omega

theorem onDate_apart {a b : Block} {d e : Date} (ha : a.stop ≤ 1440) (hb : b.start ≤ 1440)
    (h : d < e ∨ d = e ∧ a.stop ≤ b.start) : (a.onDate d).stop ≤ (b.onDate e).start := by
  simp only [Date.lt_iff, Date.eq_iff] at h
  simp only [onDate, Instant.le_iff, Instant.key_atMinute d ha, Instant.key_atMinute e hb]
  omega

end Block

namespace Schedule

/-- The stretches of some dates one after another, without the closed ones. -/
def openDays (s : Schedule) (dates : List Date) : List Stretch :=
  dates.flatMap fun d => (s.stretches d).filter (!·.isClosed)

theorem openStretchesOf_eq (s : Schedule) (dates : List Date) :
    s.openStretchesOf dates = (s.openDays dates).foldr Stretch.consJoined [] := by
  unfold openStretchesOf openDays
  induction dates with
  | nil => rfl
  | cons d ds ih => rw [List.foldr_cons, ih, List.flatMap_cons, List.foldr_append]

theorem mem_openDays {s : Schedule} {dates : List Date} {r : Stretch} :
    r ∈ s.openDays dates ↔
      ∃ d ∈ dates, ∃ b ∈ s.day d, b.onDate d = r ∧ b.status.state ≠ .closed := by
  simp only [openDays, stretches, List.mem_flatMap, List.mem_filter, List.mem_map, Stretch.isClosed]
  constructor
  · rintro ⟨d, hd, ⟨b, hb, rfl⟩, hopen⟩
    exact ⟨d, hd, b, hb, rfl, by simpa [Block.onDate] using hopen⟩
  · rintro ⟨d, hd, b, hb, rfl, hopen⟩
    exact ⟨d, hd, ⟨b, hb, rfl⟩, by simpa [Block.onDate] using hopen⟩

section

variable {s : Schedule} (h : s.WellFormed)
include h

theorem openDays_ordered {dates : List Date} (sorted : dates.Pairwise (· < ·)) :
    Stretch.Ordered (s.openDays dates) := by
  constructor
  · intro r hr
    obtain ⟨d, -, b, hb, rfl, -⟩ := mem_openDays.mp hr
    obtain ⟨-, hlt, hle⟩ := (day_tiles h d).bounds b hb
    exact Block.onDate_proper hlt hle d
  · refine List.pairwise_flatMap.mpr ⟨fun d _ => List.Pairwise.filter _ ?_, sorted.imp ?_⟩
    · have bounds := (day_tiles h d).bounds
      refine List.pairwise_map.mpr ((day_tiles h d).apart.imp_of_mem fun ha hb hab => ?_)
      exact Block.onDate_apart (bounds _ ha).2.2 (by have := bounds _ hb; omega) (.inr ⟨rfl, hab⟩)
    · intro d e hde _ hr _ hr'
      obtain ⟨a, ha, rfl⟩ := List.mem_map.mp (List.mem_of_mem_filter hr)
      obtain ⟨b, hb, rfl⟩ := List.mem_map.mp (List.mem_of_mem_filter hr')
      have := (day_tiles h d).bounds a ha
      have := (day_tiles h e).bounds b hb
      exact Block.onDate_apart (by omega) (by omega) (.inl hde)

/-- The stretches of some dates give the instants of these dates the status that they have, but for
the closed ones and those at the end of the calendar. -/
theorem gives_openDays {dates : List Date} {t : Instant} {status : Status} :
    Stretch.Gives (s.openDays dates) t status ↔
      t.date ∈ dates ∧ t < Instant.last ∧ s.status t = status ∧ status.state ≠ .closed := by
  simp only [Stretch.Gives, mem_openDays]
  constructor
  · rintro ⟨_, ⟨d, hd, b, hb, rfl, hopen⟩, hm, rfl⟩
    obtain ⟨-, hlt, hle⟩ := (day_tiles h d).bounds b hb
    obtain ⟨rfl, hm, hlast⟩ := (Block.contains_onDate hlt hle).mp hm
    exact ⟨hd, hlast, status_of_mem_day h hb hm, hopen⟩
  · rintro ⟨hd, hlast, rfl, hopen⟩
    obtain ⟨b, hb, hm, hstatus⟩ := exists_mem_day h t
    obtain ⟨-, hlt, hle⟩ := (day_tiles h t.date).bounds b hb
    exact ⟨_, ⟨t.date, hd, b, hb, rfl, hstatus ▸ hopen⟩,
      (Block.contains_onDate hlt hle).mpr ⟨rfl, hm, hlast⟩, hstatus.symm⟩

end

end Schedule

end OpeningTimes
