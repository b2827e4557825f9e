import OpeningTimes.Proofs.Schedule.Stretches
import OpeningTimes.Schedule.Changes

/-!
# What a search back finds

A search back looks at the stretches of one day before the other, the last one first. The first that
it meets with another status ends where the status of the instant begins. Where it meets none, the
status has lasted since the day that it has come to.
-/

namespace OpeningTimes

namespace Schedule

/-- The status of an instant has lasted since another one, and for some time before that it was a
different one. -/
structure LastsSince (s : Schedule) (t start : Instant) : Prop where
  le : start ≤ t
  since : ∀ u, start ≤ u → u ≤ t → s.status u = s.status t
  before : ∃ v, v < start ∧ ∀ u, v ≤ u → u < start → s.status u ≠ s.status t

/-- The status of an instant has lasted since a day began. -/
def LastsSinceDay (s : Schedule) (t : Instant) (d : Date) : Prop :=
  ∀ u, u ≤ t → d ≤ u.date → s.status u = s.status t

-- ---------------------------------------------------------------------------
-- One day
-- ---------------------------------------------------------------------------

def lastOtherBlock? (s : Schedule) (t : Instant) (d : Date) : Option Block :=
  (s.day d).reverse.find? fun b => (b.onDate d).start ≤ t && b.status != s.status t

theorem lastOther?_stretches (s : Schedule) (t : Instant) (d : Date) :
    lastOther? t (s.status t) (s.stretches d) = (s.lastOtherBlock? t d).map (·.onDate d) := by
  unfold lastOther? stretches
  rw [← List.map_reverse, List.find?_map]
  rfl

section

variable {s : Schedule} (h : s.WellFormed)
include h

theorem onDate_start_le {u : Instant} {b : Block} (hb : b ∈ s.day u.date)
    (hm : b.Contains u.minute) : (b.onDate u.date).start ≤ u := by
  obtain ⟨-, hlt, hle⟩ := (day_tiles h u.date).bounds b hb
  exact (Instant.atMinute_le_iff (by omega)).mpr hm.1

theorem lastOtherBlock?_eq_none {t : Instant} {d : Date} (hnone : s.lastOtherBlock? t d = none)
    {u : Instant} (hut : u ≤ t) (hu : u.date = d) : s.status u = s.status t := by
  subst hu
  obtain ⟨b, hb, hm, hstatus⟩ := exists_mem_day h u
  have hstart := Instant.le_trans (onDate_start_le h hb hm) hut
  have hnot := List.find?_eq_none.mp hnone b (List.mem_reverse.mpr hb)
  rw [hstatus]
  simpa [hstart] using hnot

theorem lastOtherBlock?_eq_some {t : Instant} {d : Date} {b : Block}
    (hsome : s.lastOtherBlock? t d = some b) :
    (b.onDate d).start.date = d ∧ (b.onDate d).start < (b.onDate d).stop ∧ (b.onDate d).stop ≤ t ∧
      (∀ u, (b.onDate d).start ≤ u → u < (b.onDate d).stop → s.status u ≠ s.status t) ∧
      ∀ u, u.date = d → (b.onDate d).stop ≤ u → u ≤ t → s.status u = s.status t := by
  obtain ⟨hother, after, before, hday, hpassed⟩ := List.find?_eq_some_iff_append.mp hsome
  simp only [Bool.and_eq_true, decide_eq_true_eq, bne_iff_ne] at hother
  obtain ⟨hstart, hother⟩ := hother
  have hb : b ∈ s.day d := List.mem_reverse.mp (by simp [hday])
  obtain ⟨-, hlt, hle⟩ := (day_tiles h d).bounds b hb
  have differs : ∀ u, (b.onDate d).Contains u → s.status u ≠ s.status t := by
    intro u hu
    obtain ⟨rfl, hm, -⟩ := (Block.contains_onDate hlt hle).mp hu
    rwa [status_of_mem_day h hb hm]
  have hstop : (b.onDate d).stop ≤ t := Instant.not_lt.mp fun hin => differs t ⟨hstart, hin⟩ rfl
  refine ⟨Block.onDate_start_date (by omega) d, Block.onDate_proper hlt hle d, hstop,
    fun u hlo hhi => differs u ⟨hlo, hhi⟩, ?_⟩
  rintro u rfl hu hut
  obtain ⟨c, hc, hm, hstatus⟩ := exists_mem_day h u
  have hcstart := Instant.le_trans (onDate_start_le h hc hm) hut
  have hapart : (s.day u.date).reverse.Pairwise fun a b => b.stop ≤ a.start :=
    List.pairwise_reverse.mpr (day_tiles h u.date).apart
  have hc : c ∈ (s.day u.date).reverse := List.mem_reverse.mpr hc
  rw [hday] at hc hapart
  -- where the block ends at the end of the calendar, the instant is there too
  have hlate (hcb : c.stop ≤ b.stop) : s.status u = s.status t := by
    rcases Instant.atMinute_le_cases hle hu with hlt | ⟨-, hmin⟩ | hlast
    · exact absurd hlt (Int.lt_irrefl _)
    · exact absurd hm.2 (by omega)
    · exact s.status_of_last_le hlast (Instant.le_trans hlast hut)
  rcases List.mem_append.mp hc with hc | hc
  · have hnot := hpassed c hc
    rw [hstatus]
    simpa [hcstart] using hnot
  · rcases List.mem_cons.mp hc with rfl | hc
    · exact hlate (Nat.le_refl _)
    · have := (List.pairwise_cons.mp (List.pairwise_append.mp hapart).2.1).1 c hc
      exact hlate (by omega)

-- ---------------------------------------------------------------------------
-- Day before day
-- ---------------------------------------------------------------------------

theorem lastsSince_of_block {t : Instant} {d : Date} {b : Block}
    (hafter : ∀ u, u ≤ t → d < u.date → s.status u = s.status t)
    (hfound : s.lastOtherBlock? t d = some b) : s.LastsSince t (b.onDate d).stop := by
  obtain ⟨hstart, hproper, hstop, hdiffers, hday⟩ := lastOtherBlock?_eq_some h hfound
  refine ⟨hstop, fun u hu hut => ?_, _, hproper, hdiffers⟩
  have hdate : d ≤ u.date :=
    hstart ▸ Instant.date_le_of_le (Instant.le_trans (Instant.le_of_lt hproper) hu)
  rcases Date.lt_or_eq_of_le hdate with hlt | heq
  · exact hafter u hut hlt
  · exact hday u heq.symm hu hut

theorem lastsSinceDay_of_no_block {t : Instant} {d : Date}
    (hafter : ∀ u, u ≤ t → d < u.date → s.status u = s.status t)
    (hfound : s.lastOtherBlock? t d = none) : s.LastsSinceDay t d := by
  intro u hut hu
  rcases Date.lt_or_eq_of_le hu with hlt | heq
  · exact hafter u hut hlt
  · exact lastOtherBlock?_eq_none h hfound hut heq.symm

/-- With all days after kept, a search back of some days finds where the status begins, or all of
its days are kept as well. -/
theorem changeDownFrom_spec {t : Instant} (days : Nat) {d : Date}
    (hafter : ∀ u, u ≤ t → d < u.date → s.status u = s.status t) :
    match s.changeDownFrom t (s.status t) days d with
    | some start => s.LastsSince t start
    | none => ∀ u, u ≤ t → d.number - days < u.date.number → s.status u = s.status t := by
  induction days generalizing d with
  | zero =>
    intro u hut hu
    exact hafter u hut (by rw [Date.lt_iff]; omega)
  | succ days ih =>
    simp only [changeDownFrom, lastOther?_stretches]
    cases hfound : s.lastOtherBlock? t d with
    | some b => exact lastsSince_of_block h hafter hfound
    | none =>
      have keeps := lastsSinceDay_of_no_block h hafter hfound
      simp only [Option.map_none]
      cases hpred : d.pred? with
      | none =>
        -- the calendar begins with this day
        have hfirst : d.number ≤ Date.first.number := by
          have := Date.ofNumber?_eq_none_iff.mp hpred
          have := d.le_last
          simp only [Date.first]
          omega
        exact fun u hut _ => keeps u hut (Int.le_trans hfirst u.date.first_le)
      | some previous =>
        have hprevious := Date.shift?_eq_some_iff.mp hpred
        have ih := @ih previous fun u hut hu =>
          keeps u hut (Date.not_lt.mp fun hlt =>
            absurd ((Date.le_pred_iff hpred).mpr hlt) (Date.not_le.mpr hu))
        have hend : previous.number - (days : Int) = d.number - ((days + 1 : Nat) : Int) := by omega
        rw [hend] at ih
        exact ih

theorem changeBefore_spec (t : Instant) (first : Date) :
    match s.changeBefore t (s.status t) first with
    | some start => s.LastsSince t start
    | none => s.LastsSinceDay t first := by
  have spec := changeDownFrom_spec h (first.daysThrough t.date) (t := t) (d := t.date)
    fun u hut hu => absurd (Instant.date_le_of_le hut) (Date.not_le.mpr hu)
  unfold changeBefore
  cases hfound : s.changeDownFrom t (s.status t) (first.daysThrough t.date) t.date with
  | some start => simpa only [hfound] using spec
  | none =>
    rw [hfound] at spec
    intro u hut hu
    apply spec u hut
    have hdate := Instant.date_le_of_le hut
    unfold Date.daysThrough
    rw [Date.le_iff] at *
    omega

end

end Schedule

end OpeningTimes
