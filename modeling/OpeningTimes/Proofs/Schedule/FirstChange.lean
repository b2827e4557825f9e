import OpeningTimes.Proofs.Schedule.Timeline
import OpeningTimes.Schedule.Changes

/-!
# What a search finds

A search forward looks at the stretches of one day after the other. The first one that goes on after
the instant with another status starts after it, and all instants before that start keep the status.
Where a search finds none, the status lasts through the last day it has seen.
-/

namespace OpeningTimes

namespace Schedule

structure FirstChange (s : Schedule) (t change : Instant) : Prop where
  later : t < change
  differs : s.status change ≠ s.status t
  before : ∀ u, t ≤ u → u < change → s.status u = s.status t

/-- The status of an instant lasts through a day. -/
def KeepsThrough (s : Schedule) (t : Instant) (d : Date) : Prop :=
  ∀ u, t ≤ u → u.date ≤ d → s.status u = s.status t

theorem FirstChange.unique {s : Schedule} {t a b : Instant} (ha : s.FirstChange t a)
    (hb : s.FirstChange t b) : a = b := by
  refine Instant.key_inj.mp (Int.le_antisymm (Instant.not_lt.mp fun hlt => ?_)
    (Instant.not_lt.mp fun hlt => ?_))
  · exact hb.differs (ha.before b (Instant.le_of_lt hb.later) hlt)
  · exact ha.differs (hb.before a (Instant.le_of_lt ha.later) hlt)

theorem FirstChange.of_between {s : Schedule} {t u change : Instant} (h : s.FirstChange t change)
    (htu : t ≤ u) (hu : u < change) : s.FirstChange u change where
  later := hu
  differs := by
    rw [h.before u htu hu]
    exact h.differs
  before v huv hv := by
    rw [h.before u htu hu]
    exact h.before v (Instant.le_trans htu huv) hv

-- ---------------------------------------------------------------------------
-- One day
-- ---------------------------------------------------------------------------

def firstOtherBlock? (s : Schedule) (t : Instant) (d : Date) : Option Block :=
  (s.day d).find? fun b => t < (b.onDate d).stop && b.status != s.status t

theorem firstOther?_stretches (s : Schedule) (t : Instant) (d : Date) :
    firstOther? t (s.status t) (s.stretches d) = (s.firstOtherBlock? t d).map (·.onDate d) := by
  unfold firstOther? stretches
  rw [List.find?_map]
  rfl

section

variable {s : Schedule} (h : s.WellFormed)
include h

/-- A block that the search passes over keeps the status on what it has after the instant. At the
end of the calendar a block may end no later than an instant in it, and then that one has the same
minute. -/
theorem status_of_passed {t u : Instant} (htu : t ≤ u) {b : Block} (hb : b ∈ s.day u.date)
    (hm : b.Contains u.minute) (passed : t < (b.onDate u.date).stop → b.status = s.status t) :
    s.status u = s.status t := by
  by_cases hstop : t < (b.onDate u.date).stop
  · rw [status_of_mem_day h hb hm, passed hstop]
  · have hle := ((day_tiles h u.date).bounds b hb).2.2
    have hu : Instant.last ≤ u := by
      refine Instant.not_lt.mp fun hlast => hstop ?_
      exact Instant.lt_of_le_of_lt htu (Instant.lt_atMinute hle hm.2 hlast)
    have ht : Instant.last ≤ t := by
      rcases Instant.atMinute_le_cases hle
        (Instant.not_lt.mp hstop) with hlt | ⟨hdate, hmin⟩ | hlast
      · exact absurd (Instant.date_le_of_le htu) (Date.not_le.mpr hlt)
      · rw [Instant.le_iff_lex, Date.lt_iff, Date.eq_iff] at htu
        have := hm.2
        simp only [Instant.minute] at this hmin
        rw [Date.eq_iff] at hdate
        omega
      · exact hlast
    exact s.status_of_last_le hu ht

theorem firstOtherBlock?_eq_none {t : Instant} {d : Date} (hnone : s.firstOtherBlock? t d = none)
    {u : Instant} (htu : t ≤ u) (hu : u.date = d) : s.status u = s.status t := by
  subst hu
  obtain ⟨b, hb, hm, -⟩ := exists_mem_day h u
  refine status_of_passed h htu hb hm fun hstop => ?_
  have := List.find?_eq_none.mp hnone b hb
  simpa [hstop] using this

theorem firstOtherBlock?_eq_some {t : Instant} {d : Date} {b : Block} (htd : t.date ≤ d)
    (hsome : s.firstOtherBlock? t d = some b) :
    (b.onDate d).start.date = d ∧ t < (b.onDate d).start ∧
      s.status (b.onDate d).start ≠ s.status t ∧
      ∀ u, u.date = d → t ≤ u → u < (b.onDate d).start → s.status u = s.status t := by
  obtain ⟨hother, before, after, hday, hpassed⟩ := List.find?_eq_some_iff_append.mp hsome
  simp only [Bool.and_eq_true, decide_eq_true_eq, bne_iff_ne] at hother
  obtain ⟨hstop, hother⟩ := hother
  have hb : b ∈ s.day d := by simp [hday]
  obtain ⟨-, hlt, hle⟩ := (day_tiles h d).bounds b hb
  have hstart : b.start < 1440 := by omega
  have hdate := Block.onDate_start_date hstart d
  have hminute : (b.onDate d).start.minute = b.start := by
    simp [Block.onDate, Instant.atMinute_of_lt d hstart, Instant.minute, TimeOfDay.ofMinute]
  refine ⟨hdate, ?_, ?_, ?_⟩
  · -- an instant at or after the start lies in the block, and has its status
    refine Classical.byContradiction fun hge => ?_
    have hge := Instant.not_lt.mp hge
    obtain rfl : t.date = d := Date.le_antisymm htd (hdate ▸ Instant.date_le_of_le hge)
    have hm : b.Contains t.minute :=
      ⟨(Instant.atMinute_le_iff hstart).mp hge, Instant.minute_lt_of_lt_atMinute hle hstop⟩
    exact hother (status_of_mem_day h hb hm).symm
  · rw [status_of_mem_day h (hdate.symm ▸ hb) (by rw [hminute]; exact ⟨Nat.le_refl _, hlt⟩)]
    exact hother
  · rintro u rfl htu hu
    obtain ⟨c, hc, hm, -⟩ := exists_mem_day h u
    have hapart := hday ▸ (day_tiles h u.date).apart
    refine status_of_passed h htu hc hm fun hstop => ?_
    rw [hday, List.mem_append, List.mem_cons] at hc
    have hnot : ¬ b.start ≤ u.minute := fun hge =>
      Instant.not_lt.mpr ((Instant.atMinute_le_iff hstart).mpr hge) hu
    rcases hc with hc | rfl | hc
    · simpa [hstop] using hpassed c hc
    · exact absurd hm.1 hnot
    · have := (List.pairwise_cons.mp (List.pairwise_append.mp hapart).2.1).1 c hc
      exact absurd hm.1 (by omega)

-- ---------------------------------------------------------------------------
-- Day after day
-- ---------------------------------------------------------------------------

theorem firstChange_of_block {t : Instant} {d : Date} {b : Block} (htd : t.date ≤ d)
    (hbefore : ∀ u, t ≤ u → u.date < d → s.status u = s.status t)
    (hfound : s.firstOtherBlock? t d = some b) : s.FirstChange t (b.onDate d).start := by
  obtain ⟨hdate, hlater, hdiffers, hday⟩ := firstOtherBlock?_eq_some h htd hfound
  refine ⟨hlater, hdiffers, fun u htu hu => ?_⟩
  have hle : u.date ≤ d := hdate ▸ Instant.date_le_of_le (Instant.le_of_lt hu)
  rcases Date.lt_or_eq_of_le hle with hlt | heq
  · exact hbefore u htu hlt
  · exact hday u heq htu hu

theorem keepsThrough_of_no_block {t : Instant} {d : Date}
    (hbefore : ∀ u, t ≤ u → u.date < d → s.status u = s.status t)
    (hfound : s.firstOtherBlock? t d = none) : s.KeepsThrough t d := by
  intro u htu hu
  rcases Date.lt_or_eq_of_le hu with hlt | heq
  · exact hbefore u htu hlt
  · exact firstOtherBlock?_eq_none h hfound htu heq

/-- With all days before kept, a search of some days finds the first change, or all of its days are
kept as well. -/
theorem changeFrom_spec {t : Instant} (days : Nat) {d : Date} (htd : t.date ≤ d)
    (hbefore : ∀ u, t ≤ u → u.date < d → s.status u = s.status t) :
    match s.changeFrom t (s.status t) days d with
    | some change => s.FirstChange t change ∧ change.date.number < d.number + days
    | none => ∀ u, t ≤ u → u.date.number < d.number + days → s.status u = s.status t := by
  induction days generalizing d with
  | zero =>
    intro u htu hu
    exact hbefore u htu (by rw [Date.lt_iff]; omega)
  | succ days ih =>
    simp only [changeFrom, firstOther?_stretches]
    cases hfound : s.firstOtherBlock? t d with
    | some b =>
      have hdate := Date.eq_iff.mp (firstOtherBlock?_eq_some h htd hfound).1
      exact ⟨firstChange_of_block h htd hbefore hfound, by simp only; omega⟩
    | none =>
      have keeps := keepsThrough_of_no_block h hbefore hfound
      simp only [Option.map_none]
      cases hsucc : d.succ? with
      | none =>
        -- the calendar ends with this day
        have hlast : Date.last.number ≤ d.number := by
          have := Date.ofNumber?_eq_none_iff.mp hsucc
          have := d.first_le
          simp only [Date.last]
          omega
        exact fun u htu _ => keeps u htu (Int.le_trans u.date.le_last hlast)
      | some next =>
        have hnext := Date.shift?_eq_some_iff.mp hsucc
        have ih := @ih next (by rw [Date.le_iff] at *; omega) fun u htu hu =>
          keeps u htu ((Date.lt_succ_iff hsucc).mp hu)
        have hend : next.number + (days : Int) = d.number + ((days + 1 : Nat) : Int) := by omega
        rw [hend] at ih
        exact ih

theorem changeAfter_spec (t : Instant) (last : Date) :
    match s.changeAfter t (s.status t) last with
    | some change => s.FirstChange t change ∧ change.date ≤ last
    | none => s.KeepsThrough t last := by
  have spec := changeFrom_spec h (t.date.daysThrough last) (Int.le_refl t.date.number)
    fun u htu hu => absurd (Instant.date_le_of_le htu) (Date.not_le.mpr hu)
  unfold changeAfter
  cases hfound : s.changeFrom t (s.status t) (t.date.daysThrough last) t.date with
  | some change =>
    rw [hfound] at spec
    refine ⟨spec.1, ?_⟩
    have hlater := Instant.date_le_of_le (Instant.le_of_lt spec.1.later)
    have hend := spec.2
    unfold Date.daysThrough at hend
    rw [Date.le_iff] at *
    omega
  | none =>
    rw [hfound] at spec
    intro u htu hu
    refine spec u htu ?_
    have hdate := Instant.date_le_of_le htu
    unfold Date.daysThrough
    rw [Date.le_iff] at *
    omega

theorem changeAfter_eq_some {t change : Instant} {last : Date}
    (hfound : s.changeAfter t (s.status t) last = some change) :
    s.FirstChange t change ∧ change.date ≤ last := by
  simpa only [hfound] using changeAfter_spec h t last

theorem changeAfter_eq_none {t : Instant} {last : Date}
    (hfound : s.changeAfter t (s.status t) last = none) : s.KeepsThrough t last := by
  simpa only [hfound] using changeAfter_spec h t last

end

end Schedule

end OpeningTimes
