import OpeningTimes.Proofs.Calendar.Cycle
import OpeningTimes.Proofs.Recurrence.Alike
import OpeningTimes.Proofs.Schedule.DayMeaning
import OpeningTimes.Recurrence.Limits

/-!
# What a period promises

Beyond all dates that its rules name, a schedule covers two dates with the same rules if they take
the same place in the period of the rules that are still alive.
-/

namespace OpeningTimes

-- ---------------------------------------------------------------------------
-- The same place in a period
-- ---------------------------------------------------------------------------

namespace SelectorKinds

variable {d e : Date}

theorem agree_union {a b : SelectorKinds} (h : (a ∪ b).Agree d e) : a.Agree d e ∧ b.Agree d e := by
  refine ⟨⟨fun ha => h.weekday ?_, fun ha => h.occurrence ?_, fun ha => h.month ?_,
    fun ha => h.day ?_, fun ha => h.week ?_⟩,
    ⟨fun hb => h.weekday ?_, fun hb => h.occurrence ?_, fun hb => h.month ?_,
    fun hb => h.day ?_, fun hb => h.week ?_⟩⟩
  all_goals simp_all [Union.union]

theorem agree_of_foldl {kinds : List SelectorKinds} {a : SelectorKinds}
    (h : (kinds.foldl (· ∪ ·) a).Agree d e) : a.Agree d e ∧ ∀ k ∈ kinds, k.Agree d e := by
  induction kinds generalizing a with
  | nil => exact ⟨h, by simp⟩
  | cons k ks ih =>
    obtain ⟨hunion, hrest⟩ := ih h
    obtain ⟨ha, hk⟩ := agree_union hunion
    exact ⟨ha, List.forall_mem_cons.mpr ⟨hk, hrest⟩⟩

theorem agree_of_mem {kinds : List SelectorKinds} (h : (ofList kinds).Agree d e) :
    ∀ k ∈ kinds, k.Agree d e :=
  (agree_of_foldl h).2

end SelectorKinds

namespace Period

/-- Two dates take the same place in the period. -/
def Alike : Period → Date → Date → Prop
  | .constant, _, _ => True
  | .weekly, d, e => d.weekday = e.weekday
  | .yearly, d, e => d.monthDay = e.monthDay
  | .gregorian, d, e => d.number % Calendar.cycleDays = e.number % Calendar.cycleDays

theorem agree_of_cycle {d e : Date} (h : d.number % 146097 = e.number % 146097)
    (k : SelectorKinds) : k.Agree d e where
  weekday _ := Date.weekday_of_cycle h
  occurrence _ := ⟨Date.weekday_of_cycle h, Date.occurrence_of_cycle h,
    Date.occurrenceFromEnd_of_cycle h⟩
  month _ := Date.month_of_cycle h
  day _ := by rw [Date.monthDay, Date.monthDay, Date.month_of_cycle h, Date.day_of_cycle h]
  week _ := Date.isoWeek_of_cycle h

theorem Alike.agree {k : SelectorKinds} {d e : Date} (h : (ofKinds k).Alike d e) : k.Agree d e := by
  unfold ofKinds at h
  split at h
  · rename_i hkinds
    simp only [Bool.not_eq_true', Bool.or_eq_false_iff] at hkinds
    obtain ⟨⟨⟨hmonth, hday⟩, hoccurrence⟩, hweek⟩ := hkinds
    exact ⟨fun _ => h, by simp [hoccurrence], by simp [hmonth], by simp [hday], by simp [hweek]⟩
  · split at h
    · rename_i hkinds
      simp only [Bool.not_eq_true', Bool.or_eq_false_iff] at hkinds
      obtain ⟨⟨hweekday, hoccurrence⟩, hweek⟩ := hkinds
      exact ⟨by simp [hweekday], by simp [hoccurrence], fun _ => congrArg MonthDay.month h,
        fun _ => h, by simp [hweek]⟩
    · exact agree_of_cycle h k

end Period

-- ---------------------------------------------------------------------------
-- Beyond the dates that are named
-- ---------------------------------------------------------------------------

namespace Schedule

variable {s : Schedule}

theorem exists_window_of_mem_namedDates {r : Rule} (hr : r ∈ s.rules) {x : Date}
    (hx : x ∈ r.namedDates s.context) : ∃ window ∈ s.window?, window.1 ≤ x ∧ x ≤ window.2 := by
  have hmem : x ∈ s.rules.flatMap (·.namedDates s.context) := List.mem_flatMap.mpr ⟨r, hr, hx⟩
  unfold window?
  cases hmin : (s.rules.flatMap (·.namedDates s.context)).min? with
  | none => simp [List.min?_eq_none_iff.mp hmin] at hmem
  | some first =>
    cases hmax : (s.rules.flatMap (·.namedDates s.context)).max? with
    | none => simp [List.max?_eq_none_iff.mp hmax] at hmem
    | some last =>
      exact ⟨(first, last), by simp [hmin, hmax], (List.min?_eq_some_iff.mp hmin).2 x hmem,
        (List.max?_eq_some_iff.mp hmax).2 x hmem⟩

theorem agree_of_periodOf {rules : List Rule} {d e : Date} (h : (periodOf rules).Alike d e) :
    ∀ r ∈ rules, r.kinds.Agree d e := by
  intro r hr
  unfold periodOf at h
  rw [if_neg (by simpa using List.ne_nil_of_mem hr)] at h
  exact SelectorKinds.agree_of_mem h.agree _ (List.mem_map_of_mem hr)

/-- Two dates on one side of all named ones, and alike for the rules that are alive, are covered by
the same rules if the others cover neither. -/
theorem covers_congr_of_alive (h : s.WellFormed) {alive : Rule → Bool} {d e : Date}
    (side : ∀ r ∈ s.rules, SameSide (r.namedDates s.context) d e)
    (alike : (periodOf (s.rules.filter alive)).Alike d e)
    (dead : ∀ r ∈ s.rules, r.covers s.context d = true ∨ r.covers s.context e = true →
      alive r = true) :
    ∀ r ∈ s.rules, r.covers s.context d = r.covers s.context e := by
  intro r hr
  cases halive : alive r with
  | true =>
    exact Rule.covers_congr (h r hr) (side r hr)
      (agree_of_periodOf alike r (List.mem_filter.mpr ⟨hr, halive⟩))
  | false =>
    have hdead := fun hcovers => Bool.eq_false_iff.mp halive (dead r hr hcovers)
    rw [Bool.eq_false_iff.mpr fun hd => hdead (.inl hd),
      Bool.eq_false_iff.mpr fun he => hdead (.inr he)]

theorem covers_congr_after (h : s.WellFormed) {base d e : Date}
    (hwindow : ∀ window ∈ s.window?, window.2 < base) (hd : base ≤ d) (he : base ≤ e)
    (alike : (s.periodAfter base).Alike d e) :
    ∀ r ∈ s.rules, r.covers s.context d = r.covers s.context e := by
  refine covers_congr_of_alive h (fun r hr => .inl fun x hx => ?_) alike fun r hr => ?_
  · obtain ⟨window, hmem, -, hle⟩ := exists_window_of_mem_namedDates hr hx
    have hlt := Int.lt_of_le_of_lt hle (hwindow window hmem)
    exact ⟨Int.lt_of_lt_of_le hlt hd, Int.lt_of_lt_of_le hlt he⟩
  · rintro (hcovers | hcovers)
    · exact (Rule.reach_contains (h r hr) hcovers).lastsTo hd
    · exact (Rule.reach_contains (h r hr) hcovers).lastsTo he

theorem covers_congr_before (h : s.WellFormed) {base d e : Date}
    (hwindow : ∀ window ∈ s.window?, base < window.1) (hd : d ≤ base) (he : e ≤ base)
    (alike : (s.periodBefore base).Alike d e) :
    ∀ r ∈ s.rules, r.covers s.context d = r.covers s.context e := by
  refine covers_congr_of_alive h (fun r hr => .inr fun x hx => ?_) alike fun r hr => ?_
  · obtain ⟨window, hmem, hle, -⟩ := exists_window_of_mem_namedDates hr hx
    have hlt := Int.lt_of_lt_of_le (hwindow window hmem) hle
    exact ⟨Int.lt_of_le_of_lt hd hlt, Int.lt_of_le_of_lt he hlt⟩
  · rintro (hcovers | hcovers)
    · exact (Rule.reach_contains (h r hr) hcovers).startsBy hd
    · exact (Rule.reach_contains (h r hr) hcovers).startsBy he

theorem layer_congr {d e : Date} (h : ∀ r ∈ s.rules, r.covers s.context d = r.covers s.context e) :
    s.layer d = s.layer e := by
  have hfilter : s.rules.filter (·.covers s.context d) = s.rules.filter (·.covers s.context e) :=
    List.filter_congr h
  rw [layer_eq, layer_eq, blocksOn, blocksOn, Rule.inForce, Rule.inForce, hfilter]

end Schedule

end OpeningTimes
