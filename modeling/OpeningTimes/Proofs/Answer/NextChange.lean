import OpeningTimes.Proofs.Recurrence.Representative
import OpeningTimes.Proofs.Schedule.FirstChange
import OpeningTimes.Proofs.Schedule.Recall

/-!
# The next change is the first one

A change that the search gives is the first one after the instant. A search that gives up has seen
the status last through all the years that the context allows. One that proves that there is no
change has seen a day for every later one, and so the status lasts for all time.
-/

namespace OpeningTimes

namespace Schedule

variable {s : Schedule}

-- ---------------------------------------------------------------------------
-- Where a search ends
-- ---------------------------------------------------------------------------

theorem limits_last_of_proven {d : Date} (h : (s.limits d).proven = true) :
    s.proofEnd? d = some (s.limits d).last := by
  unfold limits at h ⊢
  cases hproof : s.proofEnd? d with
  | none => simp [hproof] at h
  | some stop =>
    simp only [hproof] at h ⊢
    split at h
    · rw [if_pos ‹_›]
    · simp at h

theorem limits_last_of_not_proven {d : Date} (h : (s.limits d).proven = false) :
    (s.limits d).last = d.yearsLater s.context.yearLimit := by
  unfold limits at h ⊢
  cases hproof : s.proofEnd? d with
  | none => rfl
  | some stop =>
    simp only [hproof] at h ⊢
    split at h
    · simp at h
    · rw [if_neg ‹_›]

-- ---------------------------------------------------------------------------
-- The answers
-- ---------------------------------------------------------------------------

theorem upcomingChange_eq_some_iff {t change : Instant} :
    s.upcomingChange t = .ok (some change) ↔
      s.changeAfter t (s.status t) (s.limits t.date).last = some change := by
  rw [upcomingChange_eq]
  cases s.changeAfter t (s.status t) (s.limits t.date).last with
  | some c => simp
  | none => cases (s.limits t.date).proven <;> simp

theorem upcomingChange_eq_none_iff {t : Instant} :
    s.upcomingChange t = .ok none ↔ (s.limits t.date).proven = true ∧
      s.changeAfter t (s.status t) (s.limits t.date).last = none := by
  rw [upcomingChange_eq]
  cases s.changeAfter t (s.status t) (s.limits t.date).last with
  | some c => simp
  | none => cases (s.limits t.date).proven <;> simp

theorem upcomingChange_eq_error_iff {t : Instant} {undecided : Undecided} :
    s.upcomingChange t = .error undecided ↔ (s.limits t.date).proven = false ∧
      s.changeAfter t (s.status t) (s.limits t.date).last = none ∧
      undecided = ⟨t, s.context.yearLimit⟩ := by
  rw [upcomingChange_eq]
  cases s.changeAfter t (s.status t) (s.limits t.date).last with
  | some c => simp
  | none => cases (s.limits t.date).proven <;> simp [eq_comm]

/-- A change that is found is the first one, and where the search gives up there is none through the
last day that the context lets it look at. -/
theorem upcomingChange_is_first {raw : String} {rules : List Rule} (h : Rule.ofText raw = .ok rules)
    (c : Context) (t : Instant) :
    let s : Schedule := ⟨rules, c⟩
    (∀ change, s.upcomingChange t = .ok (some change) → s.FirstChange t change) ∧
      ∀ undecided, s.upcomingChange t = .error undecided →
        s.KeepsThrough t (t.date.yearsLater c.yearLimit) := by
  intro s
  have wellFormed : s.WellFormed := Rule.wellFormed_of_ofText h
  constructor
  · intro change hchange
    exact (changeAfter_eq_some wellFormed (upcomingChange_eq_some_iff.mp hchange)).1
  · intro undecided hundecided
    obtain ⟨hproven, hnone, -⟩ := upcomingChange_eq_error_iff.mp hundecided
    have keeps := changeAfter_eq_none wellFormed hnone
    rw [limits_last_of_not_proven hproven] at keeps
    exact keeps

/-- From the leap second before opening on a Monday, and from the morning after with no year to
search. -/
theorem upcomingChange_is_first_monday :
    ∃ rules, Rule.ofText "Mo 22:00-02:00" = .ok rules ∧
      let s : Schedule := ⟨rules, {}⟩
      let monday : Date := ⟨739384, by decide, by decide⟩
      let t : Instant := ⟨monday, ⟨79199, 1500000000, by decide, by decide⟩⟩
      s.upcomingChange t = .ok (some (.atMinute t.date 1320)) ∧
      s.FirstChange t (.atMinute t.date 1320) ∧
      let s : Schedule := ⟨rules, { yearLimit := 0 }⟩
      let t : Instant := .atMinute ⟨739385, by decide, by decide⟩ 120
      s.upcomingChange t = .error ⟨t, 0⟩ ∧ s.KeepsThrough t (t.date.yearsLater 0) := by
  have parsed : Rule.ofText "Mo 22:00-02:00" = .ok
      [⟨[], [], [], { weekdays := .ofDay .monday }, [⟨.fixed 1320, some (.fixed 120), false⟩],
        .opened, none, .replace⟩] := rfl
  refine ⟨_, parsed, ?_⟩
  intro s monday t
  have found : s.upcomingChange t = .ok (some (.atMinute t.date 1320)) := by decide +kernel
  refine ⟨found, (upcomingChange_is_first parsed {} t).1 _ found, ?_⟩
  intro s t
  have gaveUp : s.upcomingChange t = .error ⟨t, 0⟩ := by decide +kernel
  exact ⟨gaveUp, (upcomingChange_is_first parsed { yearLimit := 0 } t).2 _ gaveUp⟩

/-- When the search says that there is no change, all later instants have the status of this one. -/
theorem upcomingChange_none_is_final {raw : String} {rules : List Rule}
    (h : Rule.ofText raw = .ok rules) (c : Context) (t : Instant) :
    let s : Schedule := ⟨rules, c⟩
    s.upcomingChange t = .ok none → ∀ u, t ≤ u → s.status u = s.status t := by
  intro s hnone u htu
  have wellFormed : s.WellFormed := Rule.wellFormed_of_ofText h
  obtain ⟨hproven, hsearch⟩ := upcomingChange_eq_none_iff.mp hnone
  have keeps := changeAfter_eq_none wellFormed hsearch
  rcases Classical.em (u.date ≤ (s.limits t.date).last) with hseen | hlater
  · exact keeps u htu hseen
  · obtain ⟨e, hte, hle, hday⟩ := exists_same_day_after wellFormed (limits_last_of_proven hproven)
      (Date.not_le.mp hlater)
    calc s.status u = s.status ⟨e, u.time⟩ := by rw [status, status, hday]
      _ = s.status t := keeps ⟨e, u.time⟩ (Instant.le_iff_lex.mpr (.inl hte)) hle

/-- From noon of the last Monday of the only year that is named. -/
theorem upcomingChange_none_is_final_2024 :
    ∃ rules, Rule.ofText "2024 Mo 10:00-12:00" = .ok rules ∧
      let s : Schedule := ⟨rules, {}⟩
      let t : Instant := .atMinute ⟨739615, by decide, by decide⟩ 720
      s.upcomingChange t = .ok none ∧ ∀ u, t ≤ u → s.status u = s.status t := by
  have parsed : Rule.ofText "2024 Mo 10:00-12:00" = .ok
      [⟨[⟨2024, some 2024, 1⟩], [], [], { weekdays := .ofDay .monday },
        [⟨.fixed 600, some (.fixed 720), false⟩], .opened, none, .replace⟩] := rfl
  refine ⟨_, parsed, ?_⟩
  intro s t
  have found : s.upcomingChange t = .ok none := by decide +kernel
  exact ⟨found, upcomingChange_none_is_final parsed {} t found⟩

end Schedule

end OpeningTimes
