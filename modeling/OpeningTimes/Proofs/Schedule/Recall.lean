import OpeningTimes.Answer.Change
import OpeningTimes.Answer.Extent

/-!
# Recalling changes no answer

Whatever the layers kept so far, a computation that recalls layers returns what the schedule itself
says, and it leaves a memory that is as sound as the one it has found.
-/

namespace OpeningTimes

/-- The layers kept are those of different dates, few, and right. -/
structure Memory.Sound (m : Memory) (s : Schedule) : Prop where
  agrees : m.Agrees s
  few : m.recent.length ≤ Memory.capacity
  distinct : (m.recent.map Prod.fst).Nodup

theorem Memory.sound_empty (s : Schedule) (built : Nat) : Sound ⟨[], built⟩ s :=
  ⟨fun _ h => absurd h List.not_mem_nil, Nat.zero_le _, .nil⟩

theorem Memory.run_bind (p : StateM Memory α) (next : α → StateM Memory β) (m : Memory) :
    (p >>= next).run m = (next (p.run m).1).run (p.run m).2 := rfl

/-- With any sound memory the computation returns the value, and it leaves a sound memory. -/
def Recalls (s : Schedule) (p : StateM Memory α) (value : α) : Prop :=
  ∀ m : Memory, m.Sound s → (p.run m).1 = value ∧ (p.run m).2.Sound s

namespace Recalls

variable {s : Schedule}

theorem pure (value : α) : Recalls s (Pure.pure value) value := fun _ h => ⟨rfl, h⟩

theorem bind {p : StateM Memory α} {next : α → StateM Memory β} {value : α} {result : β}
    (hp : Recalls s p value) (hnext : Recalls s (next value) result) :
    Recalls s (p >>= next) result := by
  intro m h
  obtain ⟨hvalue, hm⟩ := hp m h
  rw [Memory.run_bind, hvalue]
  exact hnext _ hm

theorem run_empty {p : StateM Memory α} {value : α} (hp : Recalls s p value) :
    (p.run {}).1 = value :=
  (hp {} (Memory.sound_empty s 0)).1

end Recalls

namespace Schedule

variable (s : Schedule)

theorem recalls_layer (d : Date) : Recalls s (s.recallLayer d) (s.layer d) := by
  intro m h
  simp only [recallLayer, StateT.run]
  cases hkept : m.recent.lookup d with
  | some layer =>
    obtain ⟨before, after, hrecent, -⟩ := List.lookup_eq_some_iff.mp hkept
    exact ⟨h.agrees (d, layer) (by simp [hrecent]), h⟩
  | none =>
    have hnew : ∀ entry ∈ m.recent, entry.1 ≠ d := fun entry hentry heq => by
      simpa [heq] using List.lookup_eq_none_iff.mp hkept entry hentry
    refine ⟨rfl, fun entry hentry => ?_, List.length_take_le .., ?_⟩
    · rcases List.mem_cons.mp (List.mem_of_mem_take hentry) with rfl | hentry
      · rfl
      · exact h.agrees entry hentry
    · simp only [List.map_take, List.map_cons]
      refine List.Nodup.sublist (List.take_sublist ..)
        (List.nodup_cons.mpr ⟨fun hd => ?_, h.distinct⟩)
      obtain ⟨entry, hentry, heq⟩ := List.mem_map.mp hd
      exact hnew entry hentry heq

theorem recalls_layerBefore (d : Date) : Recalls s (s.recallLayerBefore d) (s.layerBefore d) := by
  unfold recallLayerBefore layerBefore
  cases d.pred? with
  | none => exact .pure _
  | some previous => exact recalls_layer s previous

theorem recalls_day (d : Date) : Recalls s (s.recallDay d) (s.day d) :=
  (recalls_layerBefore s d).bind ((recalls_layer s d).bind (.pure _))

theorem recalls_stretches (d : Date) : Recalls s (s.recallStretches d) (s.stretches d) :=
  (recalls_day s d).bind (.pure _)

theorem recalls_status (t : Instant) : Recalls s (s.recallStatus t) (s.status t) :=
  (recalls_day s t.date).bind (.pure _)

theorem recalls_changeFrom (t : Instant) (status : Status) (days : Nat) (d : Date) :
    Recalls s (s.recallChangeFrom t status days d) (s.changeFrom t status days d) := by
  induction days generalizing d with
  | zero => exact .pure _
  | succ days ih =>
    refine (recalls_stretches s d).bind ?_
    simp only [changeFrom]
    cases firstOther? t status (s.stretches d) with
    | some r => exact .pure _
    | none =>
      cases d.succ? with
      | some next => exact ih next
      | none => exact .pure _

theorem recalls_changeAfter (t : Instant) (status : Status) (last : Date) :
    Recalls s (s.recallChangeAfter t status last) (s.changeAfter t status last) :=
  recalls_changeFrom s t status _ _

theorem recalls_changeDownFrom (t : Instant) (status : Status) (days : Nat) (d : Date) :
    Recalls s (s.recallChangeDownFrom t status days d) (s.changeDownFrom t status days d) := by
  induction days generalizing d with
  | zero => exact .pure _
  | succ days ih =>
    refine (recalls_stretches s d).bind ?_
    simp only [changeDownFrom]
    cases lastOther? t status (s.stretches d) with
    | some r => exact .pure _
    | none =>
      cases d.pred? with
      | some previous => exact ih previous
      | none => exact .pure _

theorem recalls_changeBefore (t : Instant) (status : Status) (first : Date) :
    Recalls s (s.recallChangeBefore t status first) (s.changeBefore t status first) :=
  recalls_changeDownFrom s t status _ _

theorem upcomingChange_eq (t : Instant) :
    s.upcomingChange t = match s.changeAfter t (s.status t) (s.limits t.date).last with
      | some change => .ok (some change)
      | none => if (s.limits t.date).proven then .ok none else .error ⟨t, s.context.yearLimit⟩ := by
  refine Recalls.run_empty (s := s) (p := s.recallUpcomingChange t) ?_
  refine (recalls_status s t).bind ((recalls_changeAfter s t _ _).bind ?_)
  cases s.changeAfter t (s.status t) (s.limits t.date).last with
  | some change => exact .pure _
  | none => cases (s.limits t.date).proven <;> exact .pure _

theorem extentAt_eq (t : Instant) :
    s.extentAt t = if (s.status t).state = .closed then none
      else some ⟨s.changeBefore t (s.status t) (s.limits t.date).first,
        s.changeAfter t (s.status t) (s.limits t.date).last, s.status t⟩ := by
  refine Recalls.run_empty (s := s) (p := s.recallExtentAt t) ?_
  refine (recalls_status s t).bind ?_
  split
  · exact .pure _
  · exact (recalls_changeBefore s t _ _).bind ((recalls_changeAfter s t _ _).bind (.pure _))

end Schedule

end OpeningTimes
