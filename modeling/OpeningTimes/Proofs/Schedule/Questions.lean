import OpeningTimes.Expression.Parse
import OpeningTimes.Proofs.Schedule.Recall

/-!
# Many questions to one memory

One memory serves any number of questions about a schedule, in any order. Each of them is answered
as if it were the first, and the memory that it leaves holds a few layers, of different dates and as
the rules build them.
-/

namespace OpeningTimes

/-- What can be asked of the layers of a schedule. -/
inductive Question where
  | day (d : Date)
  | stretches (d : Date)
  | status (t : Instant)
  | changeAfter (t : Instant) (status : Status) (last : Date)
  | changeBefore (t : Instant) (status : Status) (first : Date)

def Question.Answer : Question → Type
  | .day _ => List Block
  | .stretches _ => List Stretch
  | .status _ => Status
  | .changeAfter .. => Option Instant
  | .changeBefore .. => Option Instant

/-- A question with its answer and the memory that it leaves. -/
structure Reply where
  question : Question
  answer : question.Answer
  memory : Memory

namespace Schedule

variable (s : Schedule)

def answer : (q : Question) → q.Answer
  | .day d => s.day d
  | .stretches d => s.stretches d
  | .status t => s.status t
  | .changeAfter t status last => s.changeAfter t status last
  | .changeBefore t status first => s.changeBefore t status first

def recallAnswer : (q : Question) → StateM Memory q.Answer
  | .day d => s.recallDay d
  | .stretches d => s.recallStretches d
  | .status t => s.recallStatus t
  | .changeAfter t status last => s.recallChangeAfter t status last
  | .changeBefore t status first => s.recallChangeBefore t status first

/-- The replies to one question after another. Each finds the memory that the one before
has left. -/
def replies : Memory → List Question → List Reply
  | _, [] => []
  | m, q :: qs =>
    let (answer, left) := (s.recallAnswer q).run m
    ⟨q, answer, left⟩ :: replies left qs

theorem recalls_answer (q : Question) : Recalls s (s.recallAnswer q) (s.answer q) := by
  cases q with
  | day d => exact recalls_day s d
  | stretches d => exact recalls_stretches s d
  | status t => exact recalls_status s t
  | changeAfter t status last => exact recalls_changeAfter s t status last
  | changeBefore t status first => exact recalls_changeBefore s t status first

theorem map_question_replies (m : Memory) (qs : List Question) :
    (s.replies m qs).map (·.question) = qs := by
  induction qs generalizing m with
  | nil => rfl
  | cons q qs ih => exact congrArg (q :: ·) (ih _)

/-- A sound memory stays sound from one question to the next, and so all answers are right. -/
theorem replies_sound {m : Memory} (h : m.Sound s) (qs : List Question) :
    ∀ r ∈ s.replies m qs, r.answer = s.answer r.question ∧ r.memory.Sound s := by
  induction qs generalizing m with
  | nil => simp [replies]
  | cons q qs ih =>
    obtain ⟨hanswer, hleft⟩ := recalls_answer s q m h
    exact List.forall_mem_cons.mpr ⟨⟨hanswer, hleft⟩, ih hleft⟩

/-- However many questions a memory has served, the next one is answered as it would be with an
empty one, and of the layers that are kept then there are at most three, of different dates, each
the one that the rules build for its date. -/
theorem replies_as_with_empty_memory (asked : List Question) :
    (s.replies {} asked).map (·.question) = asked ∧
      ∀ r ∈ s.replies {} asked,
        r.answer = ((s.recallAnswer r.question).run {}).1 ∧ r.memory.recent.length ≤ 3 ∧
          (r.memory.recent.map Prod.fst).Nodup ∧
          ∀ entry ∈ r.memory.recent, entry.2 = s.layer entry.1 := by
  refine ⟨map_question_replies s {} asked, fun r hr => ?_⟩
  obtain ⟨hanswer, hsound⟩ := replies_sound s (Memory.sound_empty s 0) asked r hr
  have hempty := (recalls_answer s r.question).run_empty
  exact ⟨hanswer.trans hempty.symm, hsound.few, hsound.distinct, hsound.agrees⟩

/-- A search from Monday evening to the next one forgets Monday, which is built again when the
search goes back. -/
theorem replies_as_with_empty_memory_there_and_back :
    ∃ rules, Rule.ofText "Mo 22:00-23:00" = .ok rules ∧
      let s : Schedule := ⟨rules, {}⟩
      let monday : Date := ⟨739384, by decide, by decide⟩
      let next : Date := ⟨739391, by decide, by decide⟩
      let asked : List Question := [.day monday, .changeAfter (.atMinute monday 1380) .closed next,
        .changeBefore (.atMinute next 720) .closed monday]
      (s.replies {} asked).map (fun r => r.memory.recent.map (·.1.number)) =
          [[739384, 739383], [739391, 739390, 739389], [739383, 739384, 739385]] ∧
        ∀ r ∈ s.replies {} asked,
          r.answer = ((s.recallAnswer r.question).run {}).1 ∧ r.memory.recent.length ≤ 3 ∧
            (r.memory.recent.map Prod.fst).Nodup ∧
            ∀ entry ∈ r.memory.recent, entry.2 = s.layer entry.1 := by
  have parsed : Rule.ofText "Mo 22:00-23:00" = .ok
      [⟨[], [], [], { weekdays := .ofDay .monday }, [⟨.fixed 1320, some (.fixed 1380), false⟩],
        .opened, none, .replace⟩] := rfl
  exact ⟨_, parsed, by decide +kernel, (replies_as_with_empty_memory _ _).2⟩

end Schedule

end OpeningTimes
