import OpeningTimes.Expression.Context

/-!
# Weekdays and holidays

A day selector names weekdays, weekdays with their occurrence in the month, and kinds of holidays.
One that names nothing selects every day.
-/

namespace OpeningTimes

/-- A set of weekdays, the lowest bit being Monday. -/
structure Weekdays where
  bits : BitVec 7
deriving BEq, ReflBEq, LawfulBEq, DecidableEq, Repr

namespace Weekdays

instance : EmptyCollection Weekdays := ⟨⟨0⟩⟩
instance : Union Weekdays := ⟨fun a b => ⟨a.bits ||| b.bits⟩⟩

def full : Weekdays := ⟨127⟩

def contains (s : Weekdays) (w : Weekday) : Bool := s.bits.getLsbD w.index

def isEmpty (s : Weekdays) : Bool := s.bits == 0

def ofDay (w : Weekday) : Weekdays := ⟨1 <<< w.index⟩

/-- From one weekday on to another, over the end of the week if need be. -/
def range (start stop : Weekday) : Weekdays :=
  (Weekday.all.filter fun w => Weekday.distance start w ≤ Weekday.distance start stop).foldl
    (fun s w => s ∪ ofDay w) ∅

theorem contains_ofDay (v w : Weekday) : (ofDay v).contains w = (v == w) := by
  cases v <;> cases w <;> rfl

theorem contains_union (a b : Weekdays) (w : Weekday) :
    (a ∪ b).contains w = (a.contains w || b.contains w) := by
  show (a.bits ||| b.bits).getLsbD _ = _
  simp [contains]

theorem contains_range (start stop w : Weekday) :
    (range start stop).contains w =
      decide (Weekday.distance start w ≤ Weekday.distance start stop) := by
  cases start <;> cases stop <;> cases w <;> decide

end Weekdays

/-- Occurrences of a weekday in a month: the lower five bits count from its start, the upper five
from its end. -/
structure Occurrences where
  bits : BitVec 10
deriving BEq, DecidableEq, Repr

namespace Occurrences

instance : EmptyCollection Occurrences := ⟨⟨0⟩⟩
instance : Union Occurrences := ⟨fun a b => ⟨a.bits ||| b.bits⟩⟩

/-- 1 is the first occurrence and -1 the last. -/
def ofNumber? (n : Int) : Option Occurrences :=
  if 1 ≤ n ∧ n ≤ 5 then some ⟨1 <<< (n - 1).toNat⟩
  else if -5 ≤ n ∧ n ≤ -1 then some ⟨1 <<< (4 - n).toNat⟩
  else none

def ofNumber (n : Int) : Occurrences := (ofNumber? n).getD ∅

/-- All occurrences from one on to another, counted from the start. -/
def range (first last : Nat) : Occurrences :=
  (List.range' first (last + 1 - first)).foldl (fun s (n : Nat) => s ∪ ofNumber n) ∅

def covers (s : Occurrences) (d : Date) : Bool :=
  s.bits.getLsbD (d.occurrence - 1) || s.bits.getLsbD (d.occurrenceFromEnd + 4)

theorem covers_union (a b : Occurrences) (d : Date) :
    (a ∪ b).covers d = (a.covers d || b.covers d) := by
  show Occurrences.covers ⟨a.bits ||| b.bits⟩ d = _
  simp only [covers, BitVec.getLsbD_or]
  cases a.bits.getLsbD (d.occurrence - 1) <;> cases b.bits.getLsbD (d.occurrence - 1) <;> simp

end Occurrences

/-- Whether a day has to be one of the weekdays or one of the holidays, or both at once. -/
inductive DayJoin where
  | either | both
deriving BEq, DecidableEq, Repr

structure DaySelector where
  weekdays : Weekdays := ∅
  occurrences : List (Weekday × Occurrences) := []
  holidays : List Holiday := []
  join : DayJoin := .either
deriving BEq, DecidableEq, Repr

namespace DaySelector

def namesWeekday (s : DaySelector) : Bool :=
  !s.weekdays.isEmpty || !s.occurrences.isEmpty

def isEmpty (s : DaySelector) : Bool :=
  !s.namesWeekday && s.holidays.isEmpty

def coversWeekday (s : DaySelector) (d : Date) : Bool :=
  s.weekdays.contains d.weekday ||
    s.occurrences.any fun (w, o) => w == d.weekday && o.covers d

def coversHoliday (s : DaySelector) (c : Context) (d : Date) : Bool :=
  s.holidays.any fun kind => (c.holidays kind).contains d

def covers (s : DaySelector) (c : Context) (d : Date) : Bool :=
  match s.namesWeekday, s.holidays.isEmpty with
  | false, true => true
  | true, true => s.coversWeekday d
  | false, false => s.coversHoliday c d
  | true, false =>
    match s.join with
    | .either => s.coversWeekday d || s.coversHoliday c d
    | .both => s.coversWeekday d && s.coversHoliday c d

end DaySelector

end OpeningTimes
