import OpeningTimes.Calendar.Date

/-!
# Times of day and instants

A time of day is a second and a nanosecond. Nanoseconds from one thousand million on belong to a
leap second, which comes after the second; on a clock it is second 60, and so it ends a minute. An
instant is a local date with a time of day; instants are ordered by date, second and nanosecond, and
arithmetic on them stops at the ends of the calendar.
-/

namespace OpeningTimes

structure TimeOfDay where
  second : Nat
  nanosecond : Nat
  second_lt : second < 86400 := by omega
  nanosecond_lt : nanosecond < 2000000000 := by omega
deriving DecidableEq, Repr

namespace TimeOfDay

def midnight : TimeOfDay := ⟨0, 0, by decide, by decide⟩

def ofMinute (minute : Nat) (h : minute < 1440) : TimeOfDay :=
  { second := minute * 60, nanosecond := 0 }

/-- Second 60 is the leap second after second 59. -/
def ofClock? (hour minute second nanosecond : Nat) : Option TimeOfDay :=
  if h : hour < 24 ∧ minute < 60 ∧ nanosecond < 1000000000 then
    if hs : second < 60 then
      some { second := hour * 3600 + minute * 60 + second, nanosecond }
    else if hs : second = 60 then
      some { second := hour * 3600 + minute * 60 + 59, nanosecond := 1000000000 + nanosecond }
    else none
  else none

def hour (t : TimeOfDay) : Nat := t.second / 3600

def minute (t : TimeOfDay) : Nat := t.second / 60 % 60

def isLeap (t : TimeOfDay) : Bool := 1000000000 ≤ t.nanosecond

/-- Second of the minute as a clock shows it, 60 for a leap second. -/
def clockSecond (t : TimeOfDay) : Nat := t.second % 60 + t.nanosecond / 1000000000

def fraction (t : TimeOfDay) : Nat := t.nanosecond % 1000000000

/-- A second earlier it is the day before. A leap second is already a second later. -/
def InFirstSecond (t : TimeOfDay) : Prop := t.second = 0 ∧ t.nanosecond < 1000000000

instance (t : TimeOfDay) : Decidable t.InFirstSecond := inferInstanceAs (Decidable (_ ∧ _))

/-- A clock shows leap seconds at the end of a minute alone. -/
def IsClockTime (t : TimeOfDay) : Prop := 1000000000 ≤ t.nanosecond → t.second % 60 = 59

def minuteOfDay (t : TimeOfDay) : Fin 1440 := ⟨t.second / 60, by have := t.second_lt; omega⟩

theorem eq_iff {a b : TimeOfDay} : a = b ↔ a.second = b.second ∧ a.nanosecond = b.nanosecond := by
  cases a; cases b; simp

theorem ofClock?_clock {t : TimeOfDay} (h : t.IsClockTime) :
    ofClock? t.hour t.minute t.clockSecond t.fraction = some t := by
  have hs := t.second_lt
  have hn := t.nanosecond_lt
  have valid : t.hour < 24 ∧ t.minute < 60 ∧ t.fraction < 1000000000 := by
    unfold hour minute fraction; omega
  unfold ofClock?
  rw [dif_pos valid]
  unfold hour minute clockSecond fraction
  by_cases hleap : 1000000000 ≤ t.nanosecond
  · have := h hleap
    rw [dif_neg (by omega), dif_pos (by omega)]
    simp only [Option.some.injEq, eq_iff]
    omega
  · rw [dif_pos (by omega)]
    simp only [Option.some.injEq, eq_iff]
    omega

end TimeOfDay

structure Instant where
  date : Date
  time : TimeOfDay
deriving DecidableEq, Repr

namespace Instant

/-- Position in the order of instants. -/
def key (t : Instant) : Int :=
  (t.date.number * 86400 + t.time.second) * 2000000000 + t.time.nanosecond

instance : LE Instant := ⟨fun a b => a.key ≤ b.key⟩
instance : LT Instant := ⟨fun a b => a.key < b.key⟩
instance (a b : Instant) : Decidable (a ≤ b) := inferInstanceAs (Decidable (a.key ≤ b.key))
instance (a b : Instant) : Decidable (a < b) := inferInstanceAs (Decidable (a.key < b.key))
instance : Min Instant := minOfLe
instance : Max Instant := maxOfLe

theorem le_iff {a b : Instant} : a ≤ b ↔ a.key ≤ b.key := Iff.rfl

theorem lt_iff {a b : Instant} : a < b ↔ a.key < b.key := Iff.rfl

theorem key_inj {a b : Instant} : a.key = b.key ↔ a = b := by
  constructor
  · obtain ⟨⟨d, _, _⟩, ⟨s, n, _, _⟩⟩ := a
    obtain ⟨⟨d', _, _⟩, ⟨s', n', _, _⟩⟩ := b
    simp only [key, Instant.mk.injEq, Date.mk.injEq, TimeOfDay.mk.injEq]
    omega
  · rintro rfl; rfl

def first : Instant := ⟨Date.first, TimeOfDay.midnight⟩

def last : Instant := ⟨Date.last, { second := 86399, nanosecond := 999999999 }⟩

def midnight (d : Date) : Instant := ⟨d, TimeOfDay.midnight⟩

/-- The given minute of the day, which may lie on a later day, or else the last instant. -/
def atMinute (d : Date) (minute : Nat) : Instant :=
  match d.shift? (minute / 1440 : Nat) with
  | some date => ⟨date, TimeOfDay.ofMinute (minute % 1440) (Nat.mod_lt _ (by decide))⟩
  | none => last

/-- Midnight some days away, or else the end of the calendar on that side. -/
def midnightAfter (d : Date) (days : Int) : Instant :=
  match d.shift? days with
  | some date => midnight date
  | none => if days < 0 then first else last

def dateOfSecondBefore? (t : Instant) : Option Date :=
  if t.time.InFirstSecond then t.date.pred? else some t.date

/-- The date one second before; the first date where there is none. -/
def dateOfSecondBefore (t : Instant) : Date :=
  if t.time.InFirstSecond then t.date.pred?.getD t.date else t.date

/-- Nanoseconds between two instants. A leap second that lies between them counts. -/
def nanosecondsSince (stop start : Instant) : Int :=
  let days := stop.date.number - start.date.number
  let seconds : Int := stop.time.second - start.time.second
  let leap : Int :=
    if start.time.second < stop.time.second && start.time.isLeap then 1
    else if stop.time.second < start.time.second && stop.time.isLeap then -1
    else 0
  (days * 86400 + seconds + leap) * 1000000000
    + (stop.time.nanosecond - start.time.nanosecond)

end Instant

end OpeningTimes
