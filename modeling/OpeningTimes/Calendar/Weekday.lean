/-!
# Days of the week

Weekdays are counted from Monday. Day 0 of the calendar, 1 January of the year 0, is a Saturday.
-/

namespace OpeningTimes

inductive Weekday where
  | monday | tuesday | wednesday | thursday | friday | saturday | sunday
deriving BEq, ReflBEq, LawfulBEq, DecidableEq, Repr

namespace Weekday

def all : List Weekday :=
  [monday, tuesday, wednesday, thursday, friday, saturday, sunday]

def index : Weekday → Nat
  | monday => 0
  | tuesday => 1
  | wednesday => 2
  | thursday => 3
  | friday => 4
  | saturday => 5
  | sunday => 6

def ofIndex : Nat → Weekday
  | 0 => monday
  | 1 => tuesday
  | 2 => wednesday
  | 3 => thursday
  | 4 => friday
  | 5 => saturday
  | _ => sunday

theorem ofIndex_index (w : Weekday) : ofIndex w.index = w := by
  cases w <;> rfl

theorem index_lt (w : Weekday) : w.index < 7 := by
  cases w <;> decide

theorem index_ofIndex (i : Nat) (h : i < 7) : (ofIndex i).index = i := by
  have : i = 0 ∨ i = 1 ∨ i = 2 ∨ i = 3 ∨ i = 4 ∨ i = 5 ∨ i = 6 := by omega
  rcases this with rfl | rfl | rfl | rfl | rfl | rfl | rfl <;> rfl

/-- Days from the first weekday on to the second, at most six. -/
def distance (start stop : Weekday) : Nat :=
  (stop.index + 7 - start.index) % 7

/-- Days since Monday. -/
def indexOfDay (day : Int) : Nat :=
  ((day + 5) % 7).toNat

def ofDay (day : Int) : Weekday :=
  ofIndex (indexOfDay day)

theorem indexOfDay_lt (day : Int) : indexOfDay day < 7 := by
  unfold indexOfDay; omega

theorem ofDay_add_week (day : Int) : ofDay (day + 7) = ofDay day := by
  unfold ofDay indexOfDay
  congr 2
  omega

def abbreviation : Weekday → String
  | monday => "Mon"
  | tuesday => "Tue"
  | wednesday => "Wed"
  | thursday => "Thu"
  | friday => "Fri"
  | saturday => "Sat"
  | sunday => "Sun"

end Weekday

end OpeningTimes
