import OpeningTimes.Calendar.DateSet
import OpeningTimes.Calendar.Instant
import OpeningTimes.Expression.Vocabulary

/-!
# What an expression depends on

The holidays and the times of the sun at a place, and how far to search for a change. Nothing is
computed from the place itself.
-/

namespace OpeningTimes

/-- Local times in minutes of the day. -/
structure SunTimes where
  dawn : Fin 1440
  sunrise : Fin 1440
  sunset : Fin 1440
  dusk : Fin 1440
deriving DecidableEq, Repr

namespace SunTimes

def usual : SunTimes :=
  { dawn := 330, sunrise := 360, sunset := 1080, dusk := 1110 }

instance : Inhabited SunTimes := ⟨usual⟩

def minute (s : SunTimes) : SunEvent → Fin 1440
  | .dawn => s.dawn
  | .sunrise => s.sunrise
  | .sunset => s.sunset
  | .dusk => s.dusk

/-- Seconds are dropped. -/
def set (s : SunTimes) (event : SunEvent) (time : TimeOfDay) : SunTimes :=
  match event with
  | .dawn => { s with dawn := time.minuteOfDay }
  | .sunrise => { s with sunrise := time.minuteOfDay }
  | .sunset => { s with sunset := time.minuteOfDay }
  | .dusk => { s with dusk := time.minuteOfDay }

theorem minute_set (s : SunTimes) (event other : SunEvent) (time : TimeOfDay) :
    (s.set event time).minute other =
      if other = event then time.minuteOfDay else s.minute other := by
  cases event <;> cases other <;> rfl

end SunTimes

structure Context where
  publicHolidays : DateSet := ∅
  schoolHolidays : DateSet := ∅
  solar : SunTimes := SunTimes.usual
  /-- Years that a search looks ahead or back before it gives up. -/
  yearLimit : Nat := 10
deriving DecidableEq

instance : Inhabited Context := ⟨{}⟩

def Context.holidays (c : Context) : Holiday → DateSet
  | .publicHoliday => c.publicHolidays
  | .schoolHoliday => c.schoolHolidays

end OpeningTimes
