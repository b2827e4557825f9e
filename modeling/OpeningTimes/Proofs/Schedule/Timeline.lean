import OpeningTimes.Proofs.Calendar.Dates
import OpeningTimes.Proofs.Schedule.DayMeaning

/-!
# The stretches of a day among the instants

A stretch starts at a full minute of its date and lasts until another one, or until midnight. At the
end of the calendar there is no such midnight, and the last stretch ends with the last instant. The
status of an instant is the one of the block that holds its minute.
-/

namespace OpeningTimes

-- ---------------------------------------------------------------------------
-- The order of instants
-- ---------------------------------------------------------------------------

namespace Instant

def minute (t : Instant) : Nat := t.time.second / 60

theorem minute_lt (t : Instant) : t.minute < 1440 := by
  have := t.time.second_lt
  unfold minute; omega

theorem lt_iff_lex {a b : Instant} :
    a < b ↔ a.date < b.date ∨ a.date = b.date ∧ (a.time.second < b.time.second ∨
      a.time.second = b.time.second ∧ a.time.nanosecond < b.time.nanosecond) := by
  have := a.time.second_lt
  have := a.time.nanosecond_lt
  have := b.time.second_lt
  have := b.time.nanosecond_lt
  rw [lt_iff, Date.lt_iff, Date.eq_iff, key, key]
  omega

theorem not_lt {a b : Instant} : ¬ a < b ↔ b ≤ a := Int.not_lt

theorem not_le {a b : Instant} : ¬ a ≤ b ↔ b < a := Int.not_le

theorem le_iff_lex {a b : Instant} :
    a ≤ b ↔ a.date < b.date ∨ a.date = b.date ∧ (a.time.second < b.time.second ∨
      a.time.second = b.time.second ∧ a.time.nanosecond ≤ b.time.nanosecond) := by
  have := a.time.second_lt
  have := a.time.nanosecond_lt
  have := b.time.second_lt
  have := b.time.nanosecond_lt
  rw [le_iff, Date.lt_iff, Date.eq_iff, key, key]
  omega

theorem date_le_of_le {a b : Instant} (h : a ≤ b) : a.date ≤ b.date := by
  rw [le_iff_lex, Date.lt_iff, Date.eq_iff] at h
  rw [Date.le_iff]
  omega

theorem midnight_le {d : Date} {t : Instant} (h : d ≤ t.date) : midnight d ≤ t := by
  rw [le_iff_lex]
  rcases Date.lt_or_eq_of_le h with hlt | heq
  · exact .inl hlt
  · refine .inr ⟨heq, ?_⟩
    simp only [midnight, TimeOfDay.midnight]
    omega

theorem key_min (a b : Instant) : (min a b).key = min a.key b.key := by
  have : min a b = if a ≤ b then a else b := rfl
  rw [this]
  split <;> rename_i h <;> rw [le_iff] at h <;> omega

theorem key_max (a b : Instant) : (max a b).key = max a.key b.key := by
  have : max a b = if a ≤ b then b else a := rfl
  rw [this]
  split <;> rename_i h <;> rw [le_iff] at h <;> omega

theorem le_of_lt {a b : Instant} (h : a < b) : a ≤ b := Int.le_of_lt h

theorem le_trans {a b c : Instant} (hab : a ≤ b) (hbc : b ≤ c) : a ≤ c :=
  Int.le_trans hab hbc

theorem lt_of_le_of_lt {a b c : Instant} (hab : a ≤ b) (hbc : b < c) : a < c :=
  Int.lt_of_le_of_lt hab hbc

-- ---------------------------------------------------------------------------
-- Full minutes
-- ---------------------------------------------------------------------------

theorem atMinute_of_lt (d : Date) {m : Nat} (h : m < 1440) :
    atMinute d m = ⟨d, TimeOfDay.ofMinute m h⟩ := by
  have hshift : d.shift? ((m / 1440 : Nat) : Int) = some d := by
    rw [Date.shift?_eq_some_iff]
    omega
  unfold atMinute
  rw [hshift]
  simp only [Instant.mk.injEq, true_and, TimeOfDay.eq_iff, TimeOfDay.ofMinute, and_true]
  omega

theorem atMinute_day (d : Date) : atMinute d 1440 = (d.succ?.map midnight).getD last := by
  unfold atMinute Date.succ?
  cases d.shift? 1 <;> rfl

/-- A full minute counts from the first one of the calendar on, and midnight after the last date
falls on the last instant. -/
theorem key_atMinute (d : Date) {m : Nat} (hm : m ≤ 1440) :
    (atMinute d m).key = min ((d.number * 1440 + m) * 120000000000) last.key := by
  have hdate := d.le_last
  have hlast : last.key = (95745764 * 86400 + 86399) * 2000000000 + 999999999 := rfl
  rcases Nat.lt_or_eq_of_le hm with hlt | rfl
  · rw [atMinute_of_lt d hlt, hlast]
    simp only [key, TimeOfDay.ofMinute]
    omega
  · rw [atMinute_day]
    cases hsucc : d.succ? with
    | none =>
      have := Date.ofNumber?_eq_none_iff.mp hsucc
      have := d.first_le
      simp only [Option.map_none, Option.getD_none]
      omega
    | some next =>
      have := Date.shift?_eq_some_iff.mp hsucc
      have := next.le_last
      rw [hlast]
      simp only [Option.map_some, Option.getD_some, key, midnight, TimeOfDay.midnight]
      omega

theorem atMinute_le_iff {t : Instant} {m : Nat} (h : m < 1440) :
    atMinute t.date m ≤ t ↔ m ≤ t.minute := by
  rw [atMinute_of_lt _ h, le_iff_lex]
  simp only [TimeOfDay.ofMinute, minute, Date.lt_iff, Int.lt_irrefl, false_or, true_and,
    Nat.zero_le, and_true]
  omega

theorem atMinute_le_cases {t : Instant} {d : Date} {m : Nat} (hm : m ≤ 1440)
    (h : atMinute d m ≤ t) : d < t.date ∨ t.date = d ∧ m ≤ t.minute ∨ last ≤ t := by
  have := t.time.second_lt
  have := t.time.nanosecond_lt
  rw [le_iff, key_atMinute d hm] at h
  simp only [Date.lt_iff, Date.eq_iff, le_iff, minute]
  simp only [key] at h ⊢
  omega

theorem lt_atMinute {t : Instant} {m : Nat} (hm : m ≤ 1440) (h : t.minute < m) (hlast : t < last) :
    t < atMinute t.date m := by
  have := t.time.nanosecond_lt
  rw [lt_iff] at hlast ⊢
  rw [key_atMinute t.date hm]
  simp only [key, minute] at *
  omega

theorem minute_lt_of_lt_atMinute {t : Instant} {m : Nat} (hm : m ≤ 1440)
    (h : t < atMinute t.date m) :
    t.minute < m := by
  rw [lt_iff, key_atMinute t.date hm] at h
  simp only [key, minute] at *
  omega

theorem last_le_iff {t : Instant} :
    last ≤ t ↔ t.date = Date.last ∧ t.time.second = 86399 ∧ 999999999 ≤ t.time.nanosecond := by
  have hdate := t.date.le_last
  have hsecond := t.time.second_lt
  rw [le_iff_lex, Date.lt_iff, Date.eq_iff, Date.eq_iff]
  simp only [last, Date.last]
  omega

end Instant

theorem Block.onDate_start_date {b : Block} (h : b.start < 1440) (d : Date) :
    (b.onDate d).start.date = d := by
  simp [onDate, Instant.atMinute_of_lt d h]

-- ---------------------------------------------------------------------------
-- The status of an instant
-- ---------------------------------------------------------------------------

theorem statusOfSecond_eq (second : Nat) (day : List Block) :
    statusOfSecond second day = (Layer.at? day (second / 60)).getD .closed := by
  have same : (fun b : Block => decide (b.start * 60 ≤ second) && decide (second < b.stop * 60)) =
      fun b => decide (b.Contains (second / 60)) := by
    funext b
    rw [← Bool.decide_and, decide_eq_decide]
    unfold Block.Contains
    omega
  unfold statusOfSecond Layer.at?
  rw [same]
  cases List.find? _ day <;> rfl

namespace Schedule

theorem status_eq (s : Schedule) (t : Instant) :
    s.status t = (Layer.at? (s.day t.date) t.minute).getD .closed :=
  statusOfSecond_eq ..

theorem status_congr (s : Schedule) {t u : Instant} (hdate : t.date = u.date)
    (hminute : t.minute = u.minute) : s.status t = s.status u := by
  rw [status_eq, status_eq, hdate, hminute]

theorem status_of_last_le (s : Schedule) {t u : Instant} (ht : Instant.last ≤ t)
    (hu : Instant.last ≤ u) : s.status t = s.status u := by
  obtain ⟨htd, hts, -⟩ := Instant.last_le_iff.mp ht
  obtain ⟨hud, hus, -⟩ := Instant.last_le_iff.mp hu
  exact s.status_congr (htd.trans hud.symm) (by simp only [Instant.minute, hts, hus])

section

variable {s : Schedule} (h : s.WellFormed)
include h

theorem status_eq_minuteStatus (t : Instant) : s.status t = s.minuteStatus t.date t.minute := by
  rw [status_eq, at?_day h t.date t.minute_lt]
  rfl

theorem status_of_mem_day {t : Instant} {b : Block} (hb : b ∈ s.day t.date)
    (hm : b.Contains t.minute) : s.status t = b.status := by
  rw [status_eq, (day_tiles h t.date).at?_of_mem hb hm]
  rfl

theorem exists_mem_day (t : Instant) :
    ∃ b ∈ s.day t.date, b.Contains t.minute ∧ s.status t = b.status := by
  obtain ⟨b, hb, hm⟩ := (day_tiles h t.date).exists_contains (Nat.zero_le _) t.minute_lt
  exact ⟨b, hb, hm, status_of_mem_day h hb hm⟩

end

end Schedule

end OpeningTimes
