import Mathlib.Data.List.TakeWhile
import OpeningTimes.Proofs.Calendar.YearsLater
import OpeningTimes.Proofs.Text.Digits
import OpeningTimes.Written

/-!
# Timestamps

An instant of the years 0 to 9999 whose seconds are whole is read back from its timestamp, also one
with a leap second. No other text is read: it is given back with the error. In a text with the form
of a timestamp no number stands out of its place, so that the two steps of reading come to one.
-/

namespace OpeningTimes

open Calendar Text

-- ---------------------------------------------------------------------------
-- Numbers in their places
-- ---------------------------------------------------------------------------

namespace Text

theorem isBlank_eq_false_of_isNumeral {c : Char} (h : isNumeral c = true) : isBlank c = false := by
  have hcode := toNat_of_isNumeral h
  simp only [isBlank, Bool.or_eq_false_iff, Bool.and_eq_false_iff, decide_eq_false_iff_not,
    beq_eq_false_iff_ne]
  omega

theorem skipBlanks_of_isNumeral {c : Char} {cs : List Char} (h : isNumeral c = true) :
    skipBlanks (c :: cs) = c :: cs := by
  simp [skipBlanks, isBlank_eq_false_of_isNumeral h]

/-- A reader gives the number in a place and what follows the place, or else it stops at a
numeral. -/
def ReadsPlace {α : Type} (number : Option α) (rest : List Char) (read : Option (α × List Char)) :
    Prop :=
  read = number.map (·, rest) ∨
    number = none ∧ ∀ n cs, read = some (n, cs) → ∃ d, isNumeral d = true ∧ cs.head? = some d

theorem readsPlace_looseNumber? (place rest : List Char)
    (h : ∀ c ∈ place, isNumeral c = true) (hplace : place ≠ []) :
    ReadsPlace (readDigits? place) rest (looseNumber? place.length (place ++ rest)) := by
  have htake : (place ++ rest).take place.length = place := List.take_left
  unfold looseNumber?
  rw [htake]
  by_cases hdigits : ∀ c ∈ place, c.isDigit = true
  · left
    have hall : place.takeWhile Char.isDigit = place := List.takeWhile_eq_self_iff.mpr hdigits
    rw [hall, readDigits?, if_pos (List.all_eq_true.mpr hdigits)]
    simp [hplace]
  · right
    have hnone : readDigits? place = none :=
      if_neg fun hall => hdigits (List.all_eq_true.mp hall)
    refine ⟨hnone, fun n cs hread => ?_⟩
    have hrest : place.dropWhile Char.isDigit ≠ [] := fun hnil =>
      hdigits (List.dropWhile_eq_nil_iff.mp hnil)
    have hdrop : (place ++ rest).drop (place.takeWhile Char.isDigit).length =
        place.dropWhile Char.isDigit ++ rest := by
      calc
        _ = (place.takeWhile Char.isDigit ++ (place.dropWhile Char.isDigit ++ rest)).drop
            (place.takeWhile Char.isDigit).length := by
          rw [← List.append_assoc, List.takeWhile_append_dropWhile]
        _ = _ := List.drop_left
    obtain ⟨d, ds, hds⟩ := List.exists_cons_of_ne_nil hrest
    have hmem : d ∈ place := List.dropWhile_subset _ (hds ▸ List.mem_cons_self ..)
    simp only [hdrop, hds] at hread
    split at hread
    · cases hread
    · obtain ⟨-, rfl⟩ := Prod.mk.inj (Option.some.inj hread)
      exact ⟨d, h d hmem, rfl⟩

theorem readsPlace_looseYear? (place rest : List Char)
    (h : ∀ c ∈ place, isNumeral c = true) (hplace : place.length = 4) :
    ReadsPlace ((readDigits? place).map Int.ofNat) rest (looseYear? (place ++ rest)) := by
  obtain ⟨c, cs, rfl⟩ := List.exists_cons_of_length_eq_add_one hplace
  have hcode := toNat_of_isNumeral (h c (by simp))
  have hread : looseYear? (c :: cs ++ rest) =
      (looseNumber? 4 (c :: cs ++ rest)).map fun read => ((read.1 : Int), read.2) := by
    rw [List.cons_append, looseYear?]
    · intro ds hds
      obtain ⟨rfl, -⟩ := List.cons.inj hds
      exact absurd hcode (by decide)
    · intro ds hds
      obtain ⟨rfl, -⟩ := List.cons.inj hds
      exact absurd hcode (by decide)
  rw [hread, ← hplace]
  rcases readsPlace_looseNumber? _ rest h (List.cons_ne_nil c cs) with hsome | ⟨hnone, hstop⟩
  · left
    rw [hsome]
    cases readDigits? (c :: cs) <;> rfl
  · right
    refine ⟨by rw [hnone]; rfl, fun n ds hds => ?_⟩
    obtain ⟨⟨m, _⟩, hm, heq⟩ := Option.map_eq_some_iff.mp hds
    obtain ⟨-, rfl⟩ := Prod.mk.inj heq
    exact hstop m _ hm

section

variable {α β : Type} {number : Option α} {rest : List Char} {read : Option (α × List Char)}

theorem ReadsPlace.bind_after? {c : Char} (h : ReadsPlace number (c :: rest) read)
    (hc : isNumeral c = false) {k : α × List Char → Option β} {f : α → List Char → Option β}
    (hk : ∀ n cs, k (n, cs) = (after? c cs).bind (f n)) :
    read.bind k = number.bind fun n => f n rest := by
  rcases h with rfl | ⟨rfl, hstop⟩
  · cases number with
    | none => rfl
    | some n => simp [hk, after?]
  · cases hread : read with
    | none => rfl
    | some result =>
      obtain ⟨n, cs⟩ := result
      obtain ⟨d, hd, hcs⟩ := hstop n cs hread
      obtain ⟨ds, rfl⟩ := List.head?_eq_some_iff.mp hcs
      have hne : d ≠ c := fun heq => by rw [heq, hc] at hd; cases hd
      simp [hk, after?, hne]

theorem bind_looseNumber? {a b c : Char} (ha : isNumeral a = true) (hb : isNumeral b = true)
    (hc : isNumeral c = false) {k : Nat × List Char → Option β} {f : Nat → List Char → Option β}
    (hk : ∀ n cs, k (n, cs) = (after? c cs).bind (f n)) :
    (looseNumber? 2 (skipBlanks (a :: b :: c :: rest))).bind k =
      (readDigits? [a, b]).bind fun n => f n rest := by
  rw [skipBlanks_of_isNumeral ha]
  exact (readsPlace_looseNumber? [a, b] (c :: rest) (by simp [ha, hb]) (by simp)).bind_after? hc hk

theorem ReadsPlace.bind_end (h : ReadsPlace number [] read) {k : α × List Char → Option β}
    {f : α → Option β} (hk : ∀ n cs, k (n, cs) = if cs.isEmpty then f n else none) :
    read.bind k = number.bind f := by
  rcases h with rfl | ⟨rfl, hstop⟩
  · cases number with
    | none => rfl
    | some n => simp [hk]
  · cases hread : read with
    | none => rfl
    | some result =>
      obtain ⟨n, cs⟩ := result
      obtain ⟨d, -, hcs⟩ := hstop n cs hread
      obtain ⟨ds, rfl⟩ := List.head?_eq_some_iff.mp hcs
      simp [hk]

end

end Text

-- ---------------------------------------------------------------------------
-- Instants
-- ---------------------------------------------------------------------------

theorem TimeOfDay.ofClock?_eq_some_iff {hour minute second fraction : Nat} {t : TimeOfDay} :
    ofClock? hour minute second fraction = some t ↔
      t.IsClockTime ∧ t.hour = hour ∧ t.minute = minute ∧ t.clockSecond = second ∧
      t.fraction = fraction := by
  constructor
  · intro h
    unfold ofClock? at h
    split at h
    · split at h
      · obtain rfl := Option.some.inj h
        simp only [IsClockTime, TimeOfDay.hour, TimeOfDay.minute, clockSecond, TimeOfDay.fraction]
        omega
      · split at h
        · obtain rfl := Option.some.inj h
          simp only [IsClockTime, TimeOfDay.hour, TimeOfDay.minute, clockSecond, TimeOfDay.fraction]
          omega
        · cases h
    · cases h
  · rintro ⟨hclock, rfl, rfl, rfl, rfl⟩
    exact ofClock?_clock hclock

namespace Instant

/-- A timestamp tells such an instant in full, also a leap second that ends its minute. -/
structure IsWritable (t : Instant) : Prop where
  year : 0 ≤ t.date.year ∧ t.date.year ≤ 9999
  whole : t.time.fraction = 0
  clock : t.time.IsClockTime

/-- Both steps of reading at once: every number is read in its place. -/
def ofTimestampChars? : List Char → Option Instant
  | [y₁, y₂, y₃, y₄, '-', m₁, m₂, '-', d₁, d₂, 'T', h₁, h₂, ':', n₁, n₂, ':', s₁, s₂] => do
    let year ← readDigits? [y₁, y₂, y₃, y₄]
    let month ← readDigits? [m₁, m₂]
    let day ← readDigits? [d₁, d₂]
    let hour ← readDigits? [h₁, h₂]
    let minute ← readDigits? [n₁, n₂]
    let second ← readDigits? [s₁, s₂]
    let date ← Date.ofYearMonthDay? year month day
    let time ← TimeOfDay.ofClock? hour minute second 0
    return ⟨date, time⟩
  | _ => none

theorem ofLooseChars?_eq {cs : List Char} (h : hasTimestampForm cs = true) :
    ofLooseChars? cs = ofTimestampChars? cs := by
  unfold hasTimestampForm at h
  split at h
  · rename_i y₁ y₂ y₃ y₄ m₁ m₂ d₁ d₂ h₁ h₂ n₁ n₂ s₁ s₂
    have hnumeral : ∀ c ∈ [y₁, y₂, y₃, y₄, m₁, m₂, d₁, d₂, h₁, h₂, n₁, n₂, s₁, s₂],
        isNumeral c = true :=
      List.all_eq_true.mp h
    simp only [List.forall_mem_cons] at hnumeral
    obtain ⟨hy₁, hy₂, hy₃, hy₄, hm₁, hm₂, hd₁, hd₂, hh₁, hh₂, hn₁, hn₂, hs₁, hs₂, -⟩ := hnumeral
    rw [ofLooseChars?, skipBlanks_of_isNumeral hy₁]
    refine ((readsPlace_looseYear? [y₁, y₂, y₃, y₄] ('-' :: _) (by simp [*]) rfl).bind_after?
      (by decide) fun _ _ => rfl).trans ?_
    rw [Option.bind_map]
    refine Option.bind_congr fun year _ => ?_
    refine (bind_looseNumber? hm₁ hm₂ (by decide) fun _ _ => rfl).trans ?_
    refine Option.bind_congr fun month _ => ?_
    refine (bind_looseNumber? hd₁ hd₂ (by decide) fun _ _ => rfl).trans ?_
    refine Option.bind_congr fun day _ => ?_
    refine (bind_looseNumber? hh₁ hh₂ (by decide) fun _ _ => rfl).trans ?_
    refine Option.bind_congr fun hour _ => ?_
    refine (bind_looseNumber? hn₁ hn₂ (by decide) fun _ _ => rfl).trans ?_
    refine Option.bind_congr fun minute _ => ?_
    rw [skipBlanks_of_isNumeral hs₁]
    exact (readsPlace_looseNumber? [s₁, s₂] [] (by simp [*]) (by simp)).bind_end fun _ _ => rfl
  · cases h

/-- The characters of a timestamp that need not tell an instant. -/
def layout (year month day hour minute second : Nat) : List Char :=
  fixedDigits 4 year ++ '-' :: fixedDigits 2 month ++ '-' :: fixedDigits 2 day ++
    'T' :: (fixedDigits 2 hour ++ ':' :: fixedDigits 2 minute ++ ':' :: fixedDigits 2 second)

theorem IsWritable.timestampChars_eq {t : Instant} (h : t.IsWritable) :
    t.timestampChars = layout t.date.year.toNat t.date.month t.date.day t.time.hour t.time.minute
      t.time.clockSecond := by
  have hyear : yearChars t.date.year = fixedDigits 4 t.date.year.toNat := if_pos h.year
  simp only [timestampChars, Date.chars, TimeOfDay.clockChars, TimeOfDay.hourMinuteChars,
    hyear, layout]

theorem ofTimestampChars?_layout {year month day hour minute second : Nat} (hyear : year < 10 ^ 4)
    (hdate : month < 10 ^ 2 ∧ day < 10 ^ 2)
    (htime : hour < 10 ^ 2 ∧ minute < 10 ^ 2 ∧ second < 10 ^ 2) :
    ofTimestampChars? (layout year month day hour minute second) = (do
      let date ← Date.ofYearMonthDay? year month day
      let time ← TimeOfDay.ofClock? hour minute second 0
      return ⟨date, time⟩) := by
  have cut : ofTimestampChars? (layout year month day hour minute second) = (do
      let year ← readDigits? (fixedDigits 4 year)
      let month ← readDigits? (fixedDigits 2 month)
      let day ← readDigits? (fixedDigits 2 day)
      let hour ← readDigits? (fixedDigits 2 hour)
      let minute ← readDigits? (fixedDigits 2 minute)
      let second ← readDigits? (fixedDigits 2 second)
      let date ← Date.ofYearMonthDay? year month day
      let time ← TimeOfDay.ofClock? hour minute second 0
      return ⟨date, time⟩) := rfl
  rw [cut, readDigits?_fixedDigits hyear, readDigits?_fixedDigits hdate.1,
    readDigits?_fixedDigits hdate.2, readDigits?_fixedDigits htime.1,
    readDigits?_fixedDigits htime.2.1, readDigits?_fixedDigits htime.2.2]
  rfl

theorem exists_layout_of_ofTimestampChars? {cs : List Char} {t : Instant}
    (h : ofTimestampChars? cs = some t) :
    ∃ year month day hour minute second : Nat, year < 10 ^ 4 ∧
      cs = layout year month day hour minute second ∧
      Date.ofYearMonthDay? year month day = some t.date ∧
      TimeOfDay.ofClock? hour minute second 0 = some t.time := by
  unfold ofTimestampChars? at h
  split at h
  · simp only [Option.bind_eq_bind, Option.bind_eq_some_iff, Option.pure_def, Option.some.injEq,
      readDigits?_eq_some_iff] at h
    obtain ⟨year, ⟨hlt, hyear⟩, month, ⟨-, hmonth⟩, day, ⟨-, hday⟩, hour, ⟨-, hhour⟩, minute,
      ⟨-, hminute⟩, second, ⟨-, hsecond⟩, date, hdate, time, htime, rfl⟩ := h
    simp only [List.length_cons, List.length_nil, Nat.zero_add, Nat.reduceAdd] at *
    refine ⟨year, month, day, hour, minute, second, hlt, ?_, hdate, htime⟩
    simp only [layout, hyear, hmonth, hday, hhour, hminute, hsecond, List.cons_append,
      List.nil_append]
  · cases h

theorem hasTimestampForm_layout (year month day hour minute second : Nat) :
    hasTimestampForm (layout year month day hour minute second) = true := by
  have form : hasTimestampForm (layout year month day hour minute second) =
      (fixedDigits 4 year ++ fixedDigits 2 month ++ fixedDigits 2 day ++ fixedDigits 2 hour ++
        fixedDigits 2 minute ++ fixedDigits 2 second).all isNumeral := rfl
  rw [form]
  refine List.all_eq_true.mpr fun c hc => isNumeral_of_isDigit ?_
  simp only [List.mem_append] at hc
  rcases hc with ((((hc | hc) | hc) | hc) | hc) | hc <;> exact isDigit_of_mem_fixedDigits c hc

/-- What both steps read is what is read of all numbers in their places. -/
theorem ofTimestamp?_eq (raw : String) : ofTimestamp? raw = ofTimestampChars? raw.toList := by
  unfold ofTimestamp?
  split <;> rename_i hform
  · exact ofLooseChars?_eq hform
  · refine (Option.eq_none_iff_forall_not_mem.mpr fun t ht => hform ?_).symm
    obtain ⟨year, month, day, hour, minute, second, -, hchars, -⟩ :=
      exists_layout_of_ofTimestampChars? ht
    rw [hchars]
    exact hasTimestampForm_layout ..

theorem ofTimestamp?_eq_some_iff {raw : String} {t : Instant} :
    ofTimestamp? raw = some t ↔ t.IsWritable ∧ t.timestamp = raw := by
  constructor
  · intro h
    rw [ofTimestamp?_eq] at h
    obtain ⟨year, month, day, hour, minute, second, hlt, hchars, hdate, htime⟩ :=
      exists_layout_of_ofTimestampChars? h
    obtain ⟨hyear, rfl, rfl⟩ := Date.ofYearMonthDay?_eq_some_iff_parts.mp hdate
    obtain ⟨hclock, rfl, rfl, rfl, hwhole⟩ := TimeOfDay.ofClock?_eq_some_iff.mp htime
    have writable : t.IsWritable := ⟨by omega, hwhole, hclock⟩
    refine ⟨writable, ?_⟩
    have htoNat : t.date.year.toNat = year := by omega
    rw [timestamp, writable.timestampChars_eq, htoNat, ← hchars, String.ofList_toList]
  · rintro ⟨writable, rfl⟩
    have hyear := writable.year
    have hdate : Date.ofYearMonthDay? t.date.year.toNat t.date.month t.date.day = some t.date :=
      Date.ofYearMonthDay?_eq_some_iff_parts.mpr ⟨(Int.toNat_of_nonneg hyear.1).symm, rfl, rfl⟩
    have htime : TimeOfDay.ofClock? t.time.hour t.time.minute t.time.clockSecond 0 = some t.time :=
      TimeOfDay.ofClock?_eq_some_iff.mpr ⟨writable.clock, rfl, rfl, rfl, writable.whole⟩
    have hdateBounds : t.date.month < 10 ^ 2 ∧ t.date.day < 10 ^ 2 := by
      have hmonth : t.date.month ≤ 12 := (monthOf_bounds t.date.number).2
      have hday : t.date.day ≤ monthLength t.date.year t.date.month :=
        (dayOfMonth_bounds t.date.number).2
      have hlength := monthLength_le t.date.year t.date.month
      omega
    have htimeBounds : t.time.hour < 10 ^ 2 ∧ t.time.minute < 10 ^ 2 ∧
        t.time.clockSecond < 10 ^ 2 := by
      have hsecond := t.time.second_lt
      have hnanosecond := t.time.nanosecond_lt
      unfold TimeOfDay.hour TimeOfDay.minute TimeOfDay.clockSecond
      omega
    rw [ofTimestamp?_eq, timestamp, String.toList_ofList, writable.timestampChars_eq,
      ofTimestampChars?_layout (by omega) hdateBounds htimeBounds, hdate, htime]
    rfl

end Instant

/-- A text is read as the instant whose timestamp it is, and comes back with the error where it is
the timestamp of none. -/
theorem Written.instant_reads_timestamps (raw : String) :
    (∀ t, instant raw = .ok t ↔ t.IsWritable ∧ t.timestamp = raw) ∧
      (instant raw = .error (.timestamp raw) ↔
        ∀ t : Instant, t.IsWritable → t.timestamp ≠ raw) := by
  unfold instant
  cases hread : Instant.ofTimestamp? raw with
  | some read =>
    have written := Instant.ofTimestamp?_eq_some_iff.mp hread
    refine ⟨fun t => ?_, iff_of_false (by simp) fun hnone => hnone read written.1 written.2⟩
    rw [← Instant.ofTimestamp?_eq_some_iff, hread]
    simp
  | none =>
    have unwritten (t : Instant) : ¬ (t.IsWritable ∧ t.timestamp = raw) := by
      rw [← Instant.ofTimestamp?_eq_some_iff, hread]
      simp
    exact ⟨fun t => iff_of_false (by simp) (unwritten t),
      iff_of_true rfl fun t writable htext => unwritten t ⟨writable, htext⟩⟩

/-- The year 0 is a leap year, and a leap second may follow any minute. -/
example : Written.instant "0000-02-29T00:00:60" =
    .ok ⟨⟨59, by decide, by decide⟩, { second := 59, nanosecond := 1000000000 }⟩ := by
  decide +kernel

end OpeningTimes
