import OpeningTimes.Expression.Grammar.Dates
import OpeningTimes.Proofs.Expression.Reading

/-!
# Weekdays and holidays as they are read

No entry of a day selector is empty, and one that wants a weekday and a holiday at once names both.
-/

namespace OpeningTimes

-- ---------------------------------------------------------------------------
-- Sets that are not empty
-- ---------------------------------------------------------------------------

theorem Occurrences.union_eq_empty_iff {a b : Occurrences} : a ∪ b = ∅ ↔ a = ∅ ∧ b = ∅ := by
  obtain ⟨a⟩ := a
  obtain ⟨b⟩ := b
  show Occurrences.mk (a ||| b) = .mk 0#10 ↔
    Occurrences.mk a = .mk 0#10 ∧ Occurrences.mk b = .mk 0#10
  simp [BitVec.or_eq_zero_iff]

theorem Occurrences.foldl_union_eq_empty_iff {a : Occurrences} {sets : List Occurrences} :
    sets.foldl (· ∪ ·) a = ∅ ↔ a = ∅ ∧ ∀ s ∈ sets, s = ∅ := by
  induction sets generalizing a with
  | nil => simp
  | cons s sets ih => simp [ih, union_eq_empty_iff, and_assoc]

theorem Occurrences.ofNumber_ne_empty {n : Int} (h : 1 ≤ n ∧ n ≤ 5 ∨ -5 ≤ n ∧ n ≤ -1) :
    ofNumber n ≠ ∅ := by
  have : n = 1 ∨ n = 2 ∨ n = 3 ∨ n = 4 ∨ n = 5 ∨ n = -5 ∨ n = -4 ∨ n = -3 ∨ n = -2 ∨ n = -1 := by
    omega
  rcases this with rfl | rfl | rfl | rfl | rfl | rfl | rfl | rfl | rfl | rfl <;> decide

theorem Occurrences.range_ne_empty {first last : Nat} (hfirst : 1 ≤ first) (hle : first ≤ last)
    (hlast : last ≤ 5) : range first last ≠ ∅ := by
  have all : ∀ f l : Fin 6, 1 ≤ f.val → f ≤ l → range f l ≠ ∅ := by decide
  exact all ⟨first, by omega⟩ ⟨last, by omega⟩ hfirst hle

theorem Weekdays.isEmpty_union (a b : Weekdays) : (a ∪ b).isEmpty = (a.isEmpty && b.isEmpty) := by
  rw [Bool.eq_iff_iff]
  show ((a.bits ||| b.bits) == 0#7) = true ↔ (a.bits == 0#7 && b.bits == 0#7) = true
  simp [BitVec.or_eq_zero_iff]

theorem Weekdays.isEmpty_ofDay (w : Weekday) : (ofDay w).isEmpty = false := by
  cases w <;> rfl

theorem Weekdays.isEmpty_range (start stop : Weekday) : (range start stop).isEmpty = false := by
  cases start <;> cases stop <;> rfl

namespace Grammar

-- ---------------------------------------------------------------------------
-- Entries
-- ---------------------------------------------------------------------------

/-- An entry that can cover some day. -/
def DayEntry.WellFormed : DayEntry → Prop
  | .weekdays days => days.isEmpty = false
  | .occurrences _ counts => counts ≠ ∅
  | .holiday _ => True

theorem DayEntry.addTo_keeps_weekday {s : DaySelector} (h : s.namesWeekday = true) (e : DayEntry) :
    (e.addTo s).namesWeekday = true := by
  cases e <;> simp_all [addTo, DaySelector.namesWeekday, Weekdays.isEmpty_union]
  · rcases h with h | h <;> simp [h]

theorem DayEntry.addTo_names_weekday (s : DaySelector) {e : DayEntry} (he : e.WellFormed)
    (hday : e.isHoliday = false) : (e.addTo s).namesWeekday = true := by
  cases e <;> simp_all [addTo, DaySelector.namesWeekday, Weekdays.isEmpty_union,
    WellFormed, isHoliday]

theorem DayEntry.addTo_names_holiday (s : DaySelector) {e : DayEntry}
    (h : s.holidays ≠ [] ∨ e.isHoliday = true) : (e.addTo s).holidays ≠ [] := by
  cases e <;> simp_all [addTo, isHoliday]

theorem DayEntry.addTo_occurrences {s : DaySelector} {e : DayEntry} (he : e.WellFormed)
    (h : ∀ entry ∈ s.occurrences, entry.2 ≠ ∅) :
    ∀ entry ∈ (e.addTo s).occurrences, entry.2 ≠ ∅ := by
  cases e with
  | occurrences day counts =>
    intro entry hentry
    rcases List.mem_append.mp hentry with hentry | hentry
    · exact h entry hentry
    · obtain rfl := List.mem_singleton.mp hentry
      exact he
  | _ => exact h

/-- What one entry brings about and none undoes holds of the selector of all. -/
theorem foldl_addTo_of_mem {P : DaySelector → Prop}
    (keeps : ∀ s (e : DayEntry), P s → P (e.addTo s)) {entries : List DayEntry} {e : DayEntry}
    (he : e ∈ entries) (hP : ∀ s, P (e.addTo s))
    (s : DaySelector) : P (entries.foldl DayEntry.addTo s) := by
  have kept (entries : List DayEntry) : ∀ s, P s → P (entries.foldl DayEntry.addTo s) := by
    induction entries with
    | nil => exact fun _ h => h
    | cons a as ih => exact fun s h => ih _ (keeps s a h)
  induction entries generalizing s with
  | nil => cases he
  | cons a as ih =>
    rcases List.mem_cons.mp he with rfl | he
    · exact kept as _ (hP s)
    · exact ih he _

theorem foldl_addTo_occurrences {entries : List DayEntry} (h : ∀ e ∈ entries, e.WellFormed)
    {s : DaySelector} (hs : ∀ entry ∈ s.occurrences, entry.2 ≠ ∅) :
    ∀ entry ∈ (entries.foldl DayEntry.addTo s).occurrences, entry.2 ≠ ∅ := by
  induction entries generalizing s with
  | nil => exact hs
  | cons a as ih =>
    exact ih (fun e he => h e (.tail _ he)) (DayEntry.addTo_occurrences (h a (by simp)) hs)

theorem foldl_addTo_join (entries : List DayEntry) (s : DaySelector) :
    (entries.foldl DayEntry.addTo s).join = s.join := by
  induction entries generalizing s with
  | nil => rfl
  | cons a as ih => rw [List.foldl_cons, ih]; cases a <;> rfl

theorem select_either_wellFormed {entries : List DayEntry} (h : ∀ e ∈ entries, e.WellFormed) :
    (DayEntry.select .either entries).WellFormed := by
  refine ⟨foldl_addTo_occurrences h (by simp), fun hjoin => ?_⟩
  rw [DayEntry.select, foldl_addTo_join] at hjoin
  cases hjoin

theorem select_both_wellFormed {entries : List DayEntry} (h : ∀ e ∈ entries, e.WellFormed)
    {holiday day : DayEntry} (hholiday : holiday ∈ entries) (hday : day ∈ entries)
    (is_holiday : holiday.isHoliday = true) (is_day : day.isHoliday = false) :
    (DayEntry.select .both entries).WellFormed := by
  refine ⟨foldl_addTo_occurrences h (by simp), fun _ => ⟨?_, ?_⟩⟩
  · exact foldl_addTo_of_mem (P := fun s => s.namesWeekday = true)
      (fun _ e hs => DayEntry.addTo_keeps_weekday hs e) hday
      (fun s => DayEntry.addTo_names_weekday s (h day hday) is_day) _
  · exact foldl_addTo_of_mem (P := fun s => s.holidays ≠ [])
      (fun s _ hs => DayEntry.addTo_names_holiday s (.inl hs)) hholiday
      (fun s => DayEntry.addTo_names_holiday s (.inr is_holiday)) _

-- ---------------------------------------------------------------------------
-- Readers
-- ---------------------------------------------------------------------------

theorem reads_weekday : Reads weekday fun _ => True :=
  reads_one fun _ _ _ _ => trivial

theorem reads_occurrenceNumber : Reads occurrenceNumber fun n => 1 ≤ n ∧ n ≤ 5 := by
  refine reads_one fun t n ht hn => ?_
  split at hn
  · split at hn <;> cases hn
    assumption
  · cases hn

theorem reads_occurrenceEntry : Reads occurrenceEntry fun counts => counts ≠ ∅ := by
  intro ts hts
  unfold occurrenceEntry
  split
  · refine (reads_occurrenceNumber.after hts (List.suffix_cons ..)).bind fun n rest hn hrest => ?_
    exact .ok (Occurrences.ofNumber_ne_empty (by omega)) hrest
  · refine (reads_occurrenceNumber _ hts).bind fun first rest hfirst hrest => ?_
    simp only
    split
    · have hdash := (List.suffix_cons ..).trans hrest
      refine (reads_occurrenceNumber.after hts hdash).bind fun last rest hlast hrest => ?_
      simp only
      split
      · exact .fail hdash
      · exact .ok (Occurrences.range_ne_empty hfirst.1 (by omega) hlast.2) hrest
    · exact .ok (Occurrences.ofNumber_ne_empty (by omega)) hrest

theorem reads_weekdayEntry :
    Reads weekdayEntry fun e => e.WellFormed ∧ e.isHoliday = false := by
  intro ts hts
  refine (reads_weekday ts hts).bind fun first rest _ hrest => ?_
  simp only
  split
  · have hbracket := (List.suffix_cons ..).trans hrest
    refine ((reads_items reads_occurrenceEntry _).after hts hbracket).bind
      fun sets rest hsets hrest => ?_
    refine (reads_mark.after hts hrest).bind fun _ rest _ hrest => ?_
    refine .ok ⟨?_, rfl⟩ hrest
    obtain ⟨hne, hall⟩ := hsets
    obtain ⟨s, hs⟩ := List.exists_mem_of_ne_nil _ hne
    intro hempty
    exact hall s hs ((Occurrences.foldl_union_eq_empty_iff.mp hempty).2 s hs)
  · refine (reads_weekday.after hts ((List.suffix_cons ..).trans hrest)).bind
      fun last rest _ hrest => ?_
    exact .ok ⟨Weekdays.isEmpty_range first last, rfl⟩ hrest
  · exact .ok ⟨Weekdays.isEmpty_ofDay first, rfl⟩ hrest

theorem reads_dayEntry : Reads dayEntry DayEntry.WellFormed := by
  intro ts hts
  unfold dayEntry
  split
  · exact .ok trivial (List.suffix_cons ..)
  · exact (reads_weekdayEntry _ hts).mono fun _ he => he.1
  · exact .fail (List.suffix_refl _)

theorem reads_daySelector : Reads daySelector DaySelector.WellFormed := by
  intro ts hts
  refine ((reads_items reads_dayEntry _) ts hts).bind fun entries rest hentries hrest => ?_
  obtain ⟨hne, hall⟩ := hentries
  simp only
  split
  · rename_i hjoin
    simp only [Bool.and_eq_true, List.all_eq_true] at hjoin
    refine ((reads_items reads_weekdayEntry _).after hts hrest).bind fun more rest hmore hrest => ?_
    obtain ⟨hmorene, hmore⟩ := hmore
    obtain ⟨holiday, hholiday⟩ := List.exists_mem_of_ne_nil _ hne
    obtain ⟨day, hday⟩ := List.exists_mem_of_ne_nil _ hmorene
    refine .ok (select_both_wellFormed ?_ (List.mem_append_left _ hholiday)
      (List.mem_append_right _ hday)
      (hjoin.1 holiday hholiday) (hmore day hday).2) hrest
    intro e he
    rcases List.mem_append.mp he with he | he
    · exact hall e he
    · exact (hmore e he).1
  · exact .ok (select_either_wellFormed hall) hrest

theorem wellFormed_noDays : DaySelector.WellFormed {} :=
  ⟨by simp, fun hjoin => nomatch hjoin⟩

theorem reads_optionalDaySelector : Reads optionalDaySelector DaySelector.WellFormed := by
  intro ts hts
  unfold optionalDaySelector
  split
  · exact reads_daySelector ts hts
  · exact .ok wellFormed_noDays (List.suffix_refl _)

end Grammar

end OpeningTimes
