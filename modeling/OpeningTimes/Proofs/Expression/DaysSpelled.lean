import OpeningTimes.Proofs.Expression.DaysRead
import OpeningTimes.Proofs.Expression.Parts

/-!
# Weekdays and holidays as they are written

A set of weekdays is written day by day, and a set of occurrences one after another. Holidays come
last, unless they have to hold together with weekdays: then they come first, with no comma after
them.
-/

namespace OpeningTimes

-- ---------------------------------------------------------------------------
-- Sets as lists
-- ---------------------------------------------------------------------------

def Weekdays.toList (s : Weekdays) : List Weekday :=
  Weekday.all.filter s.contains

theorem Weekdays.toList_ofDay (w : Weekday) : (ofDay w).toList = [w] := by
  cases w <;> rfl

theorem Weekdays.foldl_toList (s : Weekdays) : s.toList.foldl (fun a w => a ∪ ofDay w) ∅ = s := by
  have all : ∀ bits : BitVec 7,
      (Weekdays.toList ⟨bits⟩).foldl (fun a w => a ∪ ofDay w) ∅ = ⟨bits⟩ := by decide +kernel
  exact all s.bits

namespace Occurrences

def members (s : Occurrences) : List Nat :=
  (List.range 10).filter s.bits.getLsbD

/-- The number of the occurrence that a bit stands for. -/
def number (i : Nat) : Int := if i < 5 then i + 1 else 4 - i

theorem lt_of_mem_members {s : Occurrences} {i : Nat} (h : i ∈ s.members) : i < 10 := by
  exact List.mem_range.mp (List.mem_filter.mp h).1

theorem ofNumber_number {i : Nat} (h : i < 10) : ofNumber (number i) = ⟨1 <<< i⟩ := by
  have all : ∀ i : Fin 10, ofNumber (number i) = ⟨1 <<< i.val⟩ := by decide
  exact all ⟨i, h⟩

theorem getLsbD_union_number {i j : Nat} (hi : i < 10) (hj : j < 10) (a : Occurrences) :
    (a ∪ ofNumber (number i)).bits.getLsbD j = (a.bits.getLsbD j || decide (j = i)) := by
  have single : (!decide (j < i) && decide (j - i = 0)) = decide (j = i) := by
    rw [Bool.eq_iff_iff]
    simp only [Bool.and_eq_true, Bool.not_eq_true', decide_eq_false_iff_not, decide_eq_true_eq]
    omega
  rw [ofNumber_number hi]
  show (a.bits ||| 1#10 <<< i).getLsbD j = _
  rw [BitVec.getLsbD_or, BitVec.getLsbD_shiftLeft, BitVec.getLsbD_one]
  simp [hj, single]

theorem getLsbD_foldl_number {is : List Nat} (h : ∀ i ∈ is, i < 10) (a : Occurrences) {j : Nat}
    (hj : j < 10) : ((is.map fun i => ofNumber (number i)).foldl (· ∪ ·) a).bits.getLsbD j
      = (a.bits.getLsbD j || decide (j ∈ is)) := by
  induction is generalizing a with
  | nil => simp
  | cons i is ih =>
    simp [ih fun k hk => h k (.tail _ hk), getLsbD_union_number (h i (by simp)) hj, Bool.or_assoc,
      ← Bool.decide_or]

theorem foldl_members (s : Occurrences) :
    (s.members.map fun i => ofNumber (number i)).foldl (· ∪ ·) ∅ = s := by
  have bits : ((s.members.map fun i => ofNumber (number i)).foldl (· ∪ ·) ∅).bits = s.bits := by
    apply BitVec.eq_of_getLsbD_eq
    intro j hj
    rw [getLsbD_foldl_number (fun i hi => lt_of_mem_members hi) _ hj]
    show ((0#10).getLsbD j || decide (j ∈ s.members)) = _
    simp [members, hj]
  exact congrArg mk bits

theorem members_ne_nil {s : Occurrences} (h : s ≠ ∅) : s.members ≠ [] := by
  intro hnil
  have hs := foldl_members s
  rw [hnil] at hs
  exact h hs.symm

def numberLexemes (i : Nat) : List Lexeme :=
  if i < 5 then [.number (i + 1) 1] else [.mark .dash, .number (i - 4) 1]

end Occurrences

-- ---------------------------------------------------------------------------
-- Entries
-- ---------------------------------------------------------------------------

namespace Grammar

def DayEntry.lexemes : DayEntry → List Lexeme
  | .weekdays days => days.toList.map .weekday
  | .occurrences day counts => .weekday day :: .mark .leftBracket ::
      (listed Occurrences.numberLexemes counts.members ++ [.mark .rightBracket])
  | .holiday kind => [.keyword (.holiday kind)]

theorem occurrenceNumber_spelled {n : Nat} (h : 1 ≤ n ∧ n ≤ 5) (rest : List Lexeme) :
    occurrenceNumber (.number n 1 :: rest) = .ok (n, rest) := by
  simp [occurrenceNumber, one, h]

theorem spellable_occurrenceNumber {n : Nat} (h : n ≤ 5) : (Lexeme.number n 1).Spellable :=
  Lexeme.spellable_number (by decide) (by decide) (by omega)

theorem spells_occurrence {i : Nat} (h : i < 10) :
    Spells occurrenceEntry (Occurrences.numberLexemes i) (.ofNumber (Occurrences.number i)) := by
  by_cases hi : i < 5
  · have htext : Occurrences.numberLexemes i = [.number (i + 1) 1] := if_pos hi
    have hnumber : Occurrences.number i = (i + 1 : Nat) := if_pos hi
    rw [htext, hnumber]
    refine ⟨by simp [spellable_occurrenceNumber hi], fun rest hrest => ?_⟩
    have hread := occurrenceNumber_spelled ⟨Nat.le_add_left 1 i, hi⟩ rest
    simp only [List.singleton_append, occurrenceEntry, hread, ok_bind]
    split
    · exact absurd hrest id
    · rfl
  · have htext : Occurrences.numberLexemes i = [.mark .dash, .number (i - 4) 1] := if_neg hi
    have hnumber : Occurrences.number i = -((i - 4 : Nat) : Int) := by
      rw [Occurrences.number, if_neg hi]
      omega
    have hfive : 1 ≤ i - 4 ∧ i - 4 ≤ 5 := by omega
    rw [htext, hnumber]
    refine ⟨by simp [spellable_occurrenceNumber hfive.2], fun rest _ => ?_⟩
    simp [occurrenceEntry, occurrenceNumber_spelled hfive, pure, Except.pure]

theorem spells_weekday (w : Weekday) :
    Spells weekdayEntry (DayEntry.weekdays (.ofDay w)).lexemes (.weekdays (.ofDay w)) := by
  have htext : (DayEntry.weekdays (.ofDay w)).lexemes = [.weekday w] := by
    simp [DayEntry.lexemes, Weekdays.toList_ofDay]
  rw [htext]
  refine ⟨by simp, fun rest hrest => ?_⟩
  simp only [List.singleton_append, weekdayEntry, weekday, one, ok_bind]
  split
  · exact absurd hrest id
  · exact absurd hrest id
  · rfl

theorem spells_occurrences (w : Weekday) {counts : Occurrences} (h : counts ≠ ∅) :
    Spells weekdayEntry (DayEntry.occurrences w counts).lexemes (.occurrences w counts) := by
  have spells (i : Nat) (hi : i ∈ counts.members) :=
    spells_occurrence (Occurrences.lt_of_mem_members hi)
  refine ⟨?_, fun rest _ => ?_⟩
  · have hlisted : ∀ t ∈ listed Occurrences.numberLexemes counts.members, t.Spellable :=
      spellable_joined fun i hi => (spells i hi).spellable
    simp only [DayEntry.lexemes, List.forall_mem_cons, List.forall_mem_append]
    exact ⟨Lexeme.spellable_weekday w, Lexeme.spellable_mark _, hlisted, by simp⟩
  · have hcounts : items occurrenceEntry (fun _ => true)
        (listed Occurrences.numberLexemes counts.members ++ .mark .rightBracket :: rest)
          = .ok (counts.members.map fun i => .ofNumber (Occurrences.number i),
              .mark .rightBracket :: rest) :=
      items_listed_map spells (fun _ _ _ => rfl) ⟨trivial, by simp⟩ (Occurrences.members_ne_nil h)
    simp [DayEntry.lexemes, weekdayEntry, weekday, mark, one, hcounts,
      Occurrences.foldl_members, pure, Except.pure]

-- ---------------------------------------------------------------------------
-- Selectors
-- ---------------------------------------------------------------------------

end Grammar

open Grammar

/-- The weekdays of a selector, then those with their occurrences. -/
def DaySelector.dayEntries (s : DaySelector) : List DayEntry :=
  s.weekdays.toList.map (fun w => .weekdays (.ofDay w)) ++
    s.occurrences.map fun e => .occurrences e.1 e.2

def DaySelector.holidayEntries (s : DaySelector) : List DayEntry :=
  s.holidays.map .holiday

def DaySelector.lexemes (s : DaySelector) : List Lexeme :=
  match s.join with
  | .either => listed DayEntry.lexemes (s.dayEntries ++ s.holidayEntries)
  | .both => listed DayEntry.lexemes s.holidayEntries ++ listed DayEntry.lexemes s.dayEntries

namespace Grammar

theorem foldl_addTo_weekdays (days : List Weekday) (s : DaySelector) :
    (days.map fun w => DayEntry.weekdays (.ofDay w)).foldl DayEntry.addTo s
      = { s with weekdays := days.foldl (fun a w => a ∪ .ofDay w) s.weekdays } := by
  induction days generalizing s with
  | nil => rfl
  | cons w days ih => simp [ih, DayEntry.addTo]

theorem foldl_addTo_counts (entries : List (Weekday × Occurrences)) (s : DaySelector) :
    (entries.map fun e => DayEntry.occurrences e.1 e.2).foldl DayEntry.addTo s
      = { s with occurrences := s.occurrences ++ entries } := by
  induction entries generalizing s with
  | nil => simp
  | cons e entries ih => simp [ih, DayEntry.addTo]

theorem foldl_addTo_holidays (holidays : List Holiday) (s : DaySelector) :
    (holidays.map .holiday).foldl DayEntry.addTo s
      = { s with holidays := s.holidays ++ holidays } := by
  induction holidays generalizing s with
  | nil => simp
  | cons kind holidays ih => simp [ih, DayEntry.addTo]

theorem select_either (s : DaySelector) (h : s.join = .either) :
    DayEntry.select .either (s.dayEntries ++ s.holidayEntries) = s := by
  simp [DayEntry.select, DaySelector.dayEntries, DaySelector.holidayEntries, foldl_addTo_weekdays,
    foldl_addTo_counts, foldl_addTo_holidays, Weekdays.foldl_toList, ← h]

theorem select_both (s : DaySelector) (h : s.join = .both) :
    DayEntry.select .both (s.holidayEntries ++ s.dayEntries) = s := by
  simp [DayEntry.select, DaySelector.dayEntries, DaySelector.holidayEntries, foldl_addTo_weekdays,
    foldl_addTo_counts, foldl_addTo_holidays, Weekdays.foldl_toList, ← h]

theorem dayEntries_spelled {s : DaySelector} (h : s.WellFormed) {e : DayEntry}
    (he : e ∈ s.dayEntries) :
    Spells weekdayEntry e.lexemes e ∧ ∃ w ts, e.lexemes = .weekday w :: ts := by
  rcases List.mem_append.mp he with he | he
  · obtain ⟨w, -, rfl⟩ := List.mem_map.mp he
    exact ⟨spells_weekday w, w, [], by simp [DayEntry.lexemes, Weekdays.toList_ofDay]⟩
  · obtain ⟨entry, hentry, rfl⟩ := List.mem_map.mp he
    exact ⟨spells_occurrences entry.1 (h.1 entry hentry), entry.1, _, rfl⟩

theorem entries_spelled {s : DaySelector} (h : s.WellFormed) {e : DayEntry}
    (he : e ∈ s.dayEntries ∨ e ∈ s.holidayEntries) :
    Spells dayEntry e.lexemes e ∧ ∀ rest, place (e.lexemes ++ rest) = 4 := by
  rcases he with he | he
  · obtain ⟨hspells, w, ts, htext⟩ := dayEntries_spelled h he
    rw [htext] at hspells ⊢
    exact ⟨⟨hspells.spellable, hspells.reads⟩, fun _ => rfl⟩
  · obtain ⟨kind, -, rfl⟩ := List.mem_map.mp he
    exact ⟨⟨by simp [DayEntry.lexemes], fun _ _ => rfl⟩, fun _ => rfl⟩

theorem startsWeekday_eq_false {ts : List Lexeme} (h : 4 < place ts) :
    startsWeekday ts = false := by
  fun_cases place ts <;> simp_all [startsWeekday, place]

section

variable {s : DaySelector} (h : s.WellFormed)
include h

theorem dayEntries_ne_nil (hjoin : s.join = .both) : s.dayEntries ≠ [] := by
  intro hnil
  obtain ⟨hdays, hcounts⟩ := List.append_eq_nil_iff.mp hnil
  have hweekdays : s.weekdays = ∅ := by
    rw [← Weekdays.foldl_toList s.weekdays, List.map_eq_nil_iff.mp hdays]
    rfl
  have hnames := (h.2 hjoin).1
  rw [DaySelector.namesWeekday, hweekdays, List.map_eq_nil_iff.mp hcounts] at hnames
  exact absurd hnames (by decide)

theorem holidayEntries_ne_nil (hjoin : s.join = .both) : s.holidayEntries ≠ [] := by
  simpa [DaySelector.holidayEntries] using (h.2 hjoin).2

section

variable {entries : List DayEntry} (hne : entries ≠ [])
  (hentries : ∀ e ∈ entries, e ∈ s.dayEntries ∨ e ∈ s.holidayEntries)
include hne hentries

theorem place_entries (rest : List Lexeme) :
    place (listed DayEntry.lexemes entries ++ rest) = 4 := by
  cases entries with
  | nil => exact absurd rfl hne
  | cons e entries =>
    rw [listed, joined, List.append_assoc]
    exact (entries_spelled h (hentries e (by simp))).2 _

theorem items_entries {rest : List Lexeme} (hrest : EndsList rest) :
    items dayEntry startsDayEntry (listed DayEntry.lexemes entries ++ rest) = .ok (entries, rest) :=
  items_listed (fun e he => (entries_spelled h (hentries e he)).1)
    (fun e he rest => by simp [startsDayEntry_eq, (entries_spelled h (hentries e he)).2]) hrest hne

end

theorem items_dayEntries (hne : s.dayEntries ≠ []) {rest : List Lexeme} (hrest : EndsList rest) :
    items weekdayEntry startsWeekday (listed DayEntry.lexemes s.dayEntries ++ rest)
      = .ok (s.dayEntries, rest) := by
  have starts : ∀ e ∈ s.dayEntries, ∀ rest, startsWeekday (e.lexemes ++ rest) = true := by
    intro e he rest
    obtain ⟨-, w, ts, htext⟩ := dayEntries_spelled h he
    rw [htext]
    rfl
  exact items_listed (fun e he => (dayEntries_spelled h he).1) starts hrest hne

theorem startsWeekday_dayEntries (hne : s.dayEntries ≠ []) (rest : List Lexeme) :
    startsWeekday (listed DayEntry.lexemes s.dayEntries ++ rest) = true := by
  cases hentries : s.dayEntries with
  | nil => exact absurd hentries hne
  | cons e entries =>
    obtain ⟨-, w, ts, htext⟩ := dayEntries_spelled h (e := e) (by simp [hentries])
    simp [listed, joined, htext, startsWeekday]

theorem daySelector_either (hjoin : s.join = .either) (hne : s.dayEntries ++ s.holidayEntries ≠ [])
    {rest : List Lexeme} (hrest : 4 < place rest) :
    daySelector (listed DayEntry.lexemes (s.dayEntries ++ s.holidayEntries) ++ rest) =
      .ok (s, rest) := by
  have hitems := items_entries h hne (fun e he => List.mem_append.mp he)
    (endsList_of_place (Nat.zero_lt_of_lt hrest))
  simp only [daySelector, hitems, ok_bind, startsWeekday_eq_false hrest, Bool.and_false]
  rw [if_neg Bool.false_ne_true, select_either s hjoin]
  rfl

theorem daySelector_both (hjoin : s.join = .both) {rest : List Lexeme} (hrest : 4 < place rest) :
    daySelector (listed DayEntry.lexemes s.holidayEntries ++
      (listed DayEntry.lexemes s.dayEntries ++ rest))
      = .ok (s, rest) := by
  have hne := dayEntries_ne_nil h hjoin
  have hplace := place_entries h hne (fun e he => .inl he) rest
  have hholidays := items_entries h (holidayEntries_ne_nil h hjoin) (fun e he => .inr he)
    (endsList_of_place (by rw [hplace]; decide))
  have hdays := items_dayEntries h hne (endsList_of_place (Nat.zero_lt_of_lt hrest))
  have only : s.holidayEntries.all DayEntry.isHoliday = true := by
    simp [DaySelector.holidayEntries, DayEntry.isHoliday]
  simp only [daySelector, hholidays, ok_bind, only, startsWeekday_dayEntries h hne,
    Bool.and_self, if_true, hdays]
  rw [select_both s hjoin]
  rfl

theorem names_nothing_or_daySelector :
    (s.lexemes = [] ∧ s = {}) ∨
      (∀ rest, place (s.lexemes ++ rest) = 4) ∧
        ∀ rest, 4 < place rest → daySelector (s.lexemes ++ rest) = .ok (s, rest) := by
  unfold DaySelector.lexemes
  cases hjoin : s.join with
  | either =>
    by_cases hnil : s.dayEntries ++ s.holidayEntries = []
    · have hs := select_either s hjoin
      rw [hnil] at hs
      exact .inl ⟨by simp [hnil, listed, joined], hs.symm⟩
    · exact .inr ⟨place_entries h hnil fun e he => List.mem_append.mp he,
        fun rest => daySelector_either h hjoin hnil⟩
  | both =>
    refine .inr ⟨fun rest => ?_, fun rest hrest => ?_⟩
    · rw [List.append_assoc]
      exact place_entries h (holidayEntries_ne_nil h hjoin) (fun e he => .inr he) _
    · rw [List.append_assoc]
      exact daySelector_both h hjoin hrest

theorem fills_days : Fills 4 optionalDaySelector s.lexemes s where
  spellable := by
    have all {entries : List DayEntry}
        (hentries : ∀ e ∈ entries, e ∈ s.dayEntries ∨ e ∈ s.holidayEntries) :
        ∀ t ∈ listed DayEntry.lexemes entries, t.Spellable :=
      spellable_joined fun e he => (entries_spelled h (hentries e he)).1.spellable
    unfold DaySelector.lexemes
    split
    · exact all fun e he => List.mem_append.mp he
    · simp only [List.forall_mem_append]
      exact ⟨all fun e he => .inr he, all fun e he => .inl he⟩
  reads rest hrest := by
    rcases names_nothing_or_daySelector h with ⟨htext, hs⟩ | ⟨hplace, hread⟩
    · rw [htext, hs, List.nil_append, optionalDaySelector, if_neg]
      simp [startsDayEntry_eq, Nat.ne_of_gt hrest]
    · rw [optionalDaySelector, if_pos]
      · exact hread rest hrest
      · simp [startsDayEntry_eq, hplace]
  place_le rest hrest := by
    rcases names_nothing_or_daySelector h with ⟨htext, -⟩ | ⟨hplace, -⟩
    · simpa [htext] using Nat.le_of_lt hrest
    · simp [hplace]

end

end Grammar

end OpeningTimes
