import OpeningTimes.Proofs.Expression.DatesSpelled
import OpeningTimes.Proofs.Expression.DaysSpelled
import OpeningTimes.Proofs.Expression.RulesRead

/-!
# Rules as they are written

Every well-formed rule is written with its state and read back as it is, and so is a list of rules
with the separators that say how each goes with those before it. Together with what is read from a
text, this says which lists of rules texts stand for.
-/

namespace OpeningTimes

/-- An event of the sun is written with its shift, also where that is zero. -/
def TimePoint.lexemes : TimePoint → List Lexeme
  | .fixed minute => [.clock (minute / 60) (minute % 60)]
  | .solar event offset =>
    [.mark .leftParen, .keyword (.solar event), .mark (if offset < 0 then .dash else .plus),
      .clock (offset.natAbs / 60) (offset.natAbs % 60), .mark .rightParen]

def TimeRange.lexemes (r : TimeRange) : List Lexeme :=
  r.start.lexemes ++ match r.stop with
    | none => [.mark .plus]
    | some stop => .mark .dash :: (stop.lexemes ++ if r.openEnd then [.mark .plus] else [])

def State.keyword : State → Keyword
  | .opened => .opened
  | .closed => .closed
  | .unknown => .unknown

/-- The mark before a rule that goes in this way with those before it. -/
def Layering.separator : Layering → Mark
  | .replace => .semicolon
  | .add => .comma
  | .fallback => .doubleBar

namespace Grammar

-- ---------------------------------------------------------------------------
-- Spans of time
-- ---------------------------------------------------------------------------

theorem clockTime_spelled {lastHour minutes : Nat} (h : minutes ≤ lastHour * 60)
    (rest : List Lexeme) :
    clockTime lastHour (.clock (minutes / 60) (minutes % 60) :: rest) = .ok (minutes, rest) := by
  have hminutes : minutes / 60 * 60 + minutes % 60 = minutes := Nat.div_add_mod' minutes 60
  simp [clockTime, one, hminutes, h, Nat.mod_lt]

theorem spellable_timePoint {last : Nat} (hlast : last ≤ 2880) {p : TimePoint}
    (h : p.WellFormed last) : ∀ t ∈ p.lexemes, t.Spellable := by
  have hclock {minutes : Nat} (hle : minutes ≤ 2880) :
      (Lexeme.clock (minutes / 60) (minutes % 60)).Spellable := ⟨by omega, by omega⟩
  cases p with
  | fixed minute => simpa [TimePoint.lexemes] using hclock (Nat.le_trans h hlast)
  | solar event offset =>
    obtain ⟨hlow, hhigh⟩ := h
    have hoffset : offset.natAbs ≤ 2880 := by omega
    simp [TimePoint.lexemes, hclock hoffset]

theorem timePoint_spelled {lastHour : Nat} {p : TimePoint} (h : p.WellFormed (lastHour * 60))
    (rest : List Lexeme) : timePoint lastHour (p.lexemes ++ rest) = .ok (p, rest) := by
  cases p with
  | fixed minute =>
    have hread := clockTime_spelled h rest
    simp [TimePoint.lexemes, timePoint, hread, Except.map]
  | solar event offset =>
    obtain ⟨hlow, hhigh⟩ := h
    have hread : clockTime 24 (.clock (offset.natAbs / 60) (offset.natAbs % 60) ::
        .mark .rightParen :: rest) = .ok (offset.natAbs, .mark .rightParen :: rest) :=
      clockTime_spelled (by omega) _
    by_cases hneg : offset < 0
    · have hshift : (offset.natAbs : Int) * -1 = offset := by omega
      simp only [TimePoint.lexemes, if_pos hneg, List.cons_append, List.nil_append, timePoint,
        shiftedEvent, sunEvent, sign, mark, one, ok_bind, hread, hshift, if_true]
      rfl
    · have hshift : (offset.natAbs : Int) * 1 = offset := by omega
      simp only [TimePoint.lexemes, if_neg hneg, List.cons_append, List.nil_append, timePoint,
        shiftedEvent, sunEvent, sign, mark, one, ok_bind, hread, hshift, if_true]
      rfl

theorem spells_timeRange {r : TimeRange} (h : r.WellFormed) : Spells timeRange r.lexemes r := by
  obtain ⟨start, stop, openEnd⟩ := r
  obtain ⟨hstart, hstop⟩ := h
  have hspellable : ∀ t ∈ start.lexemes, t.Spellable := spellable_timePoint (by decide) hstart
  have hread (rest : List Lexeme) : timePoint 24 (start.lexemes ++ rest) = .ok (start, rest) :=
    timePoint_spelled hstart rest
  cases stop with
  | none =>
    obtain rfl : openEnd = true := hstop
    refine ⟨?_, fun rest _ => ?_⟩
    · simp only [TimeRange.lexemes, List.forall_mem_append]
      exact ⟨hspellable, by simp⟩
    · simp [TimeRange.lexemes, timeRange, hread, pure, Except.pure]
  | some stop =>
    have hlast (rest : List Lexeme) : timePoint 48 (stop.lexemes ++ rest) = .ok (stop, rest) :=
      timePoint_spelled hstop rest
    refine ⟨?_, fun rest hrest => ?_⟩
    · simp only [TimeRange.lexemes, List.forall_mem_append, List.forall_mem_cons]
      refine ⟨hspellable, Lexeme.spellable_mark _, spellable_timePoint (Nat.le_refl _) hstop, ?_⟩
      cases openEnd <;> simp
    · cases openEnd with
      | true => simp [TimeRange.lexemes, timeRange, hread, hlast, mark, one, pure, Except.pure]
      | false =>
        -- what follows does not leave the end open
        simp only [TimeRange.lexemes, timeRange, List.append_assoc, List.cons_append, hread,
          ok_bind, mark, one, Bool.false_eq_true, if_false, if_true, List.nil_append, hlast]
        split
        · exact absurd hrest id
        · rfl

theorem place_timePoint (p : TimePoint) (rest : List Lexeme) : place (p.lexemes ++ rest) = 5 := by
  cases p <;> rfl

/-- What stands after the years is never read as 24/7. -/
theorem times_eq {ts : List Lexeme} (h : 1 < place ts) :
    times ts = optionalItems timeRange startsTime ts := by
  unfold times
  split
  · unfold place at h
    split at h <;> simp_all
  · rfl

theorem fills_times {ranges : List TimeRange} (h : ∀ r ∈ ranges, r.WellFormed) :
    Fills 5 times (listed TimeRange.lexemes ranges) ranges := by
  have fills :
      Fills 5 (optionalItems timeRange startsTime) (listed TimeRange.lexemes ranges) ranges := by
    refine fills_optionalItems startsTime_eq (fun r hr => spells_timeRange (h r hr))
      fun r _ rest => ?_
    rw [TimeRange.lexemes, List.append_assoc, place_timePoint]
  refine ⟨fills.spellable, fun rest hrest => ?_, fills.place_le⟩
  rw [times_eq (Nat.lt_of_lt_of_le (by decide) (fills.place_le rest hrest))]
  exact fills.reads rest hrest

end Grammar

open Grammar

-- ---------------------------------------------------------------------------
-- Rules
-- ---------------------------------------------------------------------------

/-- The state of a rule and its comment, which end it. -/
def Rule.endLexemes (r : Rule) : List Lexeme :=
  .keyword r.state.keyword :: (r.comment.map .comment).toList

def Rule.lexemes (r : Rule) : List Lexeme :=
  listed YearSpan.lexemes r.years ++
    (listed CalendarSpan.lexemes r.calendar ++ (weekLexemes r.weeks ++
    (r.days.lexemes ++ (listed TimeRange.lexemes r.times ++ r.endLexemes))))

def moreRules (rules : List Rule) : List Lexeme :=
  following (fun r => r.layering.separator) Rule.lexemes rules

namespace Grammar

theorem place_state (r : Rule) (rest : List Lexeme) : place (r.endLexemes ++ rest) = 6 := by
  unfold Rule.endLexemes
  cases r.state <;> rfl

theorem stated_spelled (state : State) (rest : List Lexeme) :
    stated (.keyword state.keyword :: rest) = (some state, rest) := by
  cases state <;> rfl

theorem comment_spelled (text : Option String) {rest : List Lexeme}
    (hrest : comment rest = (none, rest)) :
    comment ((text.map .comment).toList ++ rest) = (text, rest) := by
  cases text with
  | none => exact hrest
  | some text => rfl

theorem skipColon_eq {ts : List Lexeme} (h : 0 < place ts) : skipColon ts = ts := by
  fun_cases place ts <;> simp_all [skipColon, place]

theorem spellable_rule {r : Rule} (h : r.WellFormed) : ∀ t ∈ r.lexemes, t.Spellable := by
  simp only [Rule.lexemes, List.forall_mem_append]
  refine ⟨(fills_years h.years).spellable, (fills_calendar h.calendar).spellable,
    (fills_weeks h.weeks).spellable, (fills_days h.days).spellable,
    (fills_times h.times).spellable, ?_⟩
  cases hcomment : r.comment with
  | none => simp [Rule.endLexemes, hcomment]
  | some text =>
    have hquote : (Lexeme.comment text).Spellable := h.comment text hcomment
    simp [Rule.endLexemes, hcomment, hquote]

theorem rule_spelled {r : Rule} (h : r.WellFormed) (rest : List Lexeme)
    (hrest : comment rest = (none, rest)) :
    rule r.layering (r.lexemes ++ rest) = .ok (r, rest) := by
  have text : r.lexemes ++ rest = listed YearSpan.lexemes r.years ++
      (listed CalendarSpan.lexemes r.calendar ++ (weekLexemes r.weeks ++ (r.days.lexemes ++
        (listed TimeRange.lexemes r.times ++ (r.endLexemes ++ rest))))) := by
    simp [Rule.lexemes]
  have longer : rest.length < (r.lexemes ++ rest).length := by
    simp only [Rule.lexemes, Rule.endLexemes, List.length_append, List.length_cons]
    omega
  -- each part comes before the one after it, from the last part on
  have six : 5 < place (r.endLexemes ++ rest) := by rw [place_state]; decide
  have five := Nat.lt_of_lt_of_le (by decide : 4 < 5) ((fills_times h.times).place_le _ six)
  have four := Nat.lt_of_lt_of_le (by decide : 3 < 4) ((fills_days h.days).place_le _ five)
  have three := Nat.lt_of_lt_of_le (by decide : 2 < 3) ((fills_weeks h.weeks).place_le _ four)
  have two := Nat.lt_of_lt_of_le (by decide : 1 < 2) ((fills_calendar h.calendar).place_le _ three)
  have hyears := (fills_years h.years).reads _ two
  have hcalendar := (fills_calendar h.calendar).reads _ three
  have hweeks := (fills_weeks h.weeks).reads _ four
  have hcolon := skipColon_eq (Nat.zero_lt_of_lt four)
  have hdays := (fills_days h.days).reads _ five
  have htimes := (fills_times h.times).reads _ six
  have hstated : stated (r.endLexemes ++ rest)
      = (some r.state, (r.comment.map .comment).toList ++ rest) := stated_spelled r.state _
  rw [rule]
  generalize (r.lexemes ++ rest).length = n at longer
  simp only [text, hyears, ok_bind, hcalendar, hweeks, hcolon, ite_self, hdays, htimes, hstated,
    comment_spelled r.comment hrest, longer, if_true, Option.getD_some]
  rfl

-- ---------------------------------------------------------------------------
-- Lists of rules
-- ---------------------------------------------------------------------------

theorem lexemes_ne_nil (r : Rule) (rest : List Lexeme) : r.lexemes ++ rest ≠ [] := by
  simp [Rule.lexemes, Rule.endLexemes]

theorem rulesUpTo_spelled {first : Rule} {more : List Rule} (h : ∀ r ∈ first :: more, r.WellFormed)
    {bound : Nat} (hbound : more.length < bound) :
    rulesUpTo bound first.layering (first.lexemes ++ moreRules more) = .ok (first :: more) := by
  induction more generalizing first bound with
  | nil =>
    obtain ⟨bound, rfl⟩ := Nat.exists_eq_add_one_of_ne_zero (Nat.ne_zero_of_lt hbound)
    have hfirst := rule_spelled (h first (by simp)) [] rfl
    simp only [rulesUpTo, moreRules, following, List.flatMap_nil, hfirst, ok_bind]
    rfl
  | cons next more ih =>
    obtain ⟨bound, rfl⟩ := Nat.exists_eq_add_one_of_ne_zero (Nat.ne_zero_of_lt hbound)
    have hmore := ih (fun r hr => h r (.tail _ hr)) (Nat.lt_of_succ_lt_succ hbound)
    have htext : moreRules (next :: more)
        = .mark next.layering.separator :: (next.lexemes ++ moreRules more) := rfl
    have hfirst := rule_spelled (h first (by simp))
      (.mark next.layering.separator :: (next.lexemes ++ moreRules more)) rfl
    have hne := lexemes_ne_nil next (moreRules more)
    simp only [rulesUpTo, htext, hfirst, ok_bind]
    generalize next.lexemes ++ moreRules more = ts at hmore hne
    cases ts with
    | nil => exact absurd rfl hne
    | cons t ts =>
      cases hlayering : next.layering <;>
        · rw [hlayering] at hmore
          simp only [Layering.separator, hmore, ok_bind]
          rfl

end Grammar

namespace Rule

/-- A text that stands for the rules, the first of which needs no mark before it. -/
def text (rules : List Rule) : String :=
  String.ofList (Lexeme.written (joined (fun r => r.layering.separator) lexemes rules))

theorem ofText_text {first : Rule} {more : List Rule} (h : ∀ r ∈ first :: more, r.WellFormed)
    (hfirst : first.layering = .replace) : ofText (text (first :: more)) = .ok (first :: more) := by
  obtain ⟨tokens, htokens, hlexemes⟩ := Token.readFrom_written (first.lexemes ++ moreRules more)
    (spellable_joined fun r hr => spellable_rule (h r hr)) 0
  have hall : Token.readAll (text (first :: more)) = .ok tokens := by
    rw [Token.readAll, text, String.toList_ofList]
    exact htokens
  have hrules : Grammar.rules (tokens.map Token.lexeme) = .ok (first :: more) := by
    rw [hlexemes, Grammar.rules, ← hfirst]
    refine rulesUpTo_spelled h (Nat.lt_succ_of_le ?_)
    rw [List.length_append]
    exact Nat.le_trans (length_le_following _ lexemes more) (Nat.le_add_left ..)
  simp [ofText, ofTokens, hall, hrules, Except.mapError, bind, Except.bind]

example : (ofText "2024 Jan 1+ We[1] 10:00-sunset; PH off").toOption.map text
    = some "2024 jan 01 + we [ 1 ] 10:00 - ( sunset + 00:00 ) open ; ph closed " := by
  decide +kernel

/-- The lists of rules that texts stand for: one rule or more, all of them well formed, of which the
first takes the place of all that was said before. -/
theorem exists_ofText_iff (rules : List Rule) :
    (∃ raw, ofText raw = .ok rules) ↔
      rules ≠ [] ∧ rules.head?.map Rule.layering = some .replace ∧ ∀ r ∈ rules, r.WellFormed := by
  constructor
  · rintro ⟨raw, hraw⟩
    obtain ⟨hrules, hfirst⟩ := ends_of_ofText hraw
    refine ⟨?_, hfirst, hrules⟩
    rintro rfl
    cases hfirst
  · rintro ⟨hne, hfirst, hrules⟩
    cases rules with
    | nil => exact absurd rfl hne
    | cons first more => exact ⟨_, ofText_text hrules (by simpa using hfirst)⟩

end Rule

end OpeningTimes
