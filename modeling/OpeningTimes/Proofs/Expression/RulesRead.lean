import OpeningTimes.Expression.Parse
import OpeningTimes.Proofs.Expression.DatesRead
import OpeningTimes.Proofs.Expression.DaysRead

/-!
# Rules as they are read

Every rule that is read from a text is well formed.
-/

namespace OpeningTimes

namespace Grammar

-- ---------------------------------------------------------------------------
-- Spans of time
-- ---------------------------------------------------------------------------

theorem reads_clockTime (lastHour : Nat) :
    Reads (clockTime lastHour) fun m => m ≤ lastHour * 60 := by
  refine reads_one fun t m ht hm => ?_
  split at hm
  · split at hm <;> cases hm
    exact (And.right ‹_›)
  · cases hm

theorem reads_sunEvent : Reads sunEvent fun _ => True :=
  reads_one fun _ _ _ _ => trivial

theorem reads_sign : Reads sign fun factor => factor = 1 ∨ factor = -1 := by
  refine reads_one fun t factor ht hfactor => ?_
  split at hfactor <;> cases hfactor
  · exact .inl rfl
  · exact .inr rfl

theorem reads_shiftedEvent (last : Nat) : Reads shiftedEvent (TimePoint.WellFormed last) := by
  intro ts hts
  refine (reads_sunEvent ts hts).bind fun event rest _ hrest => ?_
  refine (reads_sign.after hts hrest).bind fun factor rest hfactor hrest => ?_
  refine ((reads_clockTime 24).after hts hrest).bind fun minutes rest hminutes hrest => ?_
  refine (reads_mark.after hts hrest).bind fun _ rest _ hrest => ?_
  refine .ok ?_ hrest
  rcases hfactor with rfl | rfl <;> simp only [TimePoint.WellFormed] <;> omega

theorem reads_timePoint (lastHour : Nat) :
    Reads (timePoint lastHour) (TimePoint.WellFormed (lastHour * 60)) := by
  intro ts hts
  unfold timePoint
  split
  · exact .ok (by simp [TimePoint.WellFormed]) (List.suffix_cons ..)
  · exact (reads_shiftedEvent _).after hts (List.suffix_cons ..)
  · exact ((reads_clockTime lastHour) _ hts).map fun minute rest hminute hrest => ⟨hminute, hrest⟩

theorem reads_timeRange : Reads timeRange TimeRange.WellFormed := by
  intro ts hts
  refine (reads_timePoint 24 ts hts).bind fun start rest hstart hrest => ?_
  simp only
  split
  · exact .ok ⟨hstart, rfl⟩ ((List.suffix_cons ..).trans hrest)
  · refine (reads_mark.after hts hrest).bind fun _ rest _ hrest => ?_
    refine ((reads_timePoint 48).after hts hrest).bind fun stop rest hstop hrest => ?_
    simp only
    split
    · exact .ok ⟨hstart, hstop⟩ ((List.suffix_cons ..).trans hrest)
    · exact .ok ⟨hstart, hstop⟩ hrest

theorem reads_times : Reads times fun ranges => ∀ range ∈ ranges, range.WellFormed := by
  intro ts hts
  unfold times
  split
  · exact .ok (by simp)
      (((List.suffix_cons ..).trans (List.suffix_cons ..)).trans (List.suffix_cons ..))
  · exact reads_optionalItems reads_timeRange _ _ hts

-- ---------------------------------------------------------------------------
-- Rules
-- ---------------------------------------------------------------------------

theorem stated_suffix (ts : List Lexeme) : (stated ts).2 <:+ ts := by
  unfold stated
  split <;> first | exact List.suffix_cons .. | exact List.suffix_refl _

theorem comment_suffix (ts : List Lexeme) : (comment ts).2 <:+ ts := by
  unfold comment
  split <;> first | exact List.suffix_cons .. | exact List.suffix_refl _

theorem comment_valid {ts : List Lexeme} (h : Valid ts) :
    ∀ text ∈ (comment ts).1, '"' ∉ text.toList := by
  unfold comment
  split
  · rename_i text rest
    intro other hother
    cases hother
    exact h (.comment text) (by simp)
  · simp

theorem skipColon_suffix (ts : List Lexeme) : skipColon ts <:+ ts := by
  unfold skipColon
  split <;> first | exact List.suffix_cons .. | exact List.suffix_refl _

theorem reads_rule (layering : Layering) :
    Reads (rule layering) fun r => r.WellFormed ∧ r.layering = layering := by
  intro start hstart
  refine (reads_optionalItems reads_yearSpan _ start hstart).bind fun years ts hyears hts => ?_
  refine ((reads_optionalItems reads_calendarSpan _).after hstart hts).bind
    fun calendar ts hcalendar hts => ?_
  refine (reads_weeks.after hstart hts).bind fun weeks ts hweeks hts => ?_
  have hcolon : (if ts.length < start.length then skipColon ts else ts) <:+ start := by
    split
    · exact (skipColon_suffix ts).trans hts
    · exact hts
  refine (reads_optionalDaySelector.after hstart hcolon).bind fun days ts hdays hts => ?_
  refine (reads_times.after hstart hts).bind fun times ts htimes hts => ?_
  have hstated := (stated_suffix ts).trans hts
  have hrest := (comment_suffix (stated ts).2).trans hstated
  simp only
  split
  · exact .ok ⟨⟨hyears, hcalendar, hweeks, hdays, htimes, comment_valid (hstart.of_suffix hstated)⟩,
      rfl⟩
      hrest
  · exact .fail (List.suffix_refl _)

/-- How reading a whole list of rules may end. -/
def EndsRules (layering : Layering) (ts : List Lexeme) : Except Failure (List Rule) → Prop
  | .ok rules => (∀ r ∈ rules, r.WellFormed) ∧ rules.head?.map Rule.layering = some layering
  | .error failure => failure.left ≤ ts.length

theorem EndsRules.cons {first : Rule} {layering other : Layering} {ts more : List Lexeme}
    {r : Except Failure (List Rule)} (hfirst : first.WellFormed ∧ first.layering = layering)
    (hmore : more <:+ ts) (hr : EndsRules other more r) :
    EndsRules layering ts (r >>= fun rules => pure (first :: rules)) := by
  cases r with
  | ok rules =>
    refine ⟨?_, congrArg some hfirst.2⟩
    simpa using ⟨hfirst.1, hr.1⟩
  | error failure => exact Nat.le_trans hr hmore.length_le

theorem ends_rulesUpTo (bound : Nat) (layering : Layering) {ts : List Lexeme} (hts : Valid ts) :
    EndsRules layering ts (rulesUpTo bound layering ts) := by
  induction bound generalizing layering ts with
  | zero => exact Nat.le_refl _
  | succ bound ih =>
    have hrule := reads_rule layering ts hts
    simp only [rulesUpTo]
    generalize rule layering ts = r at hrule ⊢
    cases r with
    | error failure => exact hrule
    | ok result =>
      obtain ⟨first, rest⟩ := result
      obtain ⟨hfirst, hrest⟩ := hrule
      have one : EndsRules layering ts (.ok [first]) :=
        ⟨by simpa using hfirst.1, congrArg some hfirst.2⟩
      simp only [bind, Except.bind]
      split
      · exact one
      · exact one
      · have hmore := (List.suffix_cons ..).trans hrest
        exact .cons hfirst hmore (ih .replace (hts.of_suffix hmore))
      · have hmore := (List.suffix_cons ..).trans hrest
        exact .cons hfirst hmore (ih .add (hts.of_suffix hmore))
      · have hmore := (List.suffix_cons ..).trans hrest
        exact .cons hfirst hmore (ih .fallback (hts.of_suffix hmore))
      · exact hrest.length_le

end Grammar

-- ---------------------------------------------------------------------------
-- Texts
-- ---------------------------------------------------------------------------

namespace Rule

theorem ofTokens_ok {tokens : List Token} {rules : List Rule} (h : ofTokens tokens = .ok rules) :
    Grammar.rules (tokens.map Token.lexeme) = .ok rules := by
  unfold ofTokens at h
  cases hr : Grammar.rules (tokens.map Token.lexeme) with
  | error failure => simp [hr, Except.mapError] at h
  | ok found => simpa [hr, Except.mapError] using h

theorem ofText_ok {raw : String} {rules : List Rule} (h : ofText raw = .ok rules) :
    ∃ tokens, Token.readAll raw = .ok tokens ∧ ofTokens tokens = .ok rules := by
  unfold ofText at h
  cases htokens : Token.readAll raw with
  | error e => simp [htokens, Except.mapError, bind, Except.bind] at h
  | ok tokens =>
    refine ⟨tokens, rfl, ?_⟩
    cases hrules : ofTokens tokens with
    | error e => simp [htokens, hrules, Except.mapError, bind, Except.bind] at h
    | ok found => simpa [htokens, hrules, Except.mapError, bind, Except.bind] using h

theorem ends_rules_of_readAll {raw : String} {tokens : List Token}
    (h : Token.readAll raw = .ok tokens) :
    Grammar.EndsRules .replace (tokens.map Token.lexeme)
      (Grammar.rules (tokens.map Token.lexeme)) := by
  refine Grammar.ends_rulesUpTo _ .replace fun t ht => ?_
  obtain ⟨token, htoken, rfl⟩ := List.mem_map.mp ht
  exact Token.readFrom_valid h token htoken

/-- The first rule of a text takes the place of all that was said before, which is nothing. -/
theorem ends_of_ofText {raw : String} {rules : List Rule} (h : ofText raw = .ok rules) :
    (∀ r ∈ rules, r.WellFormed) ∧ rules.head?.map Rule.layering = some .replace := by
  obtain ⟨tokens, htokens, hrules⟩ := ofText_ok h
  have ends := ends_rules_of_readAll htokens
  rw [ofTokens_ok hrules] at ends
  exact ends

theorem wellFormed_of_ofText {raw : String} {rules : List Rule} (h : ofText raw = .ok rules) :
    ∀ r ∈ rules, r.WellFormed :=
  (ends_of_ofText h).1

end Rule

end OpeningTimes
