import OpeningTimes.Console.Lines
import OpeningTimes.Hours
import OpeningTimes.Proofs.Expression.Cutting
import OpeningTimes.Proofs.Expression.RulesRead

/-!
# Where errors stand

A text that is not read is refused at a place between two of its characters. An error of the grammar
stands at one of the tokens and names it, or at the end of the last one where more was wanted.
-/

namespace OpeningTimes

open Text

-- ---------------------------------------------------------------------------
-- Places within a text
-- ---------------------------------------------------------------------------

/-- Some of the characters end at the place, counted from the place of the first one. -/
def Text.Splits (position : Nat) (cs : List Char) (place : Nat) : Prop :=
  ∃ before after, cs = before ++ after ∧ place = position + bytes before

theorem Text.Splits.start (position : Nat) (cs : List Char) : Splits position cs position :=
  ⟨[], cs, rfl, rfl⟩

theorem Text.Splits.append {position place : Nat} {as bs : List Char}
    (h : Splits (position + bytes as) bs place) : Splits position (as ++ bs) place := by
  obtain ⟨before, after, rfl, rfl⟩ := h
  exact ⟨as ++ before, after, (List.append_assoc ..).symm, by rw [bytes_append, Nat.add_assoc]⟩

theorem Text.bytes_toList (s : String) : bytes s.toList = s.utf8ByteSize := by
  rw [bytes, String.ofList_toList]

theorem Console.columnOf_bytes (before after : List Char) :
    columnOf (bytes before) (before ++ after) = before.length := by
  induction before with
  | nil => cases after <;> simp [columnOf]
  | cons c before ih =>
    have hc : c.utf8Size + bytes before ≠ 0 := Nat.ne_of_gt (Nat.add_pos_left c.utf8Size_pos _)
    rw [bytes_cons, List.cons_append, columnOf, if_neg hc, Nat.add_sub_cancel_left, ih,
      List.length_cons]

namespace Token

variable {position : Nat} {cs : List Char} {tokens : List Token}

theorem Spread.splits (h : Spread position cs tokens) :
    ∀ t ∈ tokens, Splits position cs t.position ∧ Splits position cs t.stop := by
  induction tokens generalizing position cs with
  | nil => simp
  | cons first more ih =>
    obtain ⟨gap, rest, rfl, -, hposition, -, hrest⟩ := h
    have hstop : first.stop = position + bytes (gap ++ first.text.toList) := by
      rw [Token.stop, hposition, bytes_append, bytes_toList, Nat.add_assoc]
    intro t ht
    rcases List.mem_cons.mp ht with rfl | ht
    · refine ⟨?_, hstop ▸ (Splits.start _ rest).append⟩
      rw [List.append_assoc, hposition]
      exact (Splits.start _ _).append
    · rw [hstop] at hrest
      exact ⟨(ih hrest t ht).1.append, (ih hrest t ht).2.append⟩

end Token

-- ---------------------------------------------------------------------------
-- Errors of the grammar
-- ---------------------------------------------------------------------------

namespace GrammarError

/-- The error is about the token with some index, or about the end where there is none. -/
def StandsAt (e : GrammarError) (tokens : List Token) (index : Nat) : Prop :=
  match tokens[index]? with
  | some t => e.position = t.position ∧ e.found = some t
  | none => e.position = (tokens.getLast?.map Token.stop).getD 0 ∧ e.found = none

variable {e : GrammarError} {tokens : List Token} {index : Nat}

theorem ofFailure_standsAt (tokens : List Token) (failure : Grammar.Failure) :
    (ofFailure tokens failure).StandsAt tokens (tokens.length - failure.left) := by
  unfold StandsAt ofFailure
  cases tokens[tokens.length - failure.left]? <;> exact ⟨rfl, rfl⟩

@[simp] theorem ofFailure_expected (tokens : List Token) (failure : Grammar.Failure) :
    (ofFailure tokens failure).expected = failure.expected := by
  unfold ofFailure
  split <;> rfl

theorem StandsAt.token_or_end (h : e.StandsAt tokens index) :
    (∃ t ∈ tokens, e.position = t.position ∧ e.foundText = t.quoted) ∨
      (e.foundText = "end of input" ∧ e.position = (tokens.getLast?.map Token.stop).getD 0) := by
  unfold StandsAt at h
  split at h
  · rename_i t ht
    exact .inl ⟨t, List.mem_of_getElem? ht, h.1, by rw [foundText, h.2]⟩
  · exact .inr ⟨by rw [foundText, h.2], h.1⟩

theorem StandsAt.splits {cs : List Char} (h : e.StandsAt tokens index)
    (hspread : Token.Spread 0 cs tokens) :
    Splits 0 cs e.position := by
  rcases h.token_or_end with ⟨t, ht, hposition, -⟩ | ⟨-, hposition⟩
  · rw [hposition]
    exact (hspread.splits t ht).1
  · rw [hposition]
    cases hlast : tokens.getLast? with
    | none => exact .start 0 cs
    | some t => exact (hspread.splits t (List.mem_of_getLast? hlast)).2

end GrammarError

-- ---------------------------------------------------------------------------
-- Texts that are refused
-- ---------------------------------------------------------------------------

namespace Rule

theorem ofText_of_tokens {raw : String} {tokens : List Token} (h : Token.readAll raw = .ok tokens) :
    ofText raw = (Grammar.rules (tokens.map Token.lexeme)).mapError fun failure =>
      .grammar (.ofFailure tokens failure) := by
  rw [ofText, h]
  change (ofTokens tokens).mapError ParseError.grammar = _
  rw [ofTokens]
  cases Grammar.rules (tokens.map Token.lexeme) <;> rfl

theorem ofText_of_fault {raw : String} {fault : TokenError} (h : Token.readAll raw = .error fault) :
    ofText raw = .error (.token fault) := by
  rw [ofText, h]
  rfl

theorem readAll_of_fault {raw : String} {fault : TokenError}
    (h : ofText raw = .error (.token fault)) :
    Token.readAll raw = .error fault := by
  cases htokens : Token.readAll raw with
  | error other =>
    rw [ofText_of_fault htokens] at h
    cases h
    rfl
  | ok tokens =>
    rw [ofText_of_tokens htokens] at h
    cases hrules : Grammar.rules (tokens.map Token.lexeme) <;> rw [hrules] at h <;> cases h

/-- An error of the grammar stands at the first of the tokens that were left when reading failed. -/
theorem readAll_of_grammarError {raw : String} {g : GrammarError}
    (h : ofText raw = .error (.grammar g)) :
    ∃ read left, Token.readAll raw = .ok (read ++ left) ∧
      Grammar.rules ((read ++ left).map Token.lexeme) = .error ⟨g.expected, left.length⟩ ∧
      g.StandsAt (read ++ left) read.length := by
  cases htokens : Token.readAll raw with
  | error fault => rw [ofText_of_fault htokens] at h; cases h
  | ok tokens =>
    have hends := ends_rules_of_readAll htokens
    rw [ofText_of_tokens htokens] at h
    cases hrules : Grammar.rules (tokens.map Token.lexeme) with
    | ok rs => rw [hrules] at h; cases h
    | error failure =>
      rw [hrules] at h hends
      cases h
      have hleft : failure.left ≤ tokens.length := List.length_map Token.lexeme ▸ hends
      refine ⟨tokens.take (tokens.length - failure.left),
        tokens.drop (tokens.length - failure.left), ?_⟩
      rw [List.take_append_drop, List.length_drop, List.length_take_of_le (Nat.sub_le ..),
        Nat.sub_sub_self hleft, hrules, GrammarError.ofFailure_expected]
      exact ⟨rfl, rfl, GrammarError.ofFailure_standsAt tokens failure⟩

theorem splits_of_ofText {raw : String} {e : ParseError} (h : ofText raw = .error e) :
    Splits 0 raw.toList e.position := by
  have hcut := Token.readFrom_cuts 0 0 raw.toList
  rw [List.take_zero, List.drop_zero, bytes_nil, ← Token.readAll] at hcut
  cases e with
  | token fault =>
    rw [readAll_of_fault h] at hcut
    obtain ⟨before, c, after, hraw, hposition, -⟩ := hcut
    exact ⟨before, c :: after, hraw, hposition⟩
  | grammar g =>
    obtain ⟨read, left, htokens, -, hstands⟩ := readAll_of_grammarError h
    rw [htokens] at hcut
    exact hstands.splits hcut

end Rule

namespace Hours

theorem ofText_error {raw : String} {e : ParseError} (h : ofText raw = .error e) :
    Rule.ofText raw = .error e := by
  cases hrules : Rule.ofText raw with
  | ok rs => rw [ofText, hrules] at h; cases h
  | error other => rw [ofText, hrules] at h; cases h; rfl

/-- A text that is refused is refused at a place within it, under which the mark of the error is
shown. -/
theorem error_points_into_text {raw : String} {e : ParseError} (h : ofText raw = .error e) :
    (⟨e.position⟩ : String.Pos.Raw).IsValid raw ∧ e.position ≤ raw.utf8ByteSize ∧
    (∀ g, e = .grammar g → ∃ tokens, Token.readAll raw = .ok tokens ∧
      ((∃ t ∈ tokens, g.position = t.position ∧ g.foundText = "'" ++ t.text ++ "'") ∨
        (g.foundText = "end of input" ∧ g.position = (tokens.getLast?.map Token.stop).getD 0))) ∧
    ∃ shown hidden, raw = shown ++ hidden ∧ shown.utf8ByteSize = e.position ∧
      Console.columnOf e.position raw.toList = shown.length := by
  have hrules := ofText_error h
  obtain ⟨before, after, hraw, hposition⟩ := Rule.splits_of_ofText hrules
  have hsplit : raw = String.ofList before ++ String.ofList after := by
    rw [← String.ofList_append, ← hraw, String.ofList_toList]
  have hsize : (String.ofList before).utf8ByteSize = e.position := by
    rw [hposition, Nat.zero_add, bytes]
  refine ⟨?_, ?_, ?_, String.ofList before, String.ofList after, hsplit, hsize, ?_⟩
  · exact String.Pos.Raw.isValid_iff_exists_append.mpr ⟨_, _, hsplit, by rw [← hsize]; rfl⟩
  · rw [hsplit, String.utf8ByteSize_append, hsize]
    exact Nat.le_add_right ..
  · rintro g rfl
    obtain ⟨read, left, htokens, -, hstands⟩ := Rule.readAll_of_grammarError hrules
    exact ⟨read ++ left, htokens, hstands.token_or_end⟩
  · rw [hposition, Nat.zero_add, hraw, Console.columnOf_bytes, String.length_ofList]

/-- The letter in the comment takes two bytes, so the mark stands one column before the place. -/
theorem error_points_after_two_bytes :
    ofText "Mo \"é\" Tu" = .error (.grammar ⟨8, .separator, some ⟨.weekday .tuesday, "Tu", 8⟩⟩) ∧
    (⟨8⟩ : String.Pos.Raw).IsValid "Mo \"é\" Tu" ∧
    ∃ shown hidden, "Mo \"é\" Tu" = shown ++ hidden ∧ shown.utf8ByteSize = 8 ∧
      Console.columnOf 8 "Mo \"é\" Tu".toList = shown.length := by
  have refused : ofText "Mo \"é\" Tu"
      = .error (.grammar ⟨8, .separator, some ⟨.weekday .tuesday, "Tu", 8⟩⟩) := by rfl
  obtain ⟨hvalid, -, -, hshown⟩ := error_points_into_text refused
  exact ⟨refused, hvalid, hshown⟩

end Hours

end OpeningTimes
