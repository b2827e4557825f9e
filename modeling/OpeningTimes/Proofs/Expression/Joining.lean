import OpeningTimes.Proofs.Expression.Cutting
import OpeningTimes.Proofs.Expression.RulesAppended

/-!
# Expressions joined by separators

A separator between two texts ends the last lexeme of the first one, and rules do not reach over it.
So the rules of both are read, one after another.
-/

namespace OpeningTimes

open Text

-- ---------------------------------------------------------------------------
-- Lexemes before a separator
-- ---------------------------------------------------------------------------

namespace Lexeme

/-- A character that belongs to no word, number or clock. -/
def isStop (c : Char) : Bool := !c.isDigit && !c.isAlpha && c != ':'

variable {c stop : Char} {as bs : List Char} {t : Lexeme} {n : Nat}

theorem clock?_append_stop (hstop : isStop stop = true) (h : clock? c as = none) :
    clock? c (as ++ stop :: bs) = none := by
  simp only [isStop, Bool.and_eq_true, Bool.not_eq_true', bne_iff_ne] at hstop
  obtain ⟨⟨hdigit, -⟩, hcolon⟩ := hstop
  cases hfound : clock? c (as ++ stop :: bs) with
  | none => rfl
  | some found =>
    obtain ⟨t, n⟩ := found
    obtain ⟨more, a, b, rest, hour, minute, hcs, -, hhour, hminute, -, hn⟩ :=
      clock?_eq_some_iff.mp hfound
    have hwithin : stop ∉ more ++ [':', a, b] := by
      intro hmem
      have hd : stop.isDigit = true ∨ stop = ':' := by
        have hmore := isDigit_of_readDigits? hhour
        have hminutes := isDigit_of_readDigits? hminute
        simp only [List.mem_append, List.mem_cons, List.not_mem_nil, or_false] at hmem
        rcases hmem with hmem | rfl | rfl | rfl
        · exact .inl (hmore stop (.tail _ hmem))
        · exact .inr rfl
        · exact .inl (hminutes _ (by simp))
        · exact .inl (hminutes _ (by simp))
      rcases hd with hd | hd
      · exact Bool.false_ne_true (hdigit.symm.trans hd)
      · exact hcolon hd
    -- the clock would have to lie before the character
    have hle : n ≤ as.length := by
      by_contra hlong
      have hstart : as ++ [stop] <+: more ++ [':', a, b] :=
        List.prefix_of_prefix_length_le ⟨bs, by simp⟩ ⟨rest, hcs.symm⟩ (by simp at hn ⊢; omega)
      exact hwithin (hstart.subset (by simp))
    rw [clock?_of_append hfound hle] at h
    cases h

theorem Matches.append_stop (hstop : isStop stop = true) (h : Matches c as t n) (bs : List Char) :
    Matches c (as ++ stop :: bs) t n := by
  have hkinds : stop.isDigit = false ∧ stop.isAlpha = false := by
    simp only [isStop, Bool.and_eq_true, Bool.not_eq_true'] at hstop
    exact hstop.1
  cases h with
  | clock digit found => exact .clock digit (clock?_append found _)
  | number digit none_found =>
    rw [← takeWhile_append_stop hkinds.1 as bs]
    exact .number digit (clock?_append_stop hstop none_found)
  | word other letter means =>
    rw [← takeWhile_append_stop hkinds.2 as bs] at means ⊢
    exact .word other letter means
  | comment quote closed =>
    have hinside : (as ++ stop :: bs).takeWhile (· ≠ '"') = as.takeWhile (· ≠ '"') := by
      rw [List.takeWhile_append, if_neg (Nat.ne_of_lt closed)]
    rw [← hinside] at closed ⊢
    refine .comment quote (Nat.lt_of_lt_of_le closed ?_)
    exact (List.prefix_append as _).length_le
  | doubleBar bar another =>
    cases as with
    | nil => cases another
    | cons a as => exact .doubleBar bar another
  | mark means => exact .mark means

/-- Characters that are lexemes with blanks around them. -/
inductive Cut : List Char → List Lexeme → Prop where
  | nil : Cut [] []
  | blank {c cs ts} (blank : isBlank c = true) (rest : Cut cs ts) : Cut (c :: cs) ts
  | lexeme {c cs t n ts} (solid : isBlank c = false) (first : Matches c cs t n)
      (rest : Cut (cs.drop n) ts) :
    Cut (c :: cs) (t :: ts)

theorem Cut.append {ts us : List Lexeme} (hstop : isStop stop = true) (h : Cut as ts)
    (hrest : Cut (stop :: bs) us) : Cut (as ++ stop :: bs) (ts ++ us) := by
  induction h with
  | nil => exact hrest
  | blank blank rest ih => exact .blank blank ih
  | @lexeme c cs t n ts solid first rest ih =>
    have hdrop : (cs ++ stop :: bs).drop n = cs.drop n ++ stop :: bs :=
      List.drop_append_of_le_length first.length_le
    exact .lexeme solid (first.append_stop hstop bs) (hdrop ▸ ih)

theorem cut_separator (layering : Layering) {ts : List Lexeme} (h : Cut bs ts) :
    Cut (layering.separator.spelling ++ bs) (.mark layering.separator :: ts) := by
  cases layering with
  | replace => exact .lexeme rfl (.mark rfl) h
  | add => exact .lexeme rfl (.mark rfl) h
  | fallback => exact .lexeme rfl (.doubleBar rfl rfl) h

theorem Cut.joined {ts us : List Lexeme} (h : Cut as ts) (hrest : Cut bs us) (layering : Layering) :
    Cut (as ++ layering.separator.spelling ++ bs) (ts ++ .mark layering.separator :: us) := by
  have hnext := cut_separator layering hrest
  rw [List.append_assoc]
  cases layering <;> exact h.append rfl hnext

end Lexeme

-- ---------------------------------------------------------------------------
-- Texts
-- ---------------------------------------------------------------------------

namespace Token

theorem cut_of_readFrom {position taken : Nat} {cs : List Char} {tokens : List Token}
    (h : readFrom position taken cs = .ok tokens) :
    Lexeme.Cut (cs.drop taken) (tokens.map Token.lexeme) := by
  fun_induction readFrom position taken cs generalizing tokens with
  | case1 position taken =>
    cases h
    rw [List.drop_nil]
    exact .nil
  | case2 position taken c cs ih => exact ih h
  | case3 position c cs hblank ih => exact .blank hblank (ih h)
  | case4 => cases h
  | case5 position c cs hblank t n hread ih =>
    obtain ⟨more, hmore, h⟩ := Grammar.exists_of_bind_ok h
    cases h
    exact .lexeme (by simpa using hblank) (Lexeme.read_ok_iff.mp hread) (ih hmore)

theorem readFrom_of_cut {cs : List Char} {ts : List Lexeme} (h : Lexeme.Cut cs ts)
    (position : Nat) :
    ∃ tokens, readFrom position 0 cs = .ok tokens ∧ tokens.map Token.lexeme = ts := by
  induction h generalizing position with
  | nil => exact ⟨[], rfl, rfl⟩
  | @blank c cs ts blank rest ih =>
    obtain ⟨tokens, htokens, hlexemes⟩ := ih (position + c.utf8Size)
    exact ⟨tokens, (readFrom_blank blank).trans htokens, hlexemes⟩
  | @lexeme c cs t n ts solid first rest ih =>
    obtain ⟨tokens, htokens, rfl⟩ := ih (position + bytes (c :: cs.take n))
    refine ⟨⟨t, String.ofList (c :: cs.take n), position⟩ :: tokens, ?_, rfl⟩
    rw [readFrom_matches solid first, htokens]
    rfl

end Token

namespace Rule

theorem ofText_of_cut {raw : String} {ts : List Lexeme} {rs : List Rule}
    (hcut : Lexeme.Cut raw.toList ts) (hrules : Grammar.rules ts = .ok rs) :
    ofText raw = .ok rs := by
  obtain ⟨tokens, htokens, rfl⟩ := Token.readFrom_of_cut hcut 0
  have hall : Token.readAll raw = .ok tokens := htokens
  simp [ofText, ofTokens, hall, hrules, Except.mapError, bind, Except.bind]

theorem rules_of_ofText {raw : String} {tokens : List Token} {rs : List Rule}
    (htokens : Token.readAll raw = .ok tokens) (h : ofText raw = .ok rs) :
    Grammar.rules (tokens.map Token.lexeme) = .ok rs := by
  obtain ⟨found, hfound, hrules⟩ := ofText_ok h
  cases htokens.symm.trans hfound
  exact ofTokens_ok hrules

theorem modifyHead_replace_of_ofText {raw : String} {rs : List Rule} (h : ofText raw = .ok rs) :
    rs.modifyHead (fun r => { r with layering := .replace }) = rs := by
  have hfirst := (ends_of_ofText h).2
  cases rs with
  | nil => rfl
  | cons first more =>
    have hlayering : first.layering = .replace := by simpa using hfirst
    rw [List.modifyHead_cons, ← hlayering]

theorem ofText_separator {a b joined : String} {tokens : List Token} {ra rb : List Rule}
    (next : Layering) (htokens : Token.readAll a = .ok tokens) (ha : ofText a = .ok ra)
    (hb : ofText b = .ok rb) (hlast : ∀ t ∈ tokens.getLast?, t.lexeme ≠ .mark .semicolon)
    (hadd : next = .add → ∃ t ∈ tokens.getLast?, t.lexeme.isStatement = true)
    (hjoined : joined.toList = a.toList ++ next.separator.spelling ++ b.toList) :
    ofText joined = .ok (ra ++ rb.modifyHead fun r => { r with layering := next }) := by
  obtain ⟨others, hothers, -⟩ := ofText_ok hb
  have hcut := (Token.cut_of_readFrom htokens).joined (Token.cut_of_readFrom hothers) next
  refine ofText_of_cut (hjoined ▸ hcut) ?_
  refine Grammar.rules_append (rules_of_ofText htokens ha) ?_ ?_ (rules_of_ofText hothers hb)
  · rw [List.getLast?_map]
    intro hsemicolon
    obtain ⟨t, ht, hmark⟩ := Option.map_eq_some_iff.mp hsemicolon
    exact hlast t ht hmark
  · intro hnext
    obtain ⟨t, ht, hstatement⟩ := hadd hnext
    rw [Grammar.EndsStated, List.getLast?_map]
    exact ⟨t.lexeme, Option.mem_map_of_mem _ ht, hstatement⟩

/-- Texts joined by a separator are read one after the other. The first text must not end with a
semicolon. A comma would go on with a list, so what holds has to be said before it, or a comment. -/
theorem ofText_joined {a b : String} {tokens : List Token} {ra rb : List Rule}
    (htokens : Token.readAll a = .ok tokens) (ha : ofText a = .ok ra) (hb : ofText b = .ok rb)
    (hlast : ∀ t ∈ tokens.getLast?, t.lexeme ≠ .mark .semicolon) :
    ofText (a ++ ";" ++ b) = .ok (ra ++ rb) ∧
    ofText (a ++ "||" ++ b) = .ok (ra ++ rb.modifyHead fun r => { r with layering := .fallback }) ∧
    ((∃ t ∈ tokens.getLast?, t.lexeme.isStatement = true) →
      ofText (a ++ "," ++ b) = .ok (ra ++ rb.modifyHead fun r => { r with layering := .add })) := by
  refine ⟨?_, ?_, fun hstated => ?_⟩
  · rw [ofText_separator .replace htokens ha hb hlast (by simp)
      (by simp [Layering.separator, Mark.spelling]), modifyHead_replace_of_ofText hb]
  · exact ofText_separator .fallback htokens ha hb hlast (by simp)
      (by simp [Layering.separator, Mark.spelling])
  · exact ofText_separator .add htokens ha hb hlast (fun _ => hstated)
      (by simp [Layering.separator, Mark.spelling])

/-- Without what holds the comma would go on with the weekdays. -/
theorem ofText_joined_weekdays :
    ∃ tokens ra rb, Token.readAll "We off" = .ok tokens ∧ ofText "We off" = .ok ra ∧
      ofText "Sa 10:00-12:00, PH" = .ok rb ∧ (∀ t ∈ tokens.getLast?, t.lexeme ≠ .mark .semicolon) ∧
      (∃ t ∈ tokens.getLast?, t.lexeme.isStatement = true) ∧
      ofText ("We off" ++ ";" ++ "Sa 10:00-12:00, PH") = .ok (ra ++ rb) ∧
      ofText ("We off" ++ "||" ++ "Sa 10:00-12:00, PH")
        = .ok (ra ++ rb.modifyHead fun r => { r with layering := .fallback }) ∧
      ofText ("We off" ++ "," ++ "Sa 10:00-12:00, PH")
        = .ok (ra ++ rb.modifyHead fun r => { r with layering := .add }) := by
  have cut : Token.readAll "We off"
      = .ok [⟨.weekday .wednesday, "We", 0⟩, ⟨.keyword .off, "off", 3⟩] := rfl
  have first : ofText "We off"
      = .ok [⟨[], [], [], { weekdays := .ofDay .wednesday }, [], .closed, none, .replace⟩] := rfl
  have second : ofText "Sa 10:00-12:00, PH" = .ok
      [⟨[], [], [], { weekdays := .ofDay .saturday },
        [⟨.fixed 600, some (.fixed 720), false⟩], .opened, none, .replace⟩,
      ⟨[], [], [], { holidays := [.publicHoliday] }, [], .opened, none, .add⟩] := rfl
  have last : ∀ t ∈ [(⟨.weekday .wednesday, "We", 0⟩ : Token), ⟨.keyword .off, "off", 3⟩].getLast?,
      t.lexeme ≠ .mark .semicolon := by decide
  have stated :
      ∃ t ∈ [(⟨.weekday .wednesday, "We", 0⟩ : Token), ⟨.keyword .off, "off", 3⟩].getLast?,
        t.lexeme.isStatement = true := ⟨_, rfl, rfl⟩
  have joined := ofText_joined cut first second last
  exact ⟨_, _, _, cut, first, second, last, stated, joined.1, joined.2.1, joined.2.2 stated⟩

end Rule

end OpeningTimes
