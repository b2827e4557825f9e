import OpeningTimes.Proofs.Expression.Spelling

/-!
# Where a text is cut

Tokens lose nothing of their text: between them there are only blanks, each stands at its place, and
each is read as it is when nothing stands around it. An error stands before a character that is no
blank, and what comes before it is cut into tokens.
-/

namespace OpeningTimes

open Text

-- ---------------------------------------------------------------------------
-- Runs of characters
-- ---------------------------------------------------------------------------

theorem takeWhile_of_append {p : Char → Bool} {as bs : List Char}
    (h : ((as ++ bs).takeWhile p).length ≤ as.length) :
    (as ++ bs).takeWhile p = as.takeWhile p := by
  rw [List.takeWhile_append] at h ⊢
  split
  · rename_i hall
    rw [if_pos hall, List.length_append] at h
    have hnone : bs.takeWhile p = [] := List.eq_nil_of_length_eq_zero (by omega)
    rw [hnone, List.append_nil]
    exact ((List.takeWhile_prefix p).eq_of_length hall).symm
  · rfl

theorem takeWhile_append_stop {p : Char → Bool} {stop : Char} (hstop : p stop = false)
    (as bs : List Char) : (as ++ stop :: bs).takeWhile p = as.takeWhile p := by
  rw [List.takeWhile_append]
  split
  · rename_i hall
    rw [List.takeWhile_cons_of_neg (by simp [hstop]), List.append_nil]
    exact ((List.takeWhile_prefix p).eq_of_length hall).symm
  · rfl

-- ---------------------------------------------------------------------------
-- Lexemes
-- ---------------------------------------------------------------------------

namespace Lexeme

/-- What a character and some of those after it are read as, with how many of those these are. -/
inductive Matches (c : Char) (cs : List Char) : Lexeme → Nat → Prop where
  | clock {t n} (digit : c.isDigit = true) (found : clock? c cs = some (t, n)) : Matches c cs t n
  | number (digit : c.isDigit = true) (none_found : clock? c cs = none) :
    Matches c cs (.number (min (digitsValue (c :: cs.takeWhile Char.isDigit)) numberLimit)
      ((cs.takeWhile Char.isDigit).length + 1)) (cs.takeWhile Char.isDigit).length
  | word {t} (other : c.isDigit = false) (letter : c.isAlpha = true)
    (means : ofWord? (c :: cs.takeWhile Char.isAlpha) = some t) :
    Matches c cs t (cs.takeWhile Char.isAlpha).length
  | comment (quote : c = '"') (closed : (cs.takeWhile (· ≠ '"')).length < cs.length) :
    Matches c cs (.comment (String.ofList (cs.takeWhile (· ≠ '"'))))
      ((cs.takeWhile (· ≠ '"')).length + 1)
  | doubleBar (bar : c = '|') (another : cs.head? = some '|') : Matches c cs (.mark .doubleBar) 1
  | mark {m} (means : Mark.ofChar? c = some m) : Matches c cs (.mark m) 0

theorem read_of_mark {c : Char} {m : Mark} (h : Mark.ofChar? c = some m) (cs : List Char) :
    read c cs = .ok (.mark m, 0) := by
  unfold Mark.ofChar? at h
  split at h <;> cases h <;> rfl

theorem read_ok_iff {c : Char} {cs : List Char} {t : Lexeme} {n : Nat} :
    read c cs = .ok (t, n) ↔ Matches c cs t n := by
  constructor
  · intro h
    unfold read at h
    simp only at h
    split at h
    · rename_i digit
      split at h
      · rename_i found hclock
        cases h
        exact .clock digit hclock
      · rename_i hclock
        cases h
        exact .number digit hclock
    · rename_i other
      split at h
      · rename_i letter
        split at h <;> cases h
        exact .word (by simpa using other) letter ‹_›
      · split at h
        · rename_i quote
          split at h <;> cases h
          exact .comment quote ‹_›
        · split at h
          · rename_i bar
            split at h <;> cases h
            exact .doubleBar bar ‹_›
          · split at h <;> cases h
            exact .mark ‹_›
  · intro h
    cases h with
    | clock digit found => simp [read, digit, found]
    | number digit none_found => simp [read, digit, none_found]
    | word other letter means => simp [read, other, letter, means]
    | comment quote closed =>
      subst quote
      simp only [read]
      rw [if_neg (by decide), if_neg (by decide), if_pos trivial, if_pos closed]
    | doubleBar bar another =>
      subst bar
      simp only [read]
      rw [if_neg (by decide), if_neg (by decide), if_neg (by decide), if_pos trivial,
        if_pos another]
    | mark means => exact read_of_mark means cs

theorem clock?_eq_some_iff {c : Char} {cs : List Char} {t : Lexeme} {n : Nat} :
    clock? c cs = some (t, n) ↔ ∃ more a b rest hour minute, cs = (more ++ [':', a, b]) ++ rest ∧
      more.length ≤ 1 ∧ readDigits? (c :: more) = some hour ∧ readDigits? [a, b] = some minute ∧
      t = .clock hour minute ∧ n = (more ++ [':', a, b]).length := by
  constructor
  · intro h
    unfold clock? at h
    split at h
    · simp only [Option.bind_eq_bind, Option.bind_eq_some_iff, pure, Option.some.injEq,
        Prod.mk.injEq] at h
      obtain ⟨hour, hhour, minute, hminute, rfl, rfl⟩ := h
      exact ⟨[], _, _, _, hour, minute, rfl, Nat.zero_le 1, hhour, hminute, rfl, rfl⟩
    · simp only [Option.bind_eq_bind, Option.bind_eq_some_iff, pure, Option.some.injEq,
        Prod.mk.injEq] at h
      obtain ⟨hour, hhour, minute, hminute, rfl, rfl⟩ := h
      exact ⟨[_], _, _, _, hour, minute, rfl, Nat.le_refl 1, hhour, hminute, rfl, rfl⟩
    · cases h
  · rintro ⟨more, a, b, rest, hour, minute, rfl, hmore, hhour, hminute, rfl, rfl⟩
    match more, hmore with
    | [], _ => simp [clock?, hhour, hminute]
    | [d], _ =>
      have hd : d ≠ ':' := by
        rintro rfl
        simp [readDigits?] at hhour
      simp [clock?, hhour, hminute]

theorem clock?_append {c : Char} {as : List Char} {t : Lexeme} {n : Nat}
    (h : clock? c as = some (t, n)) (bs : List Char) : clock? c (as ++ bs) = some (t, n) := by
  obtain ⟨more, a, b, rest, hour, minute, rfl, hmore, hhour, hminute, rfl, rfl⟩ :=
    clock?_eq_some_iff.mp h
  exact clock?_eq_some_iff.mpr
    ⟨more, a, b, rest ++ bs, hour, minute, List.append_assoc .., hmore, hhour, hminute, rfl, rfl⟩

theorem clock?_of_append {c : Char} {as bs : List Char} {t : Lexeme} {n : Nat}
    (h : clock? c (as ++ bs) = some (t, n)) (hn : n ≤ as.length) : clock? c as = some (t, n) := by
  obtain ⟨more, a, b, rest, hour, minute, hcs, hmore, hhour, hminute, rfl, rfl⟩ :=
    clock?_eq_some_iff.mp h
  have hwithin : more ++ [':', a, b] <+: as :=
    List.prefix_of_prefix_length_le ⟨rest, hcs.symm⟩ (List.prefix_append as bs) hn
  obtain ⟨rest', rfl⟩ := hwithin
  exact clock?_eq_some_iff.mpr
    ⟨more, a, b, rest', hour, minute, rfl, hmore, hhour, hminute, rfl, rfl⟩

namespace Matches

variable {c : Char} {t : Lexeme} {n : Nat}

theorem length_le {cs : List Char} (h : Matches c cs t n) : n ≤ cs.length := by
  cases h with
  | clock digit found =>
    obtain ⟨more, a, b, rest, hour, minute, rfl, -, -, -, -, rfl⟩ := clock?_eq_some_iff.mp found
    exact (List.prefix_append _ rest).length_le
  | number digit none_found => exact (List.takeWhile_prefix _).length_le
  | word other letter means => exact (List.takeWhile_prefix _).length_le
  | comment quote closed => exact closed
  | doubleBar bar another =>
    cases cs with
    | nil => cases another
    | cons c cs => exact Nat.le_add_left ..
  | mark means => exact Nat.zero_le _

theorem of_append {as bs : List Char} (h : Matches c (as ++ bs) t n) (hn : n ≤ as.length) :
    Matches c as t n := by
  cases h with
  | clock digit found => exact .clock digit (clock?_of_append found hn)
  | number digit none_found =>
    rw [takeWhile_of_append hn]
    refine .number digit ?_
    cases hclock : clock? c as with
    | none => rfl
    | some found => rw [clock?_append hclock bs] at none_found; cases none_found
  | word other letter means =>
    rw [takeWhile_of_append hn] at means ⊢
    exact .word other letter means
  | comment quote closed =>
    have hinside := takeWhile_of_append (Nat.le_of_succ_le hn)
    rw [hinside] at hn ⊢
    exact .comment quote hn
  | doubleBar bar another =>
    cases as with
    | nil => cases hn
    | cons a as => exact .doubleBar bar another
  | mark means => exact .mark means

end Matches

end Lexeme

-- ---------------------------------------------------------------------------
-- Tokens
-- ---------------------------------------------------------------------------

namespace Token

/-- A token whose text says the same where nothing stands around it. -/
def StandsAlone (t : Token) : Prop :=
  t.text ≠ "" ∧ readAll t.text = .ok [⟨t.lexeme, t.text, 0⟩]

/-- Characters from some place on are the tokens, each at its own place, with only blanks around
them. -/
def Spread (position : Nat) (cs : List Char) : List Token → Prop
  | [] => ∀ c ∈ cs, isBlank c = true
  | t :: ts => ∃ gap rest, cs = gap ++ t.text.toList ++ rest ∧ (∀ c ∈ gap, isBlank c = true) ∧
      t.position = position + bytes gap ∧ t.StandsAlone ∧ Spread t.stop rest ts

/-- An error stands at a character that is no blank, after characters that are cut into tokens. -/
def FailsAt (position : Nat) (cs : List Char) (e : TokenError) : Prop :=
  ∃ before c after, cs = before ++ c :: after ∧ e.position = position + bytes before ∧
    isBlank c = false ∧ ∃ tokens, readFrom position 0 before = .ok tokens

variable {position : Nat} {c : Char} {cs : List Char} {t : Lexeme} {n : Nat}

theorem readFrom_blank (hblank : isBlank c = true) :
    readFrom position 0 (c :: cs) = readFrom (position + c.utf8Size) 0 cs := by
  rw [readFrom, if_pos hblank]

theorem readFrom_matches (hblank : isBlank c = false) (h : Lexeme.Matches c cs t n) :
    readFrom position 0 (c :: cs) = (do
      let tokens ← readFrom (position + bytes (c :: cs.take n)) 0 (cs.drop n)
      return ⟨t, String.ofList (c :: cs.take n), position⟩ :: tokens) := by
  have htaken := readFrom_taken (position + c.utf8Size) (cs.take n) (cs.drop n)
  rw [List.take_append_drop, List.length_take_of_le h.length_le] at htaken
  rw [readFrom, if_neg (by simp [hblank]), Lexeme.read_ok_iff.mpr h]
  simp only [htaken, bytes_cons, Nat.add_assoc]

theorem standsAlone_of_matches (hblank : isBlank c = false) (h : Lexeme.Matches c cs t n) :
    StandsAlone ⟨t, String.ofList (c :: cs.take n), position⟩ := by
  have hlength : (cs.take n).length = n := List.length_take_of_le h.length_le
  have halone : Lexeme.Matches c (cs.take n) t n := by
    rw [← List.take_append_drop n cs] at h
    exact h.of_append (Nat.le_of_eq hlength.symm)
  refine ⟨?_, ?_⟩
  · simp
  · rw [readAll, String.toList_ofList, readFrom_matches hblank halone, List.take_take, Nat.min_self,
      List.drop_of_length_le (Nat.le_of_eq hlength)]
    rfl

theorem Spread.blank {tokens : List Token} (hblank : isBlank c = true)
    (h : Spread (position + c.utf8Size) cs tokens) : Spread position (c :: cs) tokens := by
  cases tokens with
  | nil => exact List.forall_mem_cons.mpr ⟨hblank, h⟩
  | cons t ts =>
    obtain ⟨gap, rest, rfl, hgap, hposition, halone, hrest⟩ := h
    exact ⟨c :: gap, rest, rfl, List.forall_mem_cons.mpr ⟨hblank, hgap⟩,
      by rw [hposition, bytes_cons, Nat.add_assoc], halone, hrest⟩

theorem FailsAt.blank {e : TokenError} (hblank : isBlank c = true)
    (h : FailsAt (position + c.utf8Size) cs e) : FailsAt position (c :: cs) e := by
  obtain ⟨before, d, after, rfl, hposition, hd, tokens, htokens⟩ := h
  exact ⟨c :: before, d, after, rfl, by rw [hposition, bytes_cons, Nat.add_assoc], hd, tokens,
    (readFrom_blank hblank).trans htokens⟩

theorem Spread.token {tokens : List Token} (hblank : isBlank c = false)
    (h : Lexeme.Matches c cs t n)
    (hrest : Spread (position + bytes (c :: cs.take n)) (cs.drop n) tokens) :
    Spread position (c :: cs) (⟨t, String.ofList (c :: cs.take n), position⟩ :: tokens) :=
  ⟨[], cs.drop n, by simp, by simp, by simp, standsAlone_of_matches hblank h, hrest⟩

theorem FailsAt.token {e : TokenError} (hblank : isBlank c = false) (h : Lexeme.Matches c cs t n)
    (hrest : FailsAt (position + bytes (c :: cs.take n)) (cs.drop n) e) :
    FailsAt position (c :: cs) e := by
  obtain ⟨before, d, after, hdrop, hposition, hd, tokens, htokens⟩ := hrest
  have hcs : cs = (cs.take n ++ before) ++ d :: after := by
    rw [List.append_assoc, ← hdrop, List.take_append_drop]
  have hlength : (cs.take n).length = n := List.length_take_of_le h.length_le
  -- The lexeme lies before the error, so it is read without what comes after.
  have hbefore : Lexeme.Matches c (cs.take n ++ before) t n := by
    rw [hcs] at h
    refine h.of_append ?_
    rw [List.length_append, hlength]
    exact Nat.le_add_right ..
  have hread : readFrom position 0 (c :: (cs.take n ++ before))
      = .ok (⟨t, String.ofList (c :: cs.take n), position⟩ :: tokens) := by
    rw [readFrom_matches hblank hbefore, List.take_left' hlength, List.drop_left' hlength, htokens]
    rfl
  refine ⟨c :: (cs.take n ++ before), d, after, congrArg (c :: ·) hcs, ?_, hd, _, hread⟩
  simp only [hposition, bytes_cons, bytes_append, Nat.add_assoc]

/-- What reading comes to: tokens that are spread over the characters, or an error among them. -/
def CutAs (position : Nat) (cs : List Char) : Except TokenError (List Token) → Prop
  | .ok tokens => Spread position cs tokens
  | .error e => FailsAt position cs e

theorem CutAs.blank {r : Except TokenError (List Token)} (hblank : isBlank c = true)
    (h : CutAs (position + c.utf8Size) cs r) : CutAs position (c :: cs) r := by
  cases r with
  | ok tokens => exact Spread.blank hblank h
  | error e => exact FailsAt.blank hblank h

theorem CutAs.token {r : Except TokenError (List Token)} (hblank : isBlank c = false)
    (h : Lexeme.Matches c cs t n)
    (hrest : CutAs (position + bytes (c :: cs.take n)) (cs.drop n) r) :
    CutAs position (c :: cs) (do
      let tokens ← r
      return ⟨t, String.ofList (c :: cs.take n), position⟩ :: tokens) := by
  cases r with
  | ok tokens => exact Spread.token hblank h hrest
  | error e => exact FailsAt.token hblank h hrest

/-- The characters that belong to a token that has been read already are left out. -/
theorem readFrom_cuts (position taken : Nat) (cs : List Char) :
    CutAs (position + bytes (cs.take taken)) (cs.drop taken) (readFrom position taken cs) := by
  fun_induction readFrom position taken cs with
  | case1 position taken => simp [CutAs, Spread]
  | case2 position taken c cs ih =>
    rw [List.take_succ_cons, List.drop_succ_cons, bytes_cons, ← Nat.add_assoc]
    exact ih
  | case3 position c cs hblank ih => exact CutAs.blank hblank ih
  | case4 position c cs hblank fault hread =>
    exact ⟨[], c, cs, rfl, rfl, by simpa using hblank, [], rfl⟩
  | case5 position c cs hblank t n hread ih =>
    rw [Nat.add_assoc, ← bytes_cons] at ih
    exact CutAs.token (by simpa using hblank) (Lexeme.read_ok_iff.mp hread) ih

/-- Nothing of a text is lost. Its tokens are spread over it, or the error stands at a character
within it that is no blank, and what comes before this character is cut into tokens. -/
theorem readAll_loses_nothing (raw : String) :
    match readAll raw with
    | .ok tokens => Spread 0 raw.toList tokens
    | .error e => ∃ before c after, raw.toList = before ++ c :: after ∧ e.position = bytes before ∧
        e.position < raw.utf8ByteSize ∧ isBlank c = false ∧
        ∃ tokens, readAll (String.ofList before) = .ok tokens := by
  have hcut := readFrom_cuts 0 0 raw.toList
  rw [readAll]
  cases hread : readFrom 0 0 raw.toList with
  | ok tokens =>
    rw [hread] at hcut
    exact hcut
  | error e =>
    rw [hread] at hcut
    obtain ⟨before, c, after, hraw, hposition, hblank, tokens, htokens⟩ := hcut
    rw [List.drop_zero] at hraw
    rw [List.take_zero, bytes_nil, Nat.zero_add] at hposition htokens
    have hsize : raw.utf8ByteSize = bytes before + (c.utf8Size + bytes after) := by
      rw [← bytes_cons, ← bytes_append, ← hraw, bytes, String.ofList_toList]
    have hc : 0 < c.utf8Size := c.utf8Size_pos
    refine ⟨before, c, after, hraw, hposition, by omega, hblank, tokens, ?_⟩
    rw [readAll, String.toList_ofList]
    exact htokens

/-- Two bytes for the letter in the comment. -/
example :
    (readAll "Mo  10:00 \"é\" || Tu").toOption.map (·.map Token.position) =
      some [0, 4, 10, 15, 18] := by
  decide

end Token

end OpeningTimes
