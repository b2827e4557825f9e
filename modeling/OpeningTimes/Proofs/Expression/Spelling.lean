import Mathlib.Algebra.Group.Nat.Defs
import Mathlib.Data.List.TakeWhile
import OpeningTimes.Proofs.Expression.WellFormed
import OpeningTimes.Proofs.Text.Digits

/-!
# Writing lexemes

Lexemes are written one after another with a blank after each, and read back as they are. A number
takes its digits from its width, so it must fit in; a comment cannot hold its own closing quote.
-/

namespace OpeningTimes

open Text

theorem Text.isBlank_eq_false_of_isDigit {c : Char} (h : c.isDigit = true) : isBlank c = false := by
  have hcode : 48 ≤ c.toNat ∧ c.toNat ≤ 57 := Char.isDigit_iff_toNat.mp h
  simp only [isBlank, Bool.or_eq_false_iff, Bool.and_eq_false_iff, beq_eq_false_iff_ne,
    decide_eq_false_iff_not]
  omega

-- ---------------------------------------------------------------------------
-- Places
-- ---------------------------------------------------------------------------

def Text.bytes (cs : List Char) : Nat := (String.ofList cs).utf8ByteSize

@[simp] theorem Text.bytes_nil : bytes [] = 0 := rfl

@[simp] theorem Text.bytes_cons (c : Char) (cs : List Char) :
    bytes (c :: cs) = c.utf8Size + bytes cs := by
  simp [bytes, String.ofList_cons]

@[simp] theorem Text.bytes_append (cs ds : List Char) : bytes (cs ++ ds) = bytes cs + bytes ds := by
  simp [bytes]

-- ---------------------------------------------------------------------------
-- Spelling
-- ---------------------------------------------------------------------------

def Mark.spelling : Mark → List Char
  | .dash => ['-']
  | .comma => [',']
  | .semicolon => [';']
  | .colon => [':']
  | .slash => ['/']
  | .doubleBar => ['|', '|']
  | .plus => ['+']
  | .leftBracket => ['[']
  | .rightBracket => [']']
  | .leftParen => ['(']
  | .rightParen => [')']

theorem takeWhile_until {p : Char → Bool} {cs : List Char} {stop : Char} (h : ∀ c ∈ cs, p c = true)
    (hstop : p stop = false) (rest : List Char) : (cs ++ stop :: rest).takeWhile p = cs := by
  rw [List.takeWhile_append_of_pos h, List.takeWhile_cons_of_neg (by simp [hstop]), List.append_nil]

namespace Lexeme

/-- The first of the words that mean a lexeme. -/
def word (t : Lexeme) : List Char :=
  ((words.find? fun entry => entry.2 = t).map fun entry => entry.1.toList).getD []

def spelling : Lexeme → List Char
  | .weekday w => word (.weekday w)
  | .month m => word (.month m)
  | .number value width => fixedDigits width value
  | .clock hour minute => fixedDigits 2 hour ++ ':' :: fixedDigits 2 minute
  | .keyword k => word (.keyword k)
  | .mark m => m.spelling
  | .comment text => '"' :: text.toList ++ ['"']

/-- A lexeme that its spelling is read as. -/
def Spellable : Lexeme → Prop
  | .month m => IsMonth m
  | .number value width => 0 < width ∧ value < 10 ^ width ∧ value ≤ numberLimit
  | .clock hour minute => hour < 100 ∧ minute < 100
  | .comment text => '"' ∉ text.toList
  | _ => True

@[simp] theorem spellable_weekday (w : Weekday) : (weekday w).Spellable := trivial

@[simp] theorem spellable_month {m : Nat} : (month m).Spellable ↔ IsMonth m := Iff.rfl

@[simp] theorem spellable_keyword (k : Keyword) : (keyword k).Spellable := trivial

@[simp] theorem spellable_mark (m : Mark) : (mark m).Spellable := trivial

/-- Nine digits never reach the limit of numbers. -/
theorem spellable_number {value width : Nat} (hpos : 0 < width) (hwidth : width ≤ 9)
    (hfits : value < 10 ^ width) : (number value width).Spellable := by
  refine ⟨hpos, hfits, Nat.le_of_lt ?_⟩
  calc value < 10 ^ width := hfits
    _ ≤ 10 ^ 9 := Nat.pow_le_pow_right (by decide) hwidth
    _ ≤ numberLimit := by decide

/-- A spelling with a blank after it is read as the lexeme and nothing more. -/
def ReadsBack (t : Lexeme) : Prop :=
  ∀ rest, ∃ c cs, t.spelling = c :: cs ∧ isBlank c = false ∧
    read c (cs ++ ' ' :: rest) = .ok (t, cs.length)

theorem letters_of_mem_words : ∀ entry ∈ words, entry.1.toList ≠ [] ∧
    (entry.1.toList.all fun c => c.isAlpha && !c.isDigit && !isBlank c) = true ∧
    ofWord? entry.1.toList = some entry.2 := by
  decide +kernel

theorem readsBack_word {t : Lexeme} (hspelling : t.spelling = t.word)
    (hword : (words.find? fun entry => entry.2 = t).isSome) : t.ReadsBack := by
  intro rest
  obtain ⟨entry, hentry⟩ := Option.isSome_iff_exists.mp hword
  obtain ⟨hne, hletters, hmeans⟩ := letters_of_mem_words entry (List.mem_of_find?_eq_some hentry)
  simp only [List.all_eq_true, Bool.and_eq_true, Bool.not_eq_true'] at hletters
  have heq : entry.2 = t := by simpa using List.find?_some hentry
  have htext : t.spelling = entry.1.toList := by rw [hspelling, word, hentry]; rfl
  cases hchars : entry.1.toList with
  | nil => exact absurd hchars hne
  | cons c cs =>
    rw [hchars] at hletters hmeans
    obtain ⟨⟨halpha, hdigit⟩, hblank⟩ := hletters c (by simp)
    have htaken : (cs ++ ' ' :: rest).takeWhile Char.isAlpha = cs :=
      takeWhile_until (fun c hc => (hletters c (.tail _ hc)).1.1) rfl rest
    refine ⟨c, cs, htext.trans hchars, hblank, ?_⟩
    simp [read, hdigit, halpha, htaken, hmeans, heq]

/-- A blank ends a number before any colon that would make it a clock. -/
theorem clock?_of_digits {c : Char} {cs rest : List Char}
    (hcs : ∀ d ∈ cs, d.isDigit = true) : clock? c (cs ++ ' ' :: rest) = none := by
  cases cs with
  | nil =>
    unfold clock?
    split
    · rename_i heq
      cases heq
    · rename_i heq
      cases heq
      simp [readDigits?]
    · rfl
  | cons d cs =>
    have hd : d ≠ ':' := by rintro rfl; exact absurd (hcs ':' (by simp)) (by decide)
    cases cs with
    | nil => simp [clock?, hd]
    | cons e cs =>
      have he : e ≠ ':' := by rintro rfl; exact absurd (hcs ':' (by simp)) (by decide)
      simp [clock?, hd, he]

theorem readsBack_number {value width : Nat} (h : (number value width).Spellable) :
    (number value width).ReadsBack := by
  intro rest
  obtain ⟨hwidth, hfits, hlimit⟩ := h
  have hdigits : ∀ d ∈ fixedDigits width value, d.isDigit = true := isDigit_of_mem_fixedDigits
  have hvalue := digitsValue_fixedDigits width value
  have hlength := length_fixedDigits width value
  simp only [spelling]
  cases hchars : fixedDigits width value with
  | nil => simp [hchars] at hlength; omega
  | cons c cs =>
    rw [hchars] at hdigits hvalue hlength
    have hc : c.isDigit = true := hdigits c (by simp)
    have hcs : ∀ d ∈ cs, d.isDigit = true := fun d hd => hdigits d (.tail _ hd)
    have htaken : (cs ++ ' ' :: rest).takeWhile Char.isDigit = cs := takeWhile_until hcs rfl rest
    rw [List.length_cons] at hlength
    refine ⟨c, cs, rfl, isBlank_eq_false_of_isDigit hc, ?_⟩
    simp [read, hc, clock?_of_digits hcs, htaken, hvalue, hlength, Nat.mod_eq_of_lt hfits, hlimit]

theorem readsBack_clock {hour minute : Nat} (h : (clock hour minute).Spellable) :
    (clock hour minute).ReadsBack := by
  intro rest
  obtain ⟨hhour, hminute⟩ := h
  have hdigit : ∀ d ∈ fixedDigits 2 hour, d.isDigit = true := isDigit_of_mem_fixedDigits
  have hhour : readDigits? (fixedDigits 2 hour) = some hour := readDigits?_fixedDigits hhour
  have hminute : readDigits? (fixedDigits 2 minute) = some minute := readDigits?_fixedDigits hminute
  simp only [fixedDigits, List.nil_append, List.cons_append] at hdigit hhour hminute
  have hc := hdigit (Nat.digitChar (hour / 10 % 10)) (by simp)
  refine ⟨_, _, rfl, isBlank_eq_false_of_isDigit hc, ?_⟩
  simp [read, hc, clock?, hhour, hminute, fixedDigits]

theorem readsBack_comment {text : String} (h : (comment text).Spellable) :
    (comment text).ReadsBack := by
  intro rest
  have hinside : ∀ c ∈ text.toList, c ≠ '"' := fun c hc => ne_of_mem_of_not_mem hc h
  have htaken : (text.toList ++ '"' :: ' ' :: rest).takeWhile (· ≠ '"') = text.toList :=
    takeWhile_until (by simpa using hinside) (by simp) _
  refine ⟨'"', text.toList ++ ['"'], rfl, rfl, ?_⟩
  have hquote : read '"' (text.toList ++ '"' :: ' ' :: rest)
      = .ok (comment (String.ofList text.toList), text.toList.length + 1) := by
    simp only [read]
    rw [htaken]
    simp [show Char.isDigit '"' = false from rfl, show Char.isAlpha '"' = false from rfl]
  simpa using hquote

theorem readsBack_mark (m : Mark) : (mark m).ReadsBack := by
  intro rest
  cases m <;> exact ⟨_, _, rfl, rfl, rfl⟩

theorem isSome_find?_month {m : Nat} (h : IsMonth m) :
    (words.find? fun entry => entry.2 = .month m).isSome := by
  have all : ∀ i : Fin 13, 1 ≤ i.val → (words.find? fun entry => entry.2 = .month i).isSome := by
    decide +kernel
  exact all ⟨m, Nat.lt_succ_of_le h.2⟩ h.1

theorem isSome_find?_keyword (k : Keyword) :
    (words.find? fun entry => entry.2 = .keyword k).isSome := by
  cases k with
  | holiday kind => cases kind <;> decide +kernel
  | solar event => cases event <;> decide +kernel
  | _ => decide +kernel

theorem readsBack (t : Lexeme) (h : t.Spellable) : t.ReadsBack := by
  cases t with
  | weekday w => exact readsBack_word rfl (by cases w <;> decide +kernel)
  | month m => exact readsBack_word rfl (isSome_find?_month h)
  | number value width => exact readsBack_number h
  | clock hour minute => exact readsBack_clock h
  | keyword k => exact readsBack_word rfl (isSome_find?_keyword k)
  | mark m => exact readsBack_mark m
  | comment text => exact readsBack_comment h

/-- Lexemes in a row, with a blank after each. -/
def written (ts : List Lexeme) : List Char :=
  ts.flatMap fun t => t.spelling ++ [' ']

end Lexeme

-- ---------------------------------------------------------------------------
-- Tokens
-- ---------------------------------------------------------------------------

namespace Token

theorem readFrom_taken (position : Nat) (cs rest : List Char) :
    readFrom position cs.length (cs ++ rest) = readFrom (position + bytes cs) 0 rest := by
  induction cs generalizing position with
  | nil => rfl
  | cons c cs ih => rw [bytes_cons, ← Nat.add_assoc]; exact ih (position + c.utf8Size)

theorem readFrom_written (ts : List Lexeme) (h : ∀ t ∈ ts, t.Spellable) (position : Nat) :
    ∃ tokens, readFrom position 0 (Lexeme.written ts) = .ok tokens ∧
    tokens.map Token.lexeme = ts := by
  induction ts generalizing position with
  | nil => exact ⟨[], rfl, rfl⟩
  | cons t ts ih =>
    obtain ⟨c, cs, hspelling, hblank, hread⟩ := t.readsBack (h t (by simp)) (Lexeme.written ts)
    have htaken := readFrom_taken (position + c.utf8Size) cs (' ' :: Lexeme.written ts)
    obtain ⟨tokens, htokens, hlexemes⟩ := ih (fun u hu => h u (.tail _ hu))
      (position + c.utf8Size + bytes cs + ' '.utf8Size)
    have hrest : readFrom _ 0 (' ' :: Lexeme.written ts) = .ok tokens := htokens
    have htext : Lexeme.written (t :: ts) = c :: (cs ++ ' ' :: Lexeme.written ts) := by
      simp [Lexeme.written, hspelling]
    rw [htext, readFrom, if_neg (by simp [hblank]), hread]
    simp only [htaken, hrest]
    exact ⟨_, rfl, by simp [hlexemes]⟩

end Token

end OpeningTimes
