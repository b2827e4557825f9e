import OpeningTimes.Proofs.Expression.ErrorPlaces
import OpeningTimes.Proofs.Expression.Joining

/-!
# Layout and letter case

Blanks around the tokens of a text and the case of the letters outside of its comments make no
difference: the text is cut into the same lexemes, and it is read as the same rules or refused at
the same token.
-/

namespace OpeningTimes

open Text

-- ---------------------------------------------------------------------------
-- Letter case
-- ---------------------------------------------------------------------------

namespace Text

variable {c d : Char} {as bs : List Char}

theorem isAlpha_iff_toNat :
    c.isAlpha = true ↔ 65 ≤ c.toNat ∧ c.toNat ≤ 90 ∨ 97 ≤ c.toNat ∧ c.toNat ≤ 122 := by
  have hcode : c.isAlpha = (decide (c.val ≥ 'A'.val ∧ c.val ≤ 'Z'.val) ||
      decide (c.val ≥ 'a'.val) && decide (c.val ≤ 'z'.val)) := rfl
  rw [hcode]
  simp [UInt32.le_iff_toNat_le]

theorem toNat_toLower :
    c.toLower.toNat = if 65 ≤ c.toNat ∧ c.toNat ≤ 90 then c.toNat + 32 else c.toNat := by
  have hupper : (c.val ≥ 'A'.val ∧ c.val ≤ 'Z'.val) ↔ 65 ≤ c.toNat ∧ c.toNat ≤ 90 := by
    simp [UInt32.le_iff_toNat_le]
  unfold Char.toLower
  split <;> rename_i h
  · rw [if_pos (hupper.mp h)]
    have hsum : (c.val + ('a'.val - 'A'.val)).toNat = (c.val.toNat + 32) % 2 ^ 32 :=
      UInt32.toNat_add ..
    have hcode : c.val.toNat ≤ 90 := (hupper.mp h).2
    exact hsum.trans (Nat.mod_eq_of_lt (by omega))
  · rw [if_neg (mt hupper.mpr h)]

/-- Both cases of a letter are letters, and no other characters have two cases. -/
theorem isAlpha_or_eq_of_toLower_eq (h : c.toLower = d.toLower) :
    (c.isAlpha = true ∧ d.isAlpha = true) ∨ d = c := by
  have hcode : c.toLower.toNat = d.toLower.toNat := congrArg Char.toNat h
  rw [toNat_toLower, toNat_toLower] at hcode
  rw [isAlpha_iff_toNat, isAlpha_iff_toNat, ← Char.toNat_inj]
  split at hcode <;> split at hcode <;> omega

theorem isAlpha_eq_of_toLower_eq (h : c.toLower = d.toLower) : c.isAlpha = d.isAlpha := by
  obtain ⟨hc, hd⟩ | rfl := isAlpha_or_eq_of_toLower_eq h
  · rw [hc, hd]
  · rfl

theorem eq_of_toLower_eq (h : c.toLower = d.toLower) (hc : c.isAlpha = false) : d = c :=
  (isAlpha_or_eq_of_toLower_eq h).resolve_left fun hletters => by simp [hc] at hletters

theorem isAlpha_eq_false_of_isDigit (h : c.isDigit = true) : c.isAlpha = false := by
  have hcode : 48 ≤ c.toNat ∧ c.toNat ≤ 57 := Char.isDigit_iff_toNat.mp h
  rw [Bool.eq_false_iff, Ne, isAlpha_iff_toNat]
  omega

theorem isBlank_eq_false_of_isAlpha (h : c.isAlpha = true) : isBlank c = false := by
  rw [isAlpha_iff_toNat] at h
  simp only [isBlank, Bool.or_eq_false_iff, Bool.and_eq_false_iff, beq_eq_false_iff_ne,
    decide_eq_false_iff_not]
  omega

/-- The same characters, but for the case of letters. -/
def SameLetters (as bs : List Char) : Prop := as.map Char.toLower = bs.map Char.toLower

theorem sameLetters_cons :
    SameLetters (c :: as) (d :: bs) ↔ c.toLower = d.toLower ∧ SameLetters as bs := by
  simp [SameLetters]

theorem SameLetters.length_eq (h : SameLetters as bs) : as.length = bs.length := by
  simpa using congrArg List.length h

theorem SameLetters.eq (h : SameLetters as bs) (has : ∀ c ∈ as, c.isAlpha = false) : bs = as := by
  induction as generalizing bs with
  | nil => exact List.eq_nil_of_length_eq_zero h.length_eq.symm
  | cons c as ih =>
    cases bs with
    | nil => cases h.length_eq
    | cons d bs =>
      obtain ⟨hfirst, hrest⟩ := sameLetters_cons.mp h
      obtain ⟨hc, has⟩ := List.forall_mem_cons.mp has
      rw [eq_of_toLower_eq hfirst hc, ih hrest has]

theorem SameLetters.all_isAlpha (h : SameLetters as bs) :
    bs.all Char.isAlpha = as.all Char.isAlpha := by
  induction as generalizing bs with
  | nil => rw [List.eq_nil_of_length_eq_zero h.length_eq.symm]
  | cons c as ih =>
    cases bs with
    | nil => cases h.length_eq
    | cons d bs =>
      obtain ⟨hfirst, hrest⟩ := sameLetters_cons.mp h
      rw [List.all_cons, List.all_cons, isAlpha_eq_of_toLower_eq hfirst, ih hrest]

theorem isDigit_eq_of_toLower_eq (h : c.toLower = d.toLower) : c.isDigit = d.isDigit := by
  rw [Bool.eq_iff_iff]
  constructor
  · intro hc
    rwa [eq_of_toLower_eq h (isAlpha_eq_false_of_isDigit hc)]
  · intro hd
    rwa [eq_of_toLower_eq h.symm (isAlpha_eq_false_of_isDigit hd)]

theorem isAlpha_eq_false_of_isBlank (h : isBlank c = true) : c.isAlpha = false := by
  by_contra halpha
  rw [isBlank_eq_false_of_isAlpha (by simpa using halpha)] at h
  cases h

theorem isDigit_eq_false_of_isBlank (h : isBlank c = true) : c.isDigit = false := by
  by_contra hdigit
  rw [isBlank_eq_false_of_isDigit (by simpa using hdigit)] at h
  cases h

theorem isBlank_eq_false_of_toLower_eq (h : c.toLower = d.toLower) (hc : isBlank c = false) :
    isBlank d = false := by
  cases halpha : c.isAlpha with
  | true => exact isBlank_eq_false_of_isAlpha (isAlpha_eq_of_toLower_eq h ▸ halpha)
  | false => rwa [eq_of_toLower_eq h halpha]

end Text

-- ---------------------------------------------------------------------------
-- Blanks that are put in
-- ---------------------------------------------------------------------------

namespace Text

/-- Blanks are put in between characters, of which letters may change their case. -/
inductive Respaced : List Char → List Char → Prop where
  | nil : Respaced [] []
  | char {c d as bs} (same : c.toLower = d.toLower) (rest : Respaced as bs) :
    Respaced (c :: as) (d :: bs)
  | blank {d as bs} (blank : isBlank d = true) (rest : Respaced as bs) : Respaced as (d :: bs)

variable {as bs : List Char}

theorem Respaced.of_blanks (h : as.Sublist bs) (hblank : ∀ d ∈ bs, isBlank d = true) :
    Respaced as bs := by
  induction h with
  | slnil => exact .nil
  | cons d _ ih => exact .blank (hblank d (by simp)) (ih fun e he => hblank e (by simp [he]))
  | cons_cons d _ ih => exact .char rfl (ih fun e he => hblank e (by simp [he]))

theorem Respaced.of_sameLetters (h : SameLetters as bs) : Respaced as bs := by
  induction as generalizing bs with
  | nil =>
    rw [List.eq_nil_of_length_eq_zero h.length_eq.symm]
    exact .nil
  | cons c as ih =>
    cases bs with
    | nil => cases h.length_eq
    | cons d bs =>
      obtain ⟨hfirst, hrest⟩ := sameLetters_cons.mp h
      exact .char hfirst (ih hrest)

theorem Respaced.append {cs ds : List Char} (h : Respaced as bs) (hrest : Respaced cs ds) :
    Respaced (as ++ cs) (bs ++ ds) := by
  induction h with
  | nil => exact hrest
  | char same _ ih => exact .char same ih
  | blank blank _ ih => exact .blank blank ih

theorem Respaced.of_append {ps qs : List Char} (h : Respaced as (ps ++ qs))
    (hps : ∀ d ∈ ps, isBlank d = false) :
    ∃ cs ds, as = cs ++ ds ∧ SameLetters cs ps ∧ Respaced ds qs := by
  induction ps generalizing as with
  | nil => exact ⟨[], as, rfl, rfl, h⟩
  | cons d ps ih =>
    obtain ⟨hd, hps⟩ := List.forall_mem_cons.mp hps
    cases h with
    | char same rest =>
      obtain ⟨cs, ds, rfl, hletters, hds⟩ := ih rest hps
      exact ⟨_ :: cs, ds, rfl, sameLetters_cons.mpr ⟨same, hletters⟩, hds⟩
    | blank blank rest => rw [hd] at blank; cases blank

theorem Respaced.takeWhile_eq_nil {p : Char → Bool}
    (hcase : ∀ c d : Char, c.toLower = d.toLower → p c = p d)
    (hblank : ∀ {d}, isBlank d = true → p d = false) (h : Respaced as bs)
    (has : as.takeWhile p = []) : bs.takeWhile p = [] := by
  cases h with
  | nil => rfl
  | @char c d as bs same rest =>
    have hc : p c = false := by
      by_contra hc
      rw [List.takeWhile_cons_of_pos (by simpa using hc)] at has
      cases has
    exact List.takeWhile_cons_of_neg (by simp [← hcase c d same, hc])
  | @blank d as bs blank rest => exact List.takeWhile_cons_of_neg (by simp [hblank blank])

end Text

theorem run_of_length_eq {p : Char → Bool} {as bs : List Char}
    (h : ((as ++ bs).takeWhile p).length = as.length) :
    (∀ c ∈ as, p c = true) ∧ bs.takeWhile p = [] := by
  have hrun : (as ++ bs).takeWhile p = as :=
    List.prefix_of_prefix_length_le (List.takeWhile_prefix p) (List.prefix_append as bs)
      (Nat.le_of_eq h)
      |>.eq_of_length h
  have hall : ∀ c ∈ as, p c = true := by
    intro c hc
    rw [← hrun] at hc
    exact List.mem_takeWhile_imp hc
  refine ⟨hall, ?_⟩
  rw [List.takeWhile_append_of_pos hall] at hrun
  exact List.append_right_eq_self.mp hrun

theorem takeWhile_append_of_run {p : Char → Bool} {as bs : List Char} (has : ∀ c ∈ as, p c = true)
    (hbs : bs.takeWhile p = []) : (as ++ bs).takeWhile p = as := by
  rw [List.takeWhile_append_of_pos has, hbs, List.append_nil]

-- ---------------------------------------------------------------------------
-- Lexemes
-- ---------------------------------------------------------------------------

namespace Lexeme

/-- Another way to write a lexeme. The text of a comment is what it says. -/
def Respelled : Lexeme → List Char → List Char → Prop
  | .comment _, as, bs => bs = as
  | _, as, bs => SameLetters as bs

theorem Respelled.sameLetters {t : Lexeme} {as bs : List Char} (h : t.Respelled as bs) :
    SameLetters as bs := by
  cases t with
  | comment text => exact congrArg _ (Eq.symm h)
  | _ => exact h

variable {c d : Char} {more more' rest rest' : List Char} {t : Lexeme}

theorem isAlpha_eq_false_of_mark {m : Mark} (h : Mark.ofChar? c = some m) : c.isAlpha = false := by
  unfold Mark.ofChar? at h
  split at h <;> first | rfl | cases h

/-- No clock comes up where blanks are put in. -/
theorem clock?_respaced (hmore : ∀ x ∈ more, x.isDigit = true)
    (hstop : rest'.takeWhile Char.isDigit = []) (hrest : Respaced rest rest')
    (h : clock? c (more ++ rest) = none) : clock? c (more ++ rest') = none := by
  cases hfound : clock? c (more ++ rest') with
  | none => rfl
  | some found =>
    obtain ⟨t, n⟩ := found
    obtain ⟨digits, a, b, tail, hour, minute, hcs, hdigits, hhour, hminute, -, -⟩ :=
      clock?_eq_some_iff.mp hfound
    have hdigit := isDigit_of_readDigits? hhour
    have hminuteDigit := isDigit_of_readDigits? hminute
    have hsame : more = digits := by
      calc more
        _ = (more ++ rest').takeWhile Char.isDigit := (takeWhile_append_of_run hmore hstop).symm
        _ = (digits ++ ':' :: ([a, b] ++ tail)).takeWhile Char.isDigit := by rw [hcs]; simp
        _ = digits := takeWhile_until (fun x hx => hdigit x (.tail _ hx)) rfl _
    subst hsame
    rw [List.append_assoc] at hcs
    have hclock : rest' = [':', a, b] ++ tail := List.append_cancel_left hcs
    subst hclock
    have hsolid : ∀ x ∈ [':', a, b], isBlank x = false ∧ x.isAlpha = false := by
      refine List.forall_mem_cons.mpr ⟨⟨rfl, rfl⟩, fun x hx => ?_⟩
      have hx := hminuteDigit x hx
      exact ⟨isBlank_eq_false_of_isDigit hx, isAlpha_eq_false_of_isDigit hx⟩
    obtain ⟨cs, ds, rfl, hletters, -⟩ := hrest.of_append fun x hx => (hsolid x hx).1
    obtain rfl := SameLetters.eq hletters.symm fun x hx => (hsolid x hx).2
    rw [← List.append_assoc] at h
    rw [clock?_eq_some_iff.mpr
      ⟨more, a, b, ds, hour, minute, rfl, hdigits, hhour, hminute, rfl, rfl⟩] at h
    cases h

/-- A lexeme is still read where it is respelled and more blanks come after it. -/
theorem Matches.respelled (h : Matches c (more ++ rest) t more.length)
    (hsame : t.Respelled (c :: more) (d :: more')) (hrest : Respaced rest rest') :
    Matches d (more' ++ rest') t more'.length := by
  have hletters := hsame.sameLetters
  have hlength : more.length = more'.length := (sameLetters_cons.mp hletters).2.length_eq
  generalize hn : more.length = n at h
  cases h with
  | clock digit found =>
    obtain ⟨digits, a, b, tail, hour, minute, hcs, hdigits, hhour, hminute, rfl, hclock⟩ :=
      clock?_eq_some_iff.mp found
    obtain ⟨rfl, rfl⟩ := List.append_inj hcs (hn.trans hclock)
    have hplain : ∀ x ∈ c :: (digits ++ [':', a, b]), x.isAlpha = false := by
      rw [← List.cons_append]
      refine List.forall_mem_append.mpr
        ⟨fun x hx => ?_, List.forall_mem_cons.mpr ⟨rfl, fun x hx => ?_⟩⟩
      · exact isAlpha_eq_false_of_isDigit (isDigit_of_readDigits? hhour x hx)
      · exact isAlpha_eq_false_of_isDigit (isDigit_of_readDigits? hminute x hx)
    obtain ⟨rfl, rfl⟩ := List.cons.inj (hletters.eq hplain)
    exact .clock digit
      (clock?_eq_some_iff.mpr
        ⟨digits, a, b, rest', hour, minute, rfl, hdigits, hhour, hminute, rfl, rfl⟩)
  | number digit none_found =>
    obtain ⟨hdigits, hstop⟩ := run_of_length_eq hn.symm
    have hplain : ∀ x ∈ c :: more, x.isAlpha = false :=
      List.forall_mem_cons.mpr
        ⟨isAlpha_eq_false_of_isDigit digit, fun x hx => isAlpha_eq_false_of_isDigit (hdigits x hx)⟩
    obtain ⟨rfl, rfl⟩ := List.cons.inj (hletters.eq hplain)
    have hstop' : rest'.takeWhile Char.isDigit = [] :=
      hrest.takeWhile_eq_nil (fun _ _ => isDigit_eq_of_toLower_eq) isDigit_eq_false_of_isBlank hstop
    have hnumber := Matches.number digit (clock?_respaced hdigits hstop' hrest none_found)
    rw [takeWhile_append_of_run hdigits hstop'] at hnumber
    rw [takeWhile_append_of_run hdigits hstop]
    exact hnumber
  | word other letter means =>
    obtain ⟨hmore, hstop⟩ := run_of_length_eq hn.symm
    obtain ⟨hfirst, hothers⟩ := sameLetters_cons.mp hletters
    have hmore' : ∀ x ∈ more', x.isAlpha = true := by
      rw [← List.all_eq_true, hothers.all_isAlpha, List.all_eq_true]
      exact hmore
    have hstop' : rest'.takeWhile Char.isAlpha = [] :=
      hrest.takeWhile_eq_nil (fun _ _ => isAlpha_eq_of_toLower_eq) isAlpha_eq_false_of_isBlank hstop
    have hrun := takeWhile_append_of_run hmore' hstop'
    rw [takeWhile_append_of_run hmore hstop, ofWord?, hletters, ← ofWord?, ← hrun] at means
    rw [isDigit_eq_of_toLower_eq hfirst] at other
    rw [isAlpha_eq_of_toLower_eq hfirst] at letter
    have hword := Matches.word other letter means
    rwa [hrun] at hword
  | comment quote closed =>
    obtain ⟨rfl, rfl⟩ := List.cons.inj hsame
    have hinside : (more' ++ rest).takeWhile (· ≠ '"') = more'.takeWhile (· ≠ '"') :=
      takeWhile_of_append (by omega)
    rw [hinside] at hn ⊢
    -- the closing quote comes before all that follows
    have hinside' : (more' ++ rest').takeWhile (· ≠ '"') = more'.takeWhile (· ≠ '"') := by
      rw [List.takeWhile_append, if_neg (by omega)]
    rw [← hinside'] at hn ⊢
    rw [hn]
    exact .comment quote (by rw [List.length_append]; omega)
  | doubleBar bar another =>
    obtain ⟨x, rfl⟩ := List.length_eq_one_iff.mp hn
    obtain rfl : x = '|' := by simpa using another
    have hplain : ∀ x ∈ [c, '|'], x.isAlpha = false := by
      subst bar
      simp
    obtain ⟨rfl, rfl⟩ := List.cons.inj (hletters.eq hplain)
    exact .doubleBar bar rfl
  | mark means =>
    obtain rfl := List.eq_nil_of_length_eq_zero hn
    have hplain : ∀ x ∈ [c], x.isAlpha = false := by
      simpa using isAlpha_eq_false_of_mark means
    obtain ⟨rfl, rfl⟩ := List.cons.inj (hletters.eq hplain)
    exact .mark means

theorem Cut.blanks {gap cs : List Char} {ts : List Lexeme} (hgap : ∀ c ∈ gap, isBlank c = true)
    (h : Cut cs ts) : Cut (gap ++ cs) ts := by
  induction gap with
  | nil => exact h
  | cons c gap ih =>
    obtain ⟨hc, hgap⟩ := List.forall_mem_cons.mp hgap
    exact .blank hc (ih hgap)

end Lexeme

-- ---------------------------------------------------------------------------
-- Tokens
-- ---------------------------------------------------------------------------

namespace Token

/-- Characters and what comes of them when blanks are put in before, between and after the tokens,
and letters outside of comments change their case. -/
inductive Relaid : List Token → List Char → List Char → Prop where
  | nil {gap gap'} (more : gap.Sublist gap') (blank : ∀ c ∈ gap', isBlank c = true) :
    Relaid [] gap gap'
  | cons {t ts gap gap' text' rest rest'} (more : gap.Sublist gap')
    (blank : ∀ c ∈ gap', isBlank c = true)
    (respelled : t.lexeme.Respelled t.text.toList text') (others : Relaid ts rest rest') :
    Relaid (t :: ts) (gap ++ t.text.toList ++ rest) (gap' ++ text' ++ rest')

variable {t : Token} {ts : List Token} {cs cs' : List Char} {position : Nat}

theorem Relaid.respaced (h : Relaid ts cs cs') : Respaced cs cs' := by
  induction h with
  | nil more blank => exact .of_blanks more blank
  | cons more blank respelled _ ih =>
    exact ((Respaced.of_blanks more blank).append (.of_sameLetters respelled.sameLetters)).append ih

theorem exists_of_readFrom_cons (h : readFrom position 0 cs = .ok (t :: ts)) :
    ∃ gap c more rest next, cs = gap ++ c :: (more ++ rest) ∧ (∀ b ∈ gap, isBlank b = true) ∧
      isBlank c = false ∧ t.text.toList = c :: more ∧
      Lexeme.Matches c (more ++ rest) t.lexeme more.length ∧ readFrom next 0 rest = .ok ts := by
  induction cs generalizing position with
  | nil => cases h
  | cons c cs ih =>
    cases hblank : isBlank c with
    | true =>
      obtain ⟨gap, d, more, rest, next, rfl, hgap, hread⟩ :=
        ih ((readFrom_blank hblank).symm.trans h)
      exact ⟨c :: gap, d, more, rest, next, rfl, List.forall_mem_cons.mpr ⟨hblank, hgap⟩, hread⟩
    | false =>
      cases hread : Lexeme.read c cs with
      | error fault =>
        rw [readFrom, if_neg (by simp [hblank]), hread] at h
        cases h
      | ok found =>
        obtain ⟨t, n⟩ := found
        have hmatches := Lexeme.read_ok_iff.mp hread
        rw [readFrom_matches hblank hmatches] at h
        obtain ⟨more, hmore, h⟩ := Grammar.exists_of_bind_ok h
        cases h
        have hcs : cs.take n ++ cs.drop n = cs := List.take_append_drop n cs
        have hlength : (cs.take n).length = n := List.length_take_of_le hmatches.length_le
        refine ⟨[], c, cs.take n, cs.drop n, _, ?_, by simp, hblank, by simp, ?_, hmore⟩
        · rw [hcs, List.nil_append]
        · rwa [hcs, hlength]

theorem Relaid.cut (h : Relaid ts cs cs') (hread : readFrom position 0 cs = .ok ts) :
    Lexeme.Cut cs' (ts.map Token.lexeme) := by
  induction h generalizing position with
  | @nil gap gap' more blank => exact List.append_nil gap' ▸ Lexeme.Cut.nil.blanks blank
  | @cons t ts gap gap' text' rest rest' more blank respelled others ih =>
    obtain ⟨gap₀, c, chars, rest₀, next, hcs, hgap₀, hc, htext, hmatches, hrest⟩ :=
      exists_of_readFrom_cons hread
    have hgap : ∀ b ∈ gap, isBlank b = true := fun b hb => blank b (more.subset hb)
    -- both gaps end at the first character that is no blank
    rw [htext, List.append_assoc, List.cons_append] at hcs
    obtain rfl : gap = gap₀ := by
      rw [← takeWhile_until hgap hc (chars ++ rest), hcs, takeWhile_until hgap₀ hc]
    obtain ⟨-, hrests⟩ := List.cons.inj (List.append_cancel_left hcs)
    obtain rfl : rest = rest₀ := List.append_cancel_left hrests
    rw [htext] at respelled
    cases text' with
    | nil => cases respelled.sameLetters.length_eq
    | cons d chars' =>
      have hd := isBlank_eq_false_of_toLower_eq (sameLetters_cons.mp respelled.sameLetters).1 hc
      rw [List.append_assoc, List.cons_append]
      refine Lexeme.Cut.blanks blank (.lexeme hd (hmatches.respelled respelled others.respaced) ?_)
      rw [List.drop_left' rfl]
      exact ih hrest

end Token

-- ---------------------------------------------------------------------------
-- Texts
-- ---------------------------------------------------------------------------

namespace Rule

/-- Layout and letter case carry no meaning. -/
theorem ofText_relaid {raw raw' : String} {tokens : List Token}
    (htokens : Token.readAll raw = .ok tokens) (h : Token.Relaid tokens raw.toList raw'.toList) :
    ∃ tokens', Token.readAll raw' = .ok tokens' ∧
    tokens'.map Token.lexeme = tokens.map Token.lexeme ∧
      ((∃ rs, ofText raw = .ok rs ∧ ofText raw' = .ok rs) ∨
        ∃ e e' index, ofText raw = .error (.grammar e) ∧ ofText raw' = .error (.grammar e') ∧
          e'.expected.text = e.expected.text ∧ index ≤ tokens.length ∧ e.StandsAt tokens index ∧
          e'.StandsAt tokens' index) := by
  obtain ⟨tokens', htokens', hlexemes⟩ := Token.readFrom_of_cut (h.cut htokens) 0
  have hall : Token.readAll raw' = .ok tokens' := htokens'
  refine ⟨tokens', hall, hlexemes, ?_⟩
  rw [ofText_of_tokens htokens, ofText_of_tokens hall, hlexemes]
  cases Grammar.rules (tokens.map Token.lexeme) with
  | ok rs => exact .inl ⟨rs, rfl, rfl⟩
  | error failure =>
    have hlength : tokens'.length = tokens.length := by simpa using congrArg List.length hlexemes
    refine .inr ⟨_, _, tokens.length - failure.left, rfl, rfl, ?_, Nat.sub_le .., ?_, ?_⟩
    · simp
    · exact GrammarError.ofFailure_standsAt tokens failure
    · exact hlength ▸ GrammarError.ofFailure_standsAt tokens' failure

/-- What holds must not stand after the comment, which stays as it is. -/
theorem ofText_relaid_comment :
    ∃ tokens, Token.readAll "Mo \"Ab\" off" = .ok tokens ∧
      Token.Relaid tokens "Mo \"Ab\" off".toList " mO \t\"Ab\" OFF".toList ∧
      ∃ tokens', Token.readAll " mO \t\"Ab\" OFF" = .ok tokens' ∧
        tokens'.map Token.lexeme = tokens.map Token.lexeme ∧
        ((∃ rs, ofText "Mo \"Ab\" off" = .ok rs ∧ ofText " mO \t\"Ab\" OFF" = .ok rs) ∨
          ∃ e e' index, ofText "Mo \"Ab\" off" = .error (.grammar e) ∧
            ofText " mO \t\"Ab\" OFF" = .error (.grammar e') ∧ e'.expected.text = e.expected.text ∧
            index ≤ tokens.length ∧ e.StandsAt tokens index ∧ e'.StandsAt tokens' index) := by
  have cut : Token.readAll "Mo \"Ab\" off" = .ok
      [⟨.weekday .monday, "Mo", 0⟩, ⟨.comment "Ab", "\"Ab\"", 3⟩, ⟨.keyword .off, "off", 8⟩] := rfl
  have last : Token.Relaid [⟨.keyword .off, "off", 8⟩] " off".toList " OFF".toList :=
    @Token.Relaid.cons ⟨.keyword .off, "off", 8⟩ [] [' '] [' '] ['O', 'F', 'F'] [] [] (.refl [' '])
      (by simp [isBlank]) rfl (.nil .slnil (by simp))
  have comment : Token.Relaid [⟨.comment "Ab", "\"Ab\"", 3⟩, ⟨.keyword .off, "off", 8⟩]
      " \"Ab\" off".toList " \t\"Ab\" OFF".toList :=
    @Token.Relaid.cons ⟨.comment "Ab", "\"Ab\"", 3⟩ _ [' '] [' ', '\t'] "\"Ab\"".toList _ _
      (.cons_cons ' ' (.cons '\t' .slnil)) (by simp [isBlank]) rfl last
  have relaid : Token.Relaid
      [⟨.weekday .monday, "Mo", 0⟩, ⟨.comment "Ab", "\"Ab\"", 3⟩, ⟨.keyword .off, "off", 8⟩]
      "Mo \"Ab\" off".toList " mO \t\"Ab\" OFF".toList :=
    @Token.Relaid.cons ⟨.weekday .monday, "Mo", 0⟩ _ [] [' '] ['m', 'O'] _ _ (.cons ' ' .slnil)
      (by simp [isBlank]) rfl comment
  exact ⟨_, cut, relaid, ofText_relaid cut relaid⟩

end Rule

end OpeningTimes
