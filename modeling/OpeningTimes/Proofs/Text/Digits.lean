import Mathlib.Algebra.Group.Nat.Defs
import Mathlib.Data.List.Induction
import OpeningTimes.Text.Digits

/-!
# Numbers and their digits

A number of a fixed width has one written form. Digits are read as the number that writes them, and
a number that fits into the width is written with the digits that it is read from.
-/

namespace OpeningTimes.Text

theorem isDigit_of_mem_fixedDigits {width n : Nat} :
    ∀ c ∈ fixedDigits width n, c.isDigit = true := by
  induction width generalizing n with
  | zero => simp [fixedDigits]
  | succ width ih =>
    intro c hc
    rcases List.mem_append.mp hc with hc | hc
    · exact ih c hc
    · obtain rfl := List.mem_singleton.mp hc
      simp [Nat.isDigit_digitChar, Nat.mod_lt]

theorem digitsValue_append (cs : List Char) (c : Char) :
    digitsValue (cs ++ [c]) = digitsValue cs * 10 + (c.toNat - 48) :=
  List.foldl_append

theorem digitsValue_fixedDigits (width n : Nat) :
    digitsValue (fixedDigits width n) = n % 10 ^ width := by
  induction width generalizing n with
  | zero => simp [fixedDigits, digitsValue, Nat.mod_one]
  | succ width ih =>
    rw [fixedDigits, digitsValue_append, ih, Nat.pow_succ', Nat.mod_mul,
      Nat.toNat_digitChar_of_lt_ten (Nat.mod_lt n (by decide : 0 < 10))]
    omega

theorem readDigits?_fixedDigits {width n : Nat} (h : n < 10 ^ width) :
    readDigits? (fixedDigits width n) = some n := by
  have digits : (fixedDigits width n).all Char.isDigit = true :=
    List.all_eq_true.mpr isDigit_of_mem_fixedDigits
  rw [readDigits?, if_pos digits, digitsValue_fixedDigits, Nat.mod_eq_of_lt h]

theorem isDigit_of_readDigits? {cs : List Char} {n : Nat} (h : readDigits? cs = some n) :
    ∀ c ∈ cs, c.isDigit = true := by
  unfold readDigits? at h
  split at h
  · exact List.all_eq_true.mp ‹_›
  · cases h

theorem digitChar_of_isDigit {c : Char} (h : c.isDigit = true) :
    c.toNat - 48 < 10 ∧ Nat.digitChar (c.toNat - 48) = c := by
  have hcode : 48 ≤ c.toNat ∧ c.toNat ≤ 57 := Char.isDigit_iff_toNat.mp h
  have hlt : c.toNat - 48 < 10 := by omega
  refine ⟨hlt, Char.toNat_inj.mp ?_⟩
  rw [Nat.toNat_digitChar_of_lt_ten hlt]
  omega

theorem fixedDigits_digitsValue {cs : List Char} (h : ∀ c ∈ cs, c.isDigit = true) :
    digitsValue cs < 10 ^ cs.length ∧ fixedDigits cs.length (digitsValue cs) = cs := by
  induction cs using List.reverseRecOn with
  | nil => exact ⟨by decide, rfl⟩
  | append_singleton cs c ih =>
    obtain ⟨hlt, hchars⟩ := ih fun d hd => h d (List.mem_append_left _ hd)
    obtain ⟨hdigit, hchar⟩ := digitChar_of_isDigit (h c (by simp))
    rw [digitsValue_append, List.length_append, List.length_singleton]
    constructor
    · rw [Nat.pow_succ]
      omega
    · have hdiv : (digitsValue cs * 10 + (c.toNat - 48)) / 10 = digitsValue cs := by omega
      have hmod : (digitsValue cs * 10 + (c.toNat - 48)) % 10 = c.toNat - 48 := by omega
      rw [fixedDigits, hdiv, hmod, hchars, hchar]

theorem readDigits?_eq_some_iff {cs : List Char} {n : Nat} :
    readDigits? cs = some n ↔ n < 10 ^ cs.length ∧ fixedDigits cs.length n = cs := by
  constructor
  · intro h
    have hdigits := isDigit_of_readDigits? h
    rw [readDigits?, if_pos (List.all_eq_true.mpr hdigits), Option.some.injEq] at h
    exact h ▸ fixedDigits_digitsValue hdigits
  · rintro ⟨hlt, hchars⟩
    rw [← hchars]
    exact readDigits?_fixedDigits hlt

end OpeningTimes.Text
