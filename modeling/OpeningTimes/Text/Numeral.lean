/-!
# Numerals

The characters with the Unicode property Nd: the decimal digits of all scripts, ten in a row for
each.
-/

namespace OpeningTimes.Text

/-- The codes of the digits zero. -/
def zeros : List Nat :=
  [0x30, 0x660, 0x6F0, 0x7C0, 0x966, 0x9E6, 0xA66, 0xAE6, 0xB66, 0xBE6, 0xC66, 0xCE6, 0xD66,
    0xDE6, 0xE50, 0xED0, 0xF20, 0x1040, 0x1090, 0x17E0, 0x1810, 0x1946, 0x19D0, 0x1A80, 0x1A90,
    0x1B50, 0x1BB0, 0x1C40, 0x1C50, 0xA620, 0xA8D0, 0xA900, 0xA9D0, 0xA9F0, 0xAA50, 0xABF0,
    0xFF10, 0x104A0, 0x10D30, 0x10D40, 0x11066, 0x110F0, 0x11136, 0x111D0, 0x112F0, 0x11450,
    0x114D0, 0x11650, 0x116C0, 0x116D0, 0x116DA, 0x11730, 0x118E0, 0x11950, 0x11BF0, 0x11C50,
    0x11D50, 0x11DA0, 0x11F50, 0x16130, 0x16A60, 0x16AC0, 0x16B50, 0x16D70, 0x1CCF0, 0x1D7CE,
    0x1D7D8, 0x1D7E2, 0x1D7EC, 0x1D7F6, 0x1E140, 0x1E2F0, 0x1E4F0, 0x1E5F1, 0x1E950, 0x1FBF0]

def isNumeral (c : Char) : Bool :=
  zeros.any fun first => first ≤ c.toNat && c.toNat < first + 10

theorem isNumeral_of_isDigit {c : Char} (h : c.isDigit = true) : isNumeral c = true := by
  have hcode : 48 ≤ c.toNat ∧ c.toNat ≤ 57 := Char.isDigit_iff_toNat.mp h
  refine List.any_eq_true.mpr ⟨0x30, by decide, ?_⟩
  simp only [Bool.and_eq_true, decide_eq_true_eq]
  omega

/-- No numerals lie between the digits 0 to 9 and those of other scripts or next to the blanks among
these. -/
theorem zeros_apart : ∀ first ∈ zeros, first = 0x30 ∨ 0x660 ≤ first ∧ first + 10 ≤ 0x1680 ∨
    0x1680 < first ∧ first + 10 ≤ 0x2000 ∨ 0x3000 < first := by
  decide

theorem toNat_of_isNumeral {c : Char} (h : isNumeral c = true) :
    0x30 ≤ c.toNat ∧ c.toNat < 0x3A ∨ 0x660 ≤ c.toNat ∧ c.toNat < 0x1680 ∨
      0x1680 < c.toNat ∧ c.toNat < 0x2000 ∨ 0x3000 < c.toNat := by
  obtain ⟨first, hfirst, hc⟩ := List.any_eq_true.mp h
  have hapart := zeros_apart first hfirst
  simp only [Bool.and_eq_true, decide_eq_true_eq] at hc
  omega

end OpeningTimes.Text
