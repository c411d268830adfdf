import Abacus.Text.Ranges

/-!
# Text — Blank

The characters that carry no meaning between two parts of an expression:
those with the Unicode property White_Space.
-/

namespace Abacus.Text

/-- The ranges of the property White_Space. -/
def blankRanges : List (Nat × Nat) :=
  [(0x9, 0xd), (0x20, 0x20), (0x85, 0x85), (0xa0, 0xa0), (0x1680, 0x1680),
   (0x2000, 0x200a), (0x2028, 0x2029), (0x202f, 0x202f), (0x205f, 0x205f),
   (0x3000, 0x3000)]

/-- Whether a character is white space. -/
def isBlank (c : Char) : Bool :=
  inRanges blankRanges c

/-- The line feed is white space. -/
theorem isBlank_lineFeed : isBlank '\n' = true := by decide

/-- Space, tab, carriage return and line feed are white space. -/
theorem isBlank_of_isWhitespace {c : Char} (h : c.isWhitespace = true) :
    isBlank c = true := by
  simp only [Char.isWhitespace, Bool.or_eq_true, decide_eq_true_eq] at h
  rcases h with ((rfl | rfl) | rfl) | rfl <;> decide

end Abacus.Text
