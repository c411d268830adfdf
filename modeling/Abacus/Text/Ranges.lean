/-!
# Text — Ranges

Classes of characters given as closed ranges of code points.
-/

namespace Abacus.Text

/-- Whether a character lies in one of the closed ranges. -/
def inRanges (ranges : List (Nat × Nat)) (c : Char) : Bool :=
  ranges.any fun r => r.1 ≤ c.toNat && c.toNat ≤ r.2

end Abacus.Text
