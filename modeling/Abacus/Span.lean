/-!
# Span

Positions and stretches of text, in lines and columns that count from one.
A span names its first and its last character, so the span of one character
begins and ends at the same position.

Lines and columns are words of 32 bits. A counter that is at its last value
goes on at zero; a text in which this happens has more than four thousand
million lines, or as many characters in one line.
-/

namespace Abacus

/-- Subtraction of counters that stops at zero. -/
def monus (a b : UInt32) : UInt32 :=
  if b ≤ a then a - b else 0

@[simp] theorem toNat_monus (a b : UInt32) : (monus a b).toNat = a.toNat - b.toNat := by
  unfold monus
  split
  · rename_i h
    exact UInt32.toNat_sub_of_le a b h
  · rename_i h
    rw [UInt32.le_iff_toNat_le] at h
    rw [UInt32.toNat_zero]
    omega

theorem toNat_max (a b : UInt32) : (max a b).toNat = max a.toNat b.toNat := by
  show (if a ≤ b then b else a).toNat = _
  split
  · rename_i h
    exact (Nat.max_eq_right (UInt32.le_iff_toNat_le.1 h)).symm
  · rename_i h
    rw [UInt32.le_iff_toNat_le] at h
    omega

/-- A place in a text: a line and a column in it. -/
structure Position where
  /-- The line, counted from one. -/
  line : UInt32
  /-- The column, counted in characters from one. -/
  col : UInt32
deriving DecidableEq

namespace Position

/-- Where every text begins. -/
def origin : Position := ⟨1, 1⟩

/-- Whether `p` does not come after `q` in reading order. -/
def upTo (p q : Position) : Bool :=
  p.line < q.line || (p.line == q.line && p.col ≤ q.col)

/-- The earlier of two positions. -/
def earlier (p q : Position) : Position :=
  if p.upTo q then p else q

/-- The later of two positions. -/
def later (p q : Position) : Position :=
  if p.upTo q then q else p

/-- The position after one character: a line feed begins the next line. -/
def step (p : Position) (c : Char) : Position :=
  if c = '\n' then ⟨p.line + 1, 1⟩ else ⟨p.line, p.col + 1⟩

/-- The position after a stretch of text. -/
def after (p : Position) (text : List Char) : Position :=
  text.foldl step p

/-- Positions are told apart by their counts. -/
theorem eq_of_toNat {p q : Position} (line : p.line.toNat = q.line.toNat)
    (col : p.col.toNat = q.col.toNat) : p = q := by
  cases p
  cases q
  exact (mk.injEq ..).mpr ⟨UInt32.toNat_inj.1 line, UInt32.toNat_inj.1 col⟩

/-- Positions are in one line, in reading order. -/
theorem upTo_iff {p q : Position} :
    p.upTo q = true ↔ p.line.toNat < q.line.toNat ∨
      (p.line.toNat = q.line.toNat ∧ p.col.toNat ≤ q.col.toNat) := by
  simp [upTo, UInt32.lt_iff_toNat_lt, UInt32.le_iff_toNat_le, UInt32.toNat_inj]

/-- The position after two stretches is reached one after the other. -/
theorem after_append (p : Position) (s t : List Char) :
    p.after (s ++ t) = (p.after s).after t := by
  simp [after]

end Position

/-- A stretch of text, from its first character to its last. -/
structure Span where
  first : Position
  last : Position
deriving DecidableEq

namespace Span

/-- The span of a single position. -/
def point (p : Position) : Span := ⟨p, p⟩

/-- The least span that covers both. -/
def merge (s t : Span) : Span :=
  ⟨s.first.earlier t.first, s.last.later t.last⟩

/-- The number of columns covered by a span that stays on one line. -/
def width? (s : Span) : Option UInt32 :=
  if s.first.line = s.last.line then some (monus s.last.col s.first.col + 1) else none

/-- The place a span is announced at. -/
def text (s : Span) : String :=
  toString s.first.line ++ ":" ++ toString s.first.col

/-- A span joined with itself is the same span. -/
@[simp] theorem merge_self (s : Span) : s.merge s = s := by
  simp [merge, Position.earlier, Position.later]

end Span

end Abacus
