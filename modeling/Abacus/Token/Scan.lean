import Abacus.Lexeme

/-!
# Token — Scan

The tokens of a text. Lexemes are taken in order with the place of each;
the bad ones are set aside as faults. After as many faults as there is room
for the scan ends where the next lexeme would begin. A token for the end of
the text always comes last.
-/

namespace Abacus

/-- The tokens of a text and the faults found on the way. -/
structure Scan where
  /-- The tokens, the last of them the end of the text. -/
  tokens : List Token
  /-- The faults, in order. -/
  faults : List Fault

namespace Scan

/-- How many faults are reported before a scan ends early. -/
def maxFaults : Nat := 20

/-- The span of a lexeme that begins at `p`. It ends where the cursor stands
once the lexeme is read, one column back. -/
def spanOf (p : Position) (run : List Char) : Span :=
  let cursor := p.after run
  ⟨p, ⟨cursor.line, max (monus cursor.col 1) 1⟩⟩

/-- The end of a scan at `p`, after the tokens and faults found before it,
which are given last first. -/
def finish (p : Position) (tokens : List Token) (faults : List Fault) : Scan :=
  ⟨(⟨.endOfInput, .point p⟩ :: tokens).reverse, faults.reverse⟩

/-- Takes the lexemes from `p` on, with room for `room` more faults. The
tokens and faults found before are given last first. -/
def collect (room : Nat) (p : Position) (tokens : List Token) (faults : List Fault) :
    List (List Char) → Scan
  | [] => finish p tokens faults
  | run :: rest =>
    match Lexeme.ofRun run, room with
    | .blank, _ => collect room (p.after run) tokens faults rest
    | _, 0 => finish p tokens faults
    | .token kind, room + 1 =>
      collect (room + 1) (p.after run) (⟨kind, spanOf p run⟩ :: tokens) faults rest
    | .bad cause, room + 1 =>
      collect room (p.after run) tokens (⟨cause, spanOf p run⟩ :: faults) rest

/-- The scan of a text. -/
def ofText (text : List Char) : Scan :=
  collect maxFaults .origin [] [] (Lexeme.runs text)

/-- What was found before comes first. -/
theorem collect_eq (room : Nat) (p : Position) (tokens : List Token) (faults : List Fault)
    (runs : List (List Char)) :
    collect room p tokens faults runs =
      ⟨tokens.reverse ++ (collect room p [] [] runs).tokens,
       faults.reverse ++ (collect room p [] [] runs).faults⟩ := by
  induction runs generalizing room p tokens faults with
  | nil => simp [collect, finish]
  | cons run rest ih =>
    unfold collect
    split
    · rw [ih]
    · simp [finish]
    · rw [ih, ih _ _ [_] []]
      simp
    · rw [ih, ih _ _ [] [_]]
      simp

end Scan

end Abacus
