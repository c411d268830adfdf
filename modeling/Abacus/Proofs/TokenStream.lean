import Abacus.Token.Scan

/-!
# TokenStream

The shape of what a scan yields: tokens none of which is an end of the
text, and then one end of the text.
-/

namespace Abacus

/-- No lexeme means the end of the text. -/
theorem Lexeme.ofRun_ne_end (run : List Char) : ofRun run ≠ token .endOfInput := by
  cases run with
  | nil => simp [ofRun]
  | cons c cs =>
    simp only [ofRun]
    split
    · simp
    · split
      · unfold ofNumeral
        split <;> simp
      · unfold ofSymbol
        split <;> simp

namespace Scan

variable {room : Nat} {p : Position} {run : List Char} {rest : List (List Char)}
  {tokens : List Token} {faults : List Fault}

/-! ## One lexeme -/

theorem collect_blank (h : Lexeme.ofRun run = .blank) :
    collect room p tokens faults (run :: rest) =
      collect room (p.after run) tokens faults rest := by
  simp [collect, h]

theorem collect_full (h : Lexeme.ofRun run ≠ .blank) :
    collect 0 p tokens faults (run :: rest) = finish p tokens faults := by
  cases hrun : Lexeme.ofRun run <;> simp_all [collect]

theorem collect_token {kind : TokenKind} (h : Lexeme.ofRun run = .token kind) :
    collect (room + 1) p tokens faults (run :: rest) =
      collect (room + 1) (p.after run) (⟨kind, spanOf p run⟩ :: tokens) faults rest := by
  simp [collect, h]

theorem collect_bad {cause : Cause} (h : Lexeme.ofRun run = .bad cause) :
    collect (room + 1) p tokens faults (run :: rest) =
      collect room (p.after run) tokens (⟨cause, spanOf p run⟩ :: faults) rest := by
  simp [collect, h]

/-! ## All lexemes -/

/-- From any lexeme on, a scan yields tokens and then the one end of the
text. -/
theorem collect_tokens (room : Nat) (p : Position) (runs : List (List Char)) :
    ∃ w s, (collect room p [] [] runs).tokens = w ++ [⟨.endOfInput, s⟩] ∧
      ∀ t ∈ w, t.kind ≠ .endOfInput := by
  induction runs generalizing room p with
  | nil => exact ⟨[], .point p, rfl, by simp⟩
  | cons run rest ih =>
    by_cases hblank : Lexeme.ofRun run = .blank
    · rw [collect_blank hblank]
      exact ih room _
    · cases room with
      | zero =>
        rw [collect_full hblank]
        exact ⟨[], .point p, rfl, by simp⟩
      | succ room => cases hrun : Lexeme.ofRun run with
        | blank => exact absurd hrun hblank
        | token kind =>
          obtain ⟨w, s, heq, hne⟩ := ih (room + 1) (p.after run)
          refine ⟨⟨kind, spanOf p run⟩ :: w, s, ?_, ?_⟩
          · rw [collect_token hrun, collect_eq, heq]
            rfl
          · intro t ht
            rcases List.mem_cons.1 ht with rfl | ht
            · intro hend
              exact Lexeme.ofRun_ne_end run (hrun.trans (congrArg _ hend))
            · exact hne t ht
        | bad cause =>
          obtain ⟨w, s, heq, hne⟩ := ih room (p.after run)
          refine ⟨w, s, ?_, hne⟩
          rw [collect_bad hrun, collect_eq, heq]
          rfl

/-- **A scan ends in the one end of the text.** -/
theorem exists_tokens_eq (text : List Char) :
    ∃ w s, (ofText text).tokens = w ++ [⟨.endOfInput, s⟩] ∧
      ∀ t ∈ w, t.kind ≠ .endOfInput :=
  collect_tokens maxFaults .origin (Lexeme.runs text)

end Scan

end Abacus
