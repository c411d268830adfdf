/-!
# Limits

The bounds within which an expression is read and evaluated.
-/

namespace Abacus

/-- Bounds on one evaluation. -/
structure Limits where
  maxDepth : Nat
  /-- How many tokens there may be, the end of the text not counted. -/
  maxTokens : Nat
  /-- How many steps evaluation may take; when absent, as many as there are
  tokens, the end of the text counted. -/
  stepLimit? : Option Nat
deriving DecidableEq

namespace Limits

/-- The limits that hold when none are given. -/
def standard : Limits := ⟨64, 10000, none⟩

/-- No limit on nesting is above this one. -/
def depthCeiling : Nat := 256

/-- No limit on the number of tokens is above this one. -/
def tokenCeiling : Nat := 1000000

/-- The limits with the ceilings applied. -/
def clamped (l : Limits) : Limits :=
  ⟨min l.maxDepth depthCeiling, min l.maxTokens tokenCeiling, l.stepLimit?⟩

/-- Applying the ceilings twice is applying them once. -/
@[simp] theorem clamped_clamped (l : Limits) : l.clamped.clamped = l.clamped := by
  simp [clamped]

/-- The standard limits are below the ceilings. -/
theorem clamped_standard : standard.clamped = standard := by decide

end Limits

end Abacus
