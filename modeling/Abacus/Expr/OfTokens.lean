import Abacus.Fault
import Abacus.Limits

/-!
# Expr — OfTokens

The tree of a list of tokens. Tokens are read once, from left to right, by
a machine whose state holds what has been read and still waits for its
right operand: in the current group a sum, a product and a run of signs,
and for each group around it the same three and the place of its `(`. So a
state is all that the next token needs, and reading a list is a fold.

The grammar:

* an expression is a chain of terms joined by `+` and `-`;
* a term is a chain of factors joined by `*` and `/`;
* a factor is a run of signs before a number or an expression in
  parentheses.

Chains lean to the left. A run with an odd number of `-` is one negation;
any other run adds nothing but its place.

Two checks come before reading: the number of tokens, and the balance of
parentheses over the whole list.
-/

namespace Abacus.Expr

/-! ## Putting trees together -/

/-- A left operand and its operator, waiting for the right operand. -/
structure Waiting where
  left : Expr
  op : BinaryOp
deriving DecidableEq

/-- An operator between two operands, standing where both stand. -/
def join (left : Expr) (op : BinaryOp) (right : Expr) : Expr :=
  .binary (left.span.merge right.span) op left right

/-- The operand that something may have been waiting for. -/
def complete (waiting? : Option Waiting) (right : Expr) : Expr :=
  match waiting? with
  | none => right
  | some w => join w.left w.op right

/-- A run of signs: where it begins, and whether it holds an odd number of
`-`. -/
structure Signs where
  /-- Where the first sign stands. -/
  start : Span
  /-- Whether the run negates. -/
  odd : Bool
deriving DecidableEq

/-- The operand after a run of signs. -/
def signed (signs? : Option Signs) (operand : Expr) : Expr :=
  match signs? with
  | none => operand
  | some signs =>
    let span := signs.start.merge operand.span
    if signs.odd then .negate span operand else operand.withSpan span

/-- A run of signs with one more sign. -/
def addSign (signs? : Option Signs) (span : Span) (minus : Bool) : Signs :=
  match signs? with
  | none => ⟨span, minus⟩
  | some signs => ⟨signs.start, signs.odd ^^ minus⟩

/-! ## States -/

/-- What waits for the next operand of a group. -/
structure Pending where
  /-- A sum that waits for a term. -/
  sum? : Option Waiting
  /-- A product that waits for a factor. -/
  product? : Option Waiting
  /-- Signs that wait for a number or a group. -/
  signs? : Option Signs
deriving DecidableEq

/-- Nothing waits: a group or the whole expression begins. -/
def Pending.none : Pending := ⟨.none, .none, .none⟩

/-- A group that has been opened: where, and what waits for it outside. -/
structure Open where
  paren : Span
  outer : Pending
deriving DecidableEq

/-- What has been read. The groups are given innermost first. -/
inductive State where
  /-- A sign, a number or a `(` has to come next. -/
  | needOperand (pending : Pending) (groups : List Open)
  /-- A term is complete; an operator, a `)` or the end has to come next. -/
  | haveTerm (sum? : Option Waiting) (term : Expr) (groups : List Open)
deriving DecidableEq

/-- Where reading begins. -/
def State.start : State := .needOperand .none []

/-- The state after a number or a group, given what waited for it. -/
def State.ofOperand (pending : Pending) (operand : Expr) (groups : List Open) : State :=
  .haveTerm pending.sum? (complete pending.product? (signed pending.signs? operand)) groups

/-- Whether the last token was the `(` of a group. -/
def justOpened? (pending : Pending) (groups : List Open) : Option Span :=
  match groups with
  | [] => none
  | nearest :: _ => if pending = .none then some nearest.paren else none

/-! ## One token -/

/-- What is wrong just after a `(`, if anything: a `)` makes the group
empty, and before any other token the group must not be nested too deep. -/
def opening? (maxDepth : Nat) (pending : Pending) (groups : List Open) (token : Token) :
    Option Fault :=
  match justOpened? pending groups with
  | none => none
  | some paren =>
    if token.kind = .rightParen then some ⟨.emptyParentheses, paren.merge token.span⟩
    else if maxDepth < groups.length then some ⟨.nestedTooDeep maxDepth, paren⟩
    else none

/-- Reads a token where an operand is needed. -/
def stepOperand (previous? : Option TokenKind) (pending : Pending) (groups : List Open)
    (token : Token) : Except Fault State :=
  match token.kind with
  | .number value => .ok (.ofOperand pending (.literal token.span value) groups)
  | .leftParen => .ok (.needOperand .none (⟨token.span, pending⟩ :: groups))
  | .plus =>
    .ok (.needOperand { pending with signs? := addSign pending.signs? token.span false } groups)
  | .minus =>
    .ok (.needOperand { pending with signs? := addSign pending.signs? token.span true } groups)
  | kind => .error ⟨.missingOperand previous? kind, token.span⟩

/-- Reads a token after a complete term. -/
def stepTerm (sum? : Option Waiting) (term : Expr) (groups : List Open) (token : Token) :
    Except Fault State :=
  match token.kind with
  | .plus => .ok (.needOperand ⟨some ⟨complete sum? term, .add⟩, none, none⟩ groups)
  | .minus => .ok (.needOperand ⟨some ⟨complete sum? term, .sub⟩, none, none⟩ groups)
  | .star => .ok (.needOperand ⟨sum?, some ⟨term, .mul⟩, none⟩ groups)
  | .slash => .ok (.needOperand ⟨sum?, some ⟨term, .div⟩, none⟩ groups)
  | kind =>
    match groups with
    | [] => .error ⟨.trailing kind, token.span⟩
    | nearest :: groups =>
      if kind = .rightParen then
        .ok (.ofOperand nearest.outer
          (.group (nearest.paren.merge token.span) (complete sum? term)) groups)
      else .error ⟨.missingClose kind, token.span⟩

/-- Reads one token. -/
def step (maxDepth : Nat) (previous? : Option TokenKind) (state : State) (token : Token) :
    Except Fault State :=
  match state with
  | .needOperand pending groups =>
    match opening? maxDepth pending groups token with
    | some fault => .error fault
    | none => stepOperand previous? pending groups token
  | .haveTerm sum? term groups => stepTerm sum? term groups token

/-! ## All tokens -/

/-- Ends reading at `token`, the end of the text. -/
def finish (maxDepth : Nat) (previous? : Option TokenKind) (state : State) (token : Token) :
    Except Fault Expr :=
  match state with
  | .haveTerm sum? term [] => .ok (complete sum? term)
  | .haveTerm _ _ (_ :: _) => .error ⟨.missingClose token.kind, token.span⟩
  | .needOperand pending groups =>
    match opening? maxDepth pending groups token with
    | some fault => .error fault
    | none => .error ⟨.missingOperand previous? token.kind, token.span⟩

/-- Ends reading after `token`, where the list ends without an end of the
text. The last token is all there is to point at. -/
def runOut (state : State) (token : Token) : Except Fault Expr :=
  match state with
  | .haveTerm _ _ [] => .error ⟨.trailing token.kind, token.span⟩
  | .haveTerm _ _ (_ :: _) => .error ⟨.missingClose token.kind, token.span⟩
  | .needOperand _ _ => .error ⟨.missingOperand (some token.kind) token.kind, token.span⟩

/-- Reads tokens up to the first end of the text, `previous` being the token
before them. -/
def readAfter (maxDepth : Nat) (previous : Token) (state : State) :
    List Token → Except Fault Expr
  | [] => runOut state previous
  | token :: rest =>
    if token.kind = .endOfInput then finish maxDepth (some previous.kind) state token
    else
      match step maxDepth (some previous.kind) state token with
      | .error fault => .error fault
      | .ok state => readAfter maxDepth token state rest

/-- Reads a list of tokens up to the first end of the text. -/
def read (maxDepth : Nat) : List Token → Except Fault Expr
  | [] => .error ⟨.emptyExpression, .point .origin⟩
  | token :: rest =>
    if token.kind = .endOfInput then .error ⟨.emptyExpression, token.span⟩
    else
      match step maxDepth none .start token with
      | .error fault => .error fault
      | .ok state => readAfter maxDepth token state rest

/-! ## Checks on the whole list -/

/-- The fault of a list with too many tokens. The last token, the end of
the text, is not counted. -/
def tooLong? (maxTokens : Nat) (tokens : List Token) : Option Fault :=
  let count := tokens.length - 1
  if count ≤ maxTokens then none
  else tokens[maxTokens]?.map fun token => ⟨.tooManyTokens count maxTokens, token.span⟩

/-- The fault of a list whose parentheses are not balanced, after the given
open ones, innermost first: the first `)` with nothing to close, or else
the innermost `(` that stays open. -/
def unbalanced? (opened : List Span) : List Token → Option Fault
  | [] => opened.head?.map fun span => ⟨.unclosedOpen, span⟩
  | token :: rest =>
    match token.kind, opened with
    | .leftParen, _ => unbalanced? (token.span :: opened) rest
    | .rightParen, [] => some ⟨.unmatchedClose, token.span⟩
    | .rightParen, _ :: opened => unbalanced? opened rest
    | _, _ => unbalanced? opened rest

/-- The tree of a list of tokens under given limits. -/
def ofTokens (limits : Limits) (tokens : List Token) : Except Fault Expr :=
  match tooLong? limits.clamped.maxTokens tokens with
  | some fault => .error fault
  | none =>
    match unbalanced? [] tokens with
    | some fault => .error fault
    | none => read limits.clamped.maxDepth tokens

/-- The ceilings are applied in any case. -/
theorem ofTokens_clamped (limits : Limits) (tokens : List Token) :
    ofTokens limits.clamped tokens = ofTokens limits tokens := by
  simp only [ofTokens, Limits.clamped_clamped]

end Abacus.Expr
