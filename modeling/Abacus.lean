import Abacus.Json.Codec
import Abacus.Main
import Abacus.Proofs.Acceptance
import Abacus.Proofs.Attribution
import Abacus.Proofs.Balance
import Abacus.Proofs.Blanks
import Abacus.Proofs.Carets
import Abacus.Proofs.Chains
import Abacus.Proofs.CodecLaws
import Abacus.Proofs.Counters
import Abacus.Proofs.Cursor
import Abacus.Proofs.Cutoff
import Abacus.Proofs.Decoding
import Abacus.Proofs.Descent
import Abacus.Proofs.EarliestFault
import Abacus.Proofs.EntryPoints
import Abacus.Proofs.Evaluation
import Abacus.Proofs.ExactArithmetic
import Abacus.Proofs.Exactness
import Abacus.Proofs.Finiteness
import Abacus.Proofs.Grammar
import Abacus.Proofs.GroupElimination
import Abacus.Proofs.Heights
import Abacus.Proofs.JsonNumbers
import Abacus.Proofs.JsonText
import Abacus.Proofs.Lexemes
import Abacus.Proofs.LineTable
import Abacus.Proofs.Lines
import Abacus.Proofs.Meanings
import Abacus.Proofs.Narrowing
import Abacus.Proofs.Outcome
import Abacus.Proofs.Parts
import Abacus.Proofs.Placement
import Abacus.Proofs.Places
import Abacus.Proofs.Pointing
import Abacus.Proofs.Precedence
import Abacus.Proofs.ReadBack
import Abacus.Proofs.Reading
import Abacus.Proofs.Recovery
import Abacus.Proofs.Refinement
import Abacus.Proofs.Refusal
import Abacus.Proofs.Repairs
import Abacus.Proofs.SExpressions
import Abacus.Proofs.Sessions
import Abacus.Proofs.SignRuns
import Abacus.Proofs.StandardCodec
import Abacus.Proofs.StepBudget
import Abacus.Proofs.StepLimits
import Abacus.Proofs.Subexpressions
import Abacus.Proofs.Tiers
import Abacus.Proofs.TokenStream
import Abacus.Proofs.WrittenJson
import Abacus.Proofs.ZeroSigns
