import SugaredLambda.Main
import SugaredLambda.Proofs.Church.Canonical
import SugaredLambda.Proofs.Church.Names
import SugaredLambda.Proofs.Church.Placement
import SugaredLambda.Proofs.Church.Reading
import SugaredLambda.Proofs.Church.Recognition
import SugaredLambda.Proofs.Church.RoundTrip
import SugaredLambda.Proofs.Lambda.Leftmost
import SugaredLambda.Proofs.Lambda.Standard
import SugaredLambda.Proofs.Lambda.Stack
import SugaredLambda.Proofs.Grammar.Lexical
import SugaredLambda.Proofs.Grammar.Memory
import SugaredLambda.Proofs.Grammar.Rules
import SugaredLambda.Proofs.Parser.Pairing
import SugaredLambda.Proofs.Parser.Reading
import SugaredLambda.Proofs.Grammar.Sugar
import SugaredLambda.Proofs.Grammar.Written
import SugaredLambda.Proofs.Grammar.Rows
import SugaredLambda.Proofs.Grammar.Signs
import SugaredLambda.Proofs.Grammar.Heads
import SugaredLambda.Proofs.Grammar.Definitions
import SugaredLambda.Proofs.Grammar.Unambiguous
import SugaredLambda.Proofs.Grammar.Printed
import SugaredLambda.Proofs.Grammar.Printable
import SugaredLambda.Proofs.Grammar.Readings
import SugaredLambda.Proofs.Text.Lines
import SugaredLambda.Proofs.Text.Smooth
import SugaredLambda.Proofs.Term.FreeNames
import SugaredLambda.Proofs.Definitions.Order
import SugaredLambda.Proofs.Definitions.Sort
import SugaredLambda.Proofs.Church.Demands
import SugaredLambda.Proofs.Definitions.Scoping
import SugaredLambda.Proofs.Church.Delay
import SugaredLambda.Proofs.Church.Congruence
import SugaredLambda.Proofs.Church.Evaluation
import SugaredLambda.Proofs.Church.Context
import SugaredLambda.Proofs.Church.Environment
import SugaredLambda.Proofs.Definitions.Permutation
import SugaredLambda.Proofs.Parser.Derivation
import SugaredLambda.Proofs.Grammar.Derivation
import SugaredLambda.Proofs.Grammar.Calls
import SugaredLambda.Proofs.Parser.Attention
import SugaredLambda.Proofs.Grammar.Failure
import SugaredLambda.Proofs.Grammar.Layout
import SugaredLambda.Proofs.Grammar.Legible
import SugaredLambda.Proofs.Church.Regular
import SugaredLambda.Proofs.Command.Run
import SugaredLambda.Proofs.Command.Results
import SugaredLambda.Proofs.Lambda.Calls
import SugaredLambda.Proofs.Church.Loops
import SugaredLambda.Proofs.Church.Ground
import SugaredLambda.Proofs.Library.Selection
import SugaredLambda.Proofs.Library.Values
import SugaredLambda.Proofs.Library.Arithmetic
import SugaredLambda.Proofs.Library.Powers
import SugaredLambda.Proofs.Library.Closure
import SugaredLambda.Proofs.Term.Replace
import SugaredLambda.Proofs.Library.Lists
import SugaredLambda.Proofs.Library.Recursion
import SugaredLambda.Proofs.Grammar.Applications
import SugaredLambda.Proofs.Command.Errors
import SugaredLambda.Proofs.Church.Replacement
import SugaredLambda.Proofs.Church.Records
import SugaredLambda.Proofs.Church.Depth
import SugaredLambda.Proofs.Definitions.Cycles
import SugaredLambda.Proofs.Definitions.Idempotence
import SugaredLambda.Proofs.Church.Direct
import SugaredLambda.Proofs.Text.Projection
import SugaredLambda.Proofs.Term.FreeSet
import SugaredLambda.Proofs.Definitions.Stability
import SugaredLambda.Proofs.Parser.Loop
import SugaredLambda.Proofs.Grammar.Advance
import SugaredLambda.Proofs.Bits.Engine
import SugaredLambda.Proofs.Lambda.Text
import SugaredLambda.Proofs.Lambda.Traversal
import SugaredLambda.Proofs.Church.Words
import SugaredLambda.Proofs.Parser.Chains
