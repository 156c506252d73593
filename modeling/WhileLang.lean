import WhileLang.Decimal.Basic
import WhileLang.Decimal.Nearest
import WhileLang.Decimal.Shortest
import WhileLang.Decimal.Layout
import WhileLang.Operator
import WhileLang.Value
import WhileLang.Token
import WhileLang.Error
import WhileLang.Pattern
import WhileLang.Lexicon
import WhileLang.Tree
import WhileLang.Parse.Basic
import WhileLang.Parse.Expression
import WhileLang.Parse.Statement
import WhileLang.Nesting
import WhileLang.Scope
import WhileLang.Evaluation
import WhileLang.Machine
import WhileLang.Execution
import WhileLang.Program
import WhileLang.CommandLine
import WhileLang.Main
import WhileLang.Proofs.Grammar
import WhileLang.Proofs.Parse.Outcome
import WhileLang.Proofs.Parse.Soundness
import WhileLang.Proofs.Parse.Completeness
import WhileLang.Proofs.Acceptance
import WhileLang.Proofs.Printing
import WhileLang.Proofs.Lexemes
import WhileLang.Proofs.Splitting
import WhileLang.Proofs.BlockComment
import WhileLang.Proofs.Lines
import WhileLang.Proofs.Parse.Lines
import WhileLang.Proofs.Execution.Lines
import WhileLang.Proofs.Layout
import WhileLang.Proofs.LineEnds
import WhileLang.Proofs.Concatenation
import WhileLang.Proofs.Parse.Cut
import WhileLang.Proofs.Truncation
import WhileLang.Proofs.Height
import WhileLang.Proofs.Execution.Moments
import WhileLang.Proofs.Execution.StraightLine
import WhileLang.Proofs.Execution.Frame
import WhileLang.Proofs.Execution.Causes
import WhileLang.Proofs.Execution.Capacity
import WhileLang.Proofs.Execution.Simulation
import WhileLang.Proofs.LineRange
import WhileLang.Proofs.Execution.Renaming
import WhileLang.Proofs.Decimal.Bits
import WhileLang.Proofs.Decimal.Rounding
import WhileLang.Proofs.Scope.Sameness
import WhileLang.Proofs.Execution.Locality
import WhileLang.Proofs.Decimal.Numeral
import WhileLang.Proofs.ReadBack
import WhileLang.Proofs.Execution.Events
import WhileLang.Proofs.Execution.Loop
import WhileLang.Proofs.TokenLines
import WhileLang.Proofs.Separation
import WhileLang.Proofs.Parse.Category
import WhileLang.Proofs.WrittenNames
import WhileLang.Proofs.Parse.Completion
import WhileLang.Proofs.Parse.Extent
import WhileLang.Proofs.EndOfInput
import WhileLang.Proofs.Evaluation.FirstFault
import WhileLang.Proofs.Scope.Resolution
import WhileLang.Proofs.Segments
import WhileLang.Proofs.Scope.Equality
import WhileLang.Proofs.Scope.History
import WhileLang.Proofs.Parse.Provenance
import WhileLang.Proofs.Scope.Isolation
import WhileLang.Proofs.ByteOrder
import WhileLang.Proofs.StateDump
