import Monkey.Ast.Basic
import Monkey.Ast.Node
import Monkey.Ast.Render
import Monkey.Command
import Monkey.Dict
import Monkey.Eval.Builtin
import Monkey.Eval.Evaluate
import Monkey.Eval.World
import Monkey.Main
import Monkey.Parser.Basic
import Monkey.Parser.Grammar
import Monkey.Parser.Parsed
import Monkey.Parser.Trace
import Monkey.Proofs.Accepted
import Monkey.Proofs.Arithmetic
import Monkey.Proofs.Block
import Monkey.Proofs.Budget
import Monkey.Proofs.Calls
import Monkey.Proofs.Climbing
import Monkey.Proofs.Composition
import Monkey.Proofs.Concatenation
import Monkey.Proofs.Creation
import Monkey.Proofs.Cursor
import Monkey.Proofs.Data
import Monkey.Proofs.Delegation
import Monkey.Proofs.Delivery
import Monkey.Proofs.Derivation
import Monkey.Proofs.Displacement
import Monkey.Proofs.Evaluation
import Monkey.Proofs.Failure
import Monkey.Proofs.Frame
import Monkey.Proofs.Halting
import Monkey.Proofs.Inert
import Monkey.Proofs.Ledger
import Monkey.Proofs.Likeness
import Monkey.Proofs.Lines
import Monkey.Proofs.Literals
import Monkey.Proofs.Locality
import Monkey.Proofs.Lookup
import Monkey.Proofs.Lossless
import Monkey.Proofs.Mapping
import Monkey.Proofs.Messages
import Monkey.Proofs.Motion
import Monkey.Proofs.Nesting
import Monkey.Proofs.Noninterference
import Monkey.Proofs.Objects
import Monkey.Proofs.Operands
import Monkey.Proofs.Order
import Monkey.Proofs.Outline
import Monkey.Proofs.Parameters
import Monkey.Proofs.Phrases
import Monkey.Proofs.Places
import Monkey.Proofs.Precedence
import Monkey.Proofs.Quiet
import Monkey.Proofs.Quotation
import Monkey.Proofs.Readback
import Monkey.Proofs.Relocation
import Monkey.Proofs.Renaming
import Monkey.Proofs.Reparse
import Monkey.Proofs.Repetition
import Monkey.Proofs.Reserved
import Monkey.Proofs.Return
import Monkey.Proofs.Room
import Monkey.Proofs.Roundtrip
import Monkey.Proofs.Rule
import Monkey.Proofs.Scan
import Monkey.Proofs.Scoping
import Monkey.Proofs.Scripts
import Monkey.Proofs.Signals
import Monkey.Proofs.Simulation
import Monkey.Proofs.Spacing
import Monkey.Proofs.Spelling
import Monkey.Proofs.Tabs
import Monkey.Proofs.Tally
import Monkey.Proofs.Tracing
import Monkey.Proofs.Trees
import Monkey.Proofs.Twin
import Monkey.Proofs.Unwinding
import Monkey.Proofs.Walks
import Monkey.Proofs.Words
import Monkey.Report
import Monkey.Scope
import Monkey.Session.Completion
import Monkey.Session.Dialogue
import Monkey.Session.Script
import Monkey.Session.Strict
import Monkey.Session.Submission
import Monkey.Text.Blank
import Monkey.Text.Digit
import Monkey.Text.Escape
import Monkey.Text.Invisible
import Monkey.Text.Line
import Monkey.Text.Number
import Monkey.Text.Quoted
import Monkey.Text.Tab
import Monkey.Text.Utf8
import Monkey.Token
import Monkey.Token.Piece
import Monkey.Token.Stream
import Monkey.Value.Basic
import Monkey.Value.Operator
