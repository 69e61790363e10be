import EventTally.App
import EventTally.Atom
import EventTally.Builtin
import EventTally.Codec
import EventTally.CommandLine.Flags
import EventTally.Datum.Basic
import EventTally.Datum.Repr
import EventTally.Decimal.Integer
import EventTally.Decimal.Literal
import EventTally.Decimal.Reading
import EventTally.Decimal.Shortest
import EventTally.Doc
import EventTally.Eval.Collection
import EventTally.Eval.Comparison
import EventTally.Eval.Control
import EventTally.Eval.Evaluate
import EventTally.Eval.Lazy
import EventTally.Eval.Pattern
import EventTally.Eval.Recursor
import EventTally.Eval.Strict
import EventTally.Eval.World
import EventTally.Heap
import EventTally.Json
import EventTally.Json.Problem
import EventTally.Keyed
import EventTally.LanguageServer.Connection
import EventTally.LanguageServer.Document
import EventTally.LanguageServer.Position
import EventTally.LanguageServer.Server
import EventTally.Log
import EventTally.Machine.Basic
import EventTally.Machine.Database
import EventTally.Machine.Files
import EventTally.Machine.Path
import EventTally.Main
import EventTally.Program.Basic
import EventTally.Program.Version
import EventTally.Reason
import EventTally.Scope
import EventTally.Shell.Complete
import EventTally.Shell.Interact
import EventTally.Shell.Print
import EventTally.Shell.ReadCode
import EventTally.Shell.Script
import EventTally.Shell.Session
import EventTally.Source.Excerpt
import EventTally.Source.Expr
import EventTally.Source.Parser
import EventTally.Source.Token
import EventTally.Store.Basic
import EventTally.Store.File
import EventTally.Store.Update
import EventTally.Tally.Basic
import EventTally.Tally.Command
import EventTally.Tally.Event
import EventTally.Tally.Feed
import EventTally.Tally.Handle
import EventTally.Tally.Rule
import EventTally.Tally.RuleFile
import EventTally.Tally.Template
import EventTally.Testing.Expectation
import EventTally.Testing.Fixture
import EventTally.Testing.ProgramCase
import EventTally.Testing.Scale
import EventTally.Testing.StoreSuite
import EventTally.Testing.Table
import EventTally.Text.Blank
import EventTally.Text.Bytes
import EventTally.Text.Dedent
import EventTally.Text.Grapheme
import EventTally.Text.Printable
import EventTally.Text.Quoted
import EventTally.Text.TitleCase
import EventTally.Text.Width
import EventTally.Yaml.Node
import EventTally.Yaml.Reader
import EventTally.Yaml.Scalar
import EventTally.Proofs.Decimal.Doubles
import EventTally.Proofs.Decimal.Nearest
import EventTally.Proofs.Decimal.Shortest
import EventTally.Proofs.Decimal.Numeral
import EventTally.Proofs.Source.Lexing
import EventTally.Proofs.Source.Readable
import EventTally.Proofs.Source.RoundTrip
import EventTally.Proofs.Json.RoundTrip
import EventTally.Proofs.Codec
import EventTally.Proofs.Computation
import EventTally.Proofs.Heap.Sound
import EventTally.Proofs.Eval.Invariant
import EventTally.Proofs.Eval.Preservation
import EventTally.Proofs.Tally.Work
import EventTally.Proofs.Tally.Settle
import EventTally.Proofs.Tally.Feed
import EventTally.Proofs.Tally.Independence
import EventTally.Proofs.Heap.Extends
import EventTally.Proofs.Tally.Groups
import EventTally.Proofs.Eval.Formula
import EventTally.Proofs.Scope
import EventTally.Proofs.Tally.Formulas
import EventTally.Proofs.Tally.Recomputation
import EventTally.Proofs.Decimal.Integer
import EventTally.Proofs.Datum.Hash
import EventTally.Proofs.Codec.RoundTrip
import EventTally.Proofs.Source.Parsing
import EventTally.Proofs.Eval.Destructuring
import EventTally.Proofs.Eval.Frame
import EventTally.Proofs.Source.Completion
import EventTally.Proofs.Shell.Pieces
import EventTally.Proofs.Renaming.Datum
import EventTally.Proofs.Renaming.Evaluation
import EventTally.Proofs.Datum.Literal
import EventTally.Proofs.Eval.CallPath
import EventTally.Proofs.Eval.Literal
import EventTally.Proofs.Eval.Program
import EventTally.Proofs.Renaming.Beside
import EventTally.Proofs.LanguageServer.Diagnostics
import EventTally.Proofs.Store.Ledger
import EventTally.Proofs.Eval.Pins
import EventTally.Proofs.Eval.Spread
import EventTally.Proofs.Source.Tiling
import EventTally.Proofs.Datum.Order
import EventTally.Proofs.Eval.DictLiteral
import EventTally.Proofs.Eval.Quoted
import EventTally.Proofs.Eval.Slicing
import EventTally.Proofs.LanguageServer.Position
import EventTally.Proofs.Codec.Canonical
import EventTally.Proofs.Json.Complete
import EventTally.Proofs.Tally.Lines
import EventTally.Proofs.Store.Bucket
import EventTally.Proofs.Store.History
import EventTally.Proofs.Eval.Copying
import EventTally.Proofs.Tally.Expansion
import EventTally.Proofs.Source.Spacing
import EventTally.Proofs.Eval.ShortCircuit
