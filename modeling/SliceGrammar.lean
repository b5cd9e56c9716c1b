import SliceGrammar.Utf8.Encoding
import SliceGrammar.Utf8.Decode
import SliceGrammar.Utf8.Text
import SliceGrammar.Position
import SliceGrammar.Cursor
import SliceGrammar.Span
import SliceGrammar.Outcome
import SliceGrammar.Log
import SliceGrammar.Parser.Basic
import SliceGrammar.Parser.Primitive
import SliceGrammar.Parser.Combinator
import SliceGrammar.Parser.Repetition
import SliceGrammar.Parser.Run
import SliceGrammar.Decimal
import SliceGrammar.Value
import SliceGrammar.Expr.Basic
import SliceGrammar.Expr.Parse
import SliceGrammar.Action
import SliceGrammar.Session
import SliceGrammar.Proofs.Codec
import SliceGrammar.Proofs.Cursor
import SliceGrammar.Proofs.Plan
import SliceGrammar.Proofs.Nullable
import SliceGrammar.Proofs.Primitive
import SliceGrammar.Proofs.Forward
import SliceGrammar.Proofs.Textual
import SliceGrammar.Proofs.Peg
import SliceGrammar.Proofs.Termination
import SliceGrammar.Proofs.Calls
import SliceGrammar.Proofs.Placement
import SliceGrammar.Proofs.Walk
import SliceGrammar.Proofs.Locality
import SliceGrammar.Proofs.Boundary
import SliceGrammar.Proofs.Outcome
import SliceGrammar.Proofs.Region
import SliceGrammar.Proofs.Joining
import SliceGrammar.Proofs.Refactoring
import SliceGrammar.Proofs.Greedy
import SliceGrammar.Proofs.Reasons
import SliceGrammar.Proofs.Spelling
import SliceGrammar.Proofs.Delimiter
import SliceGrammar.Proofs.Consumption
import SliceGrammar.Proofs.Numeral
import SliceGrammar.Proofs.Sum
import SliceGrammar.Proofs.Malformation
import SliceGrammar.Proofs.Lines
import SliceGrammar.Proofs.Display
import SliceGrammar.Proofs.Synchronisation
import SliceGrammar.Proofs.Trace
