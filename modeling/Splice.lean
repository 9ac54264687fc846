import Splice.Text.CodePoint
import Splice.Text.Printable
import Splice.Text.Quoted
import Splice.Text.Bytes
import Splice.Number.Double
import Splice.Number.Arithmetic
import Splice.Number.Shortest
import Splice.Number.Layout
import Splice.Number.Complex
import Splice.Name
import Splice.Item
import Splice.Item.Render
import Splice.Item.Fold
import Splice.Store.Object
import Splice.Failure
import Splice.Datum
import Splice.Datum.Literal
import Splice.Datum.Display
import Splice.Store.Print
import Splice.Store.Equal
import Splice.Store.Hash
import Splice.Store.Session
import Splice.Amount
import Splice.Usage
import Splice.Fragment
import Splice.Template.Format
import Splice.Template.Segments
import Splice.Template
import Splice.Handle
import Splice.Handle.Tracking
import Splice.Handle.Text
import Splice.Handle.Code
import Splice.Validator
import Splice.Main
import Splice.Proofs.Plain
import Splice.Proofs.Build
import Splice.Proofs.Usage
import Splice.Proofs.Json.Quoted
import Splice.Proofs.JavaScript.StringLiteral
import Splice.Proofs.JavaScript.Concatenation
import Splice.Proofs.Folding.Scan
import Splice.Proofs.Folding.Value
import Splice.Proofs.Fragment
import Splice.Proofs.Expression
import Splice.Proofs.Expression.Value
import Splice.Proofs.Expression.Shape
import Splice.Proofs.Number.Digits
import Splice.Proofs.Number.Value
import Splice.Proofs.Json.Number
import Splice.Proofs.Json.Reader
import Splice.Proofs.Literal
import Splice.Proofs.Number.Relaid
import Splice.Proofs.JavaScript.Number
import Splice.Proofs.Number.Nearest
import Splice.Proofs.JavaScript.Numeral
import Splice.Proofs.JavaScript.Conversion
import Splice.Proofs.Store.Reach
import Splice.Proofs.Code
import Splice.Proofs.Literal.Confined
import Splice.Proofs.JavaScript.Formula
import Splice.Proofs.Folding.NormalForm
import Splice.Proofs.Folding.Names
import Splice.Proofs.Folding.Confluence
import Splice.Proofs.Folding.Rest
import Splice.Proofs.Folding.Runs
import Splice.Proofs.Folding.Consumption
import Splice.Proofs.Folding.Formula
import Splice.Proofs.Expression.Folding
import Splice.Proofs.Expression.Start
import Splice.Proofs.Expression.Constant
import Splice.Proofs.Expression.Operand
import Splice.Proofs.Usage.Tally
import Splice.Proofs.Outcome
import Splice.Proofs.Store.Rewrite
import Splice.Proofs.History.Sound
import Splice.Proofs.History.Step
import Splice.Proofs.Names
import Splice.Proofs.History
import Splice.Proofs.History.Names
import Splice.Proofs.Format.Field
import Splice.Proofs.Format
import Splice.Proofs.History.Format
import Splice.Proofs.Expression.Concat
import Splice.Proofs.History.Concat
import Splice.Proofs.Literal.Fault
import Splice.Proofs.JavaScript.Member
import Splice.Proofs.Property
import Splice.Proofs.Nested
import Splice.Proofs.History.Nested
import Splice.Proofs.Folding.Seam
import Splice.Proofs.Expression.Emptied
import Splice.Proofs.History.Continued
import Splice.Proofs.Expression.Listed
import Splice.Proofs.Usage.Update
import Splice.Proofs.Validator
