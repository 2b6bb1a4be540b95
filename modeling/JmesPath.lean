import JmesPath.CommandLine.Run
import JmesPath.Json.Text
import JmesPath.Main
import JmesPath.Proofs.Eval.Endless
import JmesPath.Proofs.Grammar.Highest
import JmesPath.Proofs.Grammar.Brackets
import JmesPath.Proofs.Grammar.Precedence
import JmesPath.Proofs.PipeLaw
import JmesPath.Proofs.Projection.MultiSelect
import JmesPath.Proofs.Projection.Wildcard
import JmesPath.Proofs.Grammar.Shapes
import JmesPath.Proofs.Eval.Faults
import JmesPath.Proofs.Eval.Discipline
import JmesPath.Proofs.Lexing.Spans
import JmesPath.Proofs.Spacing
import JmesPath.Proofs.IdentityQuery
import JmesPath.Proofs.Json.Numbers
import JmesPath.Proofs.Json.Grammar
import JmesPath.Proofs.Json.Printing
import JmesPath.Proofs.Lexing.Quotes
import JmesPath.Proofs.Lexing.Printed
import JmesPath.Proofs.Tree.Calls
import JmesPath.Proofs.Tree.Shape
import JmesPath.Proofs.FaultPlaces
import JmesPath.Proofs.Number.Exact
import JmesPath.Proofs.Slices
import JmesPath.Proofs.Order.Extremes
import JmesPath.Proofs.Order.Insertion
import JmesPath.Proofs.Function.Calls
import JmesPath.Proofs.Function.Merge
import JmesPath.Proofs.Equality
import JmesPath.Proofs.Projection.Fusion
import JmesPath.Proofs.Mapping
import JmesPath.Proofs.Json.Layouts
import JmesPath.Proofs.Lexing.Streaming
import JmesPath.Proofs.Json.Unambiguous
import JmesPath.Proofs.Text.Quoted
import JmesPath.Proofs.Tree.Labels
import JmesPath.Proofs.Tree.Outline
import JmesPath.Proofs.Number.Decimals
import JmesPath.Proofs.Number.Numerals
import JmesPath.Proofs.NumberText
import JmesPath.Proofs.Tape.Levels
