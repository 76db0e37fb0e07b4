import ExprLang.BindingFile
import ExprLang.Folding
import ExprLang.ModelList
import ExprLang.Template
import ExprLang.Scanner
import ExprLang.Value.Access
import ExprLang.Proofs.Bare.Compare
import ExprLang.Proofs.Bare.Step
import ExprLang.Proofs.Denotation
import ExprLang.Proofs.Folding.Meaning
import ExprLang.Proofs.Parser.Reads
import ExprLang.Proofs.Parser.Exact
import ExprLang.Proofs.Grammar
import ExprLang.Proofs.Printing.Words
import ExprLang.Proofs.Printing.Again
import ExprLang.Proofs.Printing.RoundTrip
import ExprLang.Proofs.Entries
import ExprLang.Proofs.Folding.Stable
import ExprLang.Proofs.Heredity
import ExprLang.Proofs.Equality
import ExprLang.Proofs.Bindings
import ExprLang.Proofs.Folding.Closed
import ExprLang.Proofs.Folding.Keys
import ExprLang.Proofs.Printing.Values
import ExprLang.Proofs.Raised
import ExprLang.Proofs.Frames
import ExprLang.Proofs.Parser.Each
import ExprLang.Proofs.Failing
import ExprLang.Proofs.Lenient
import ExprLang.Proofs.Located
import ExprLang.Proofs.Unplaced
import ExprLang.Proofs.Parser.Tracks
import ExprLang.Proofs.Parser.Continued
import ExprLang.Proofs.Templates
import ExprLang.Proofs.Positions
import ExprLang.Proofs.Parser.Forks
import ExprLang.Proofs.Parser.Braces
import ExprLang.Proofs.Spans
import ExprLang.Proofs.Number.Numerals
import ExprLang.Proofs.Number.Exact
import ExprLang.Proofs.Ranges
import ExprLang.Proofs.Printing.Operands
import ExprLang.Proofs.Printing.Spells
import ExprLang.Proofs.Printing.Source
import ExprLang.Proofs.Printing.Shape
import ExprLang.Proofs.Printing.Meaning
import ExprLang.Proofs.Printing.Canonical
import ExprLang.Proofs.Cuts
import ExprLang.Proofs.Respaced
import ExprLang.Proofs.Comparison
import ExprLang.Proofs.Transitivity
import ExprLang.Proofs.Ties
import ExprLang.Proofs.Selection
import ExprLang.Proofs.Interchange
import ExprLang.Proofs.Embedded
import ExprLang.Proofs.Fallback
import ExprLang.Proofs.BindingLines
import ExprLang.Proofs.Loading
import ExprLang.Proofs.Exchange
import ExprLang.Proofs.History
import ExprLang.Proofs.Origins
import ExprLang.Proofs.Parser.Progress
import ExprLang.Proofs.Parser.Depth
import ExprLang.Proofs.Number.Rounding
import ExprLang.Proofs.Printing.Indices
import ExprLang.Proofs.Indices
import ExprLang.Proofs.Printing.Models
import ExprLang.Proofs.Models
import ExprLang.Proofs.Counting
import ExprLang.Proofs.Number.Whole
import ExprLang.Proofs.Rotation
import ExprLang.Proofs.Access
import ExprLang.Proofs.Folding.Numbered
import ExprLang.Proofs.Folding.Constants
import ExprLang.Proofs.Folding.Tandem
import ExprLang.Proofs.Folding.Places
import ExprLang.Proofs.Number.Longest
import ExprLang.Proofs.Results
import ExprLang.Proofs.Like.Trees
import ExprLang.Proofs.Number.Shifts
import ExprLang.Proofs.Iteration
import ExprLang.Proofs.Number.Nearest
import ExprLang.Proofs.Retries
import ExprLang.Proofs.Number.Decimals
import ExprLang.Proofs.Number.Distance
import ExprLang.Proofs.Number.Lossless
import ExprLang.Proofs.Folding.Order
