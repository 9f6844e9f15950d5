import HanScript.Compile
import HanScript.Definition.Load
import HanScript.Parser.Call
import HanScript.Parser.Progress
import HanScript.Proofs.Conformance.Rendered
import HanScript.Proofs.Grammar.Synonyms
import HanScript.Proofs.Joining
import HanScript.Proofs.Layout
import HanScript.Proofs.Lexing.Cutting
import HanScript.Proofs.Lexing.Justified
import HanScript.Proofs.Lexing.Placing
import HanScript.Proofs.Lexing.Punctuation
import HanScript.Proofs.Lexing.Quotes
import HanScript.Proofs.Lexing.Quoting
import HanScript.Proofs.Lexing.Relexing
import HanScript.Proofs.Lexing.Seams
import HanScript.Proofs.Lexing.Tiling
import HanScript.Proofs.Lexing.Worth
import HanScript.Proofs.NormalForm
import HanScript.Proofs.Parsing.Abreast
import HanScript.Proofs.Parsing.Earliest
import HanScript.Proofs.Parsing.Onward
import HanScript.Proofs.Printing.Arranged
import HanScript.Proofs.Printing.Indented
import HanScript.Proofs.Printing.Integer
import HanScript.Proofs.Printing.Leading
import HanScript.Proofs.Printing.NearestIf
import HanScript.Proofs.Printing.OneLine
import HanScript.Proofs.Printing.Pieces
import HanScript.Proofs.Printing.Rows
import HanScript.Proofs.Printing.Unmarked
import HanScript.Proofs.Printing.Unquoted
import HanScript.Proofs.RoundTrip.Chain
import HanScript.Proofs.RoundTrip.Program
import HanScript.Proofs.Sameness
import HanScript.Proofs.Spans.Beginning
import HanScript.Proofs.Spans.Expression
import HanScript.Proofs.Spans.Nesting
import HanScript.Proofs.Spans.Statement
import HanScript.Proofs.Synonyms
import HanScript.Proofs.Unambiguous
import HanScript.Scanner.Progress
import HanScript.Syntax.Equality
