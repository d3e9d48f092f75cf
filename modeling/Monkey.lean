import Monkey.Text.Quoted
import Monkey.Console.Editor
import Monkey.Console.Turn
import Monkey.Highlight
import Monkey.Main
import Monkey.Proofs.Grammar.Rendering
import Monkey.Proofs.Layout
import Monkey.Proofs.Parser.Account
import Monkey.Proofs.Parser.Resynchronisation
import Monkey.Proofs.Evaluation.FailStop
import Monkey.Proofs.Evaluation.PendingReturn
import Monkey.Proofs.Evaluation.WellFormed
import Monkey.Proofs.Session
import Monkey.Proofs.Parser.Whole
import Monkey.Proofs.Node.Rebuilding
import Monkey.Proofs.Value.ReadBack
import Monkey.Proofs.Console.Brackets
import Monkey.Proofs.Console.Normalization
import Monkey.Proofs.Scanner.Progress
import Monkey.Proofs.Highlight.Lines
import Monkey.Proofs.Evaluation.Unnamed
import Monkey.Proofs.Console.Turns
import Monkey.Proofs.Highlight.Colours
import Monkey.Proofs.Evaluation.Exactness
import Monkey.Proofs.Evaluation.HashLiteral
import Monkey.Proofs.Evaluation.Identity
import Monkey.Proofs.Console.Commands
import Monkey.Proofs.Evaluation.Unwinding
import Monkey.Proofs.Parser.Cursor
import Monkey.Proofs.Evaluation.Mapping
