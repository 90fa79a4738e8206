import Treewalk.Binary
import Treewalk.Decimal
import Treewalk.Decimal.Shortest
import Treewalk.Decimal.Style
import Treewalk.Text
import Treewalk.Text.Lines
import Treewalk.Text.DecimalDigit
import Treewalk.Text.Printable
import Treewalk.Json
import Treewalk.Json.Reader
import Treewalk.Json.Writer
import Treewalk.Name
import Treewalk.Value
import Treewalk.Token
import Treewalk.Token.Segment
import Treewalk.Token.Scan
import Treewalk.Diagnostic
import Treewalk.Tree
import Treewalk.Tree.Step
import Treewalk.Tree.Grammar
import Treewalk.Tree.Text
import Treewalk.Tree.Codec
import Treewalk.Scope
import Treewalk.Scope.Forest
import Treewalk.Machine
import Treewalk.Machine.Visit
import Treewalk.Session
import Treewalk.Command.Request
import Treewalk.Command.Store
import Treewalk.Command
import Treewalk.Main
import Treewalk.Proofs.Grammar.Ebnf
import Treewalk.Proofs.Grammar.Derivation
import Treewalk.Proofs.Grammar.Sentence
import Treewalk.Proofs.Grammar.Induction
import Treewalk.Proofs.Grammar.EndMark
import Treewalk.Proofs.Grammar.Completeness
import Treewalk.Proofs.Grammar.Program
import Treewalk.Proofs.Grammar.Contents
import Treewalk.Proofs.Machine.Discipline
import Treewalk.Proofs.Machine.Safety
import Treewalk.Proofs.Scanner.LongestMatch
import Treewalk.Proofs.Scanner.Tokens
import Treewalk.Proofs.Session.Safety
import Treewalk.Proofs.Number.Pattern
import Treewalk.Proofs.Number.Nearest
import Treewalk.Proofs.Number.ReadBack
import Treewalk.Proofs.Json.Numeral
import Treewalk.Proofs.Json.RoundTrip
import Treewalk.Proofs.Tree.Codec
import Treewalk.Proofs.Tree.Stored
import Treewalk.Proofs.Command.Store
import Treewalk.Proofs.Command.EmitAndLoad
import Treewalk.Proofs.Machine.Correspondence
import Treewalk.Proofs.Scope.Names
import Treewalk.Proofs.Session.Steps
import Treewalk.Proofs.Session.Account
import Treewalk.Proofs.Session.Outcome
import Treewalk.Proofs.Scope.Sites
import Treewalk.Proofs.Scope.Resolution
import Treewalk.Proofs.Grammar.Relabel
import Treewalk.Proofs.Scanner.Seam
import Treewalk.Proofs.Machine.Rounds
import Treewalk.Proofs.Session.Seam
import Treewalk.Proofs.Grammar.CorrectPrefix
import Treewalk.Proofs.Session.Showable
import Treewalk.Proofs.Session.Tracing
import Treewalk.Proofs.Machine.ForLoop
import Treewalk.Proofs.Grammar.FirstEnd
import Treewalk.Proofs.Session.Past
import Treewalk.Proofs.Session.Prompt
import Treewalk.Proofs.Scope.Mentions
import Treewalk.Proofs.Grammar.Calls
import Treewalk.Proofs.Grammar.Tally
import Treewalk.Proofs.Scanner.Layout
import Treewalk.Proofs.Grammar.Boundary
import Treewalk.Proofs.Grammar.Shape
import Treewalk.Proofs.Grammar.Mended
import Treewalk.Proofs.Scope.NearestBinding
import Treewalk.Proofs.Scope.Sight
import Treewalk.Proofs.Number.Spoken
import Treewalk.Proofs.Tree.Phrase
import Treewalk.Proofs.Tree.Legible
import Treewalk.Proofs.Tree.Unambiguous
