import Treewalk.Token.Segment
import Treewalk.Diagnostic

/-!
# Scanning: the tokens of a source text

The segments of a text are placed on lines; the line of a segment is the
one it ends on. Lexemes become tokens, a stray character and an unclosed
string become diagnostics, trivia only moves the line on. The token list
ends with an end mark on the last line.
-/

namespace Treewalk

namespace Segment

/-- How many lines a segment ends. -/
def newlines (s : Segment) : Int :=
  s.text.count '\n'

/-- Each segment with the line it ends on. -/
def place (line : Int) : List Segment → List (Segment × Int)
  | [] => []
  | s :: rest => (s, line + s.newlines) :: place (line + s.newlines) rest

/-- The digits of a number lexeme, before and after the point. -/
def decimal (cs : List Char) : Decimal :=
  Decimal.ofPoint (cs.takeWhile isDigit) ((cs.dropWhile isDigit).drop 1)

/-- The value a lexeme denotes. -/
def literal (kind : Kind) (cs : List Char) : Value :=
  match kind with
  | .number => .number (decimal cs).toFloat
  | .string => .string (String.ofList (cs.drop 1).dropLast)
  | _ => .nil

/-- The token of a segment, if it is a lexeme. -/
def token? : Segment × Int → Option Token
  | (.lexeme kind cs, line) => some (.ofSource kind (String.ofList cs) (literal kind cs) line)
  | _ => none

/-- The diagnostic of a segment, if it is a mistake. -/
def diagnostic? : Segment × Int → Option Diagnostic
  | (.stray _, line) => some (.onLine (.int line) "Unexpected character.")
  | (.unclosed _, line) => some (.onLine (.int line) "Unterminated string.")
  | _ => none

end Segment

/-- What scanning finds in a text. -/
structure Scan where
  tokens : List Token
  diagnostics : List Diagnostic

/-- The end mark on a line. -/
def Token.endMark (line : Int) : Token :=
  .ofSource .eof "" .nil line

/-- The tokens and the mistakes of a text that starts on a line. -/
def Scan.ofChars (line : Int) (cs : List Char) : Scan :=
  let placed := Segment.place line (Segment.cut cs)
  { tokens := placed.filterMap Segment.token? ++ [Token.endMark (line + cs.count '\n')]
    diagnostics := placed.filterMap Segment.diagnostic? }

/-- The tokens and the mistakes of a source text. -/
def scan (source : String) : Scan :=
  Scan.ofChars 1 source.toList

end Treewalk
