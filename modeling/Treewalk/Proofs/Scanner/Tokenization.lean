import Treewalk.Token.Scan

/-!
# Tokenization, declared

What the segments of a text are, without saying how they are found. A
segment fits at a place of the text if it is a lexeme, trivia, a string
that is never closed, or, where none of these fits, a single character.
A tokenization takes the longest segment that fits, place by place
(`Tokenization`).

A lexeme comes with its kind and the value it denotes. The signs are a
table, the reserved words another; everything else is described by the
characters it is made of.
-/

namespace Treewalk.Lexical

/-- The lexemes made of fixed characters other than letters. -/
def signs : List (List Char × Kind) :=
  [(['('], .leftParen), ([')'], .rightParen), (['\x7b'], .leftBrace), (['\x7d'], .rightBrace),
    ([','], .comma), (['.'], .dot), (['-'], .minus), (['+'], .plus), ([';'], .semicolon),
    (['*'], .star), (['/'], .slash),
    (['!'], .bang), (['!', '='], .bangEqual), (['='], .equal), (['=', '='], .equalEqual),
    (['<'], .less), (['<', '='], .lessEqual), (['>'], .greater), (['>', '='], .greaterEqual)]

/-- A lexeme of a kind, and the value it denotes. -/
inductive Lexeme : Kind → List Char → Value → Prop
  | sign {kind : Kind} {cs : List Char} (h : (cs, kind) ∈ signs) : Lexeme kind cs .nil
  | string {body : List Char} (h : '"' ∉ body) :
      Lexeme .string ('"' :: body ++ ['"']) (.string (String.ofList body))
  | whole {digits : List Char} (hne : digits ≠ []) (h : ∀ d ∈ digits, isDigit d) :
      Lexeme .number digits (.number (Decimal.ofPoint digits []).toFloat)
  | fraction {digits places : List Char} (hne : digits ≠ []) (h : ∀ d ∈ digits, isDigit d)
      (hne' : places ≠ []) (h' : ∀ d ∈ places, isDigit d) :
      Lexeme .number (digits ++ '.' :: places) (.number (Decimal.ofPoint digits places).toFloat)
  | keyword {kind : Kind} {cs : List Char} (h : (String.ofList cs, kind) ∈ Kind.keywords) :
      Lexeme kind cs .nil
  | identifier {c : Char} {cs : List Char} (hc : isAlpha c) (hcs : ∀ d ∈ cs, isAlphanumeric d)
      (h : ∀ kind, (String.ofList (c :: cs), kind) ∉ Kind.keywords) :
      Lexeme .identifier (c :: cs) .nil

/-- Trivia before the rest of a text: a blank, a line end, or a comment up
to the line end or the end of the text. -/
inductive Trivia : List Char → List Char → Prop
  | space {c : Char} {rest : List Char} (h : c ∈ [' ', '\r', '\t', '\n']) : Trivia [c] rest
  | comment {body rest : List Char} (h : '\n' ∉ body)
      (hRest : rest = [] ∨ ∃ more, rest = '\n' :: more) : Trivia ('/' :: '/' :: body) rest

/-- A segment that fits before the rest of a text and is no stray
character. -/
inductive Proper : Segment → List Char → Prop
  | lexeme {kind : Kind} {cs rest : List Char} {value : Value} (h : Lexeme kind cs value) :
      Proper (.lexeme kind cs) rest
  | trivia {cs rest : List Char} (h : Trivia cs rest) : Proper (.trivia cs) rest
  | unclosed {body : List Char} (h : '"' ∉ body) : Proper (.unclosed ('"' :: body)) []

/-- A segment that fits before the rest of a text. A stray character fits
only where nothing else does. -/
inductive Fits : Segment → List Char → Prop
  | proper {s : Segment} {rest : List Char} (h : Proper s rest) : Fits s rest
  | stray {c : Char} {rest : List Char}
      (h : ∀ s more, s.text ++ more = c :: rest → ¬ Proper s more) : Fits (.stray c) rest

/-- No longer segment fits at the same place. -/
structure Longest (s : Segment) (rest : List Char) : Prop where
  fits : Fits s rest
  longest : ∀ t more, t.text ++ more = s.text ++ rest → Fits t more →
    t.text.length ≤ s.text.length

/-- The segments of a text, each the longest at its place. -/
inductive Tokenization : List Char → List Segment → Prop
  | nil : Tokenization [] []
  | cons {s : Segment} {rest : List Char} {others : List Segment} (h : Longest s rest)
      (hs : Tokenization rest others) : Tokenization (s.text ++ rest) (s :: others)

/-- Each segment with the text up to its end, which starts with what is
before all of them. -/
def reaching (before : List Char) : List Segment → List (Segment × List Char)
  | [] => []
  | s :: others => (s, before ++ s.text) :: reaching (before ++ s.text) others

/-- The line on which a text ends, if it starts on the first. -/
def lineAt (cs : List Char) : Int :=
  1 + cs.count '\n'

/-- The lexemes among segments: kind, characters, and the text up to the
end. -/
def lexemes (segments : List (Segment × List Char)) : List (Kind × List Char × List Char) :=
  segments.filterMap fun
    | (.lexeme kind cs, upTo) => some (kind, cs, upTo)
    | _ => none

/-- The token of a lexeme: its kind and characters, the value it denotes,
and the line it ends on. -/
def Denotes : Kind × List Char × List Char → Token → Prop
  | (kind, cs, upTo), t =>
    ∃ value, Lexeme kind cs value ∧ t = .ofSource kind (String.ofList cs) value (lineAt upTo)

/-- The mistakes among segments, each on the line it ends on. -/
def mistakes (segments : List (Segment × List Char)) : List Diagnostic :=
  segments.filterMap fun
    | (.stray _, upTo) => some (.mistake (.int (lineAt upTo)) "" "Unexpected character.")
    | (.unclosed _, upTo) => some (.mistake (.int (lineAt upTo)) "" "Unterminated string.")
    | _ => none

end Treewalk.Lexical
