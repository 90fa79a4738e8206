import Treewalk.Token

/-!
# Segments: a source text cut into pieces

A source text is the concatenation of its segments. A segment is a
lexeme, trivia (a blank or a comment), a stray character that starts
nothing, or a string that is never closed. `Segment.first` takes the
longest segment off the front of a text; `Segment.cut` repeats it to the
end. Nothing is lost on the way (`text_first`), which is also why the
cutting ends.
-/

namespace Treewalk

/-- One of the digits `0` to `9`. -/
def isDigit (c : Char) : Bool :=
  '0' ≤ c && c ≤ '9'

/-- A letter of the basic Latin alphabet or the underscore. -/
def isAlpha (c : Char) : Bool :=
  ('a' ≤ c && c ≤ 'z') || ('A' ≤ c && c ≤ 'Z') || c = '_'

/-- A character that may go on a name. -/
def isAlphanumeric (c : Char) : Bool :=
  isAlpha c || isDigit c

/-- A piece of source text. -/
inductive Segment where
  | lexeme (kind : Kind) (text : List Char)
  | trivia (text : List Char)
  | stray (c : Char)
  | unclosed (text : List Char)
deriving DecidableEq, Repr

namespace Segment

/-- The characters of a segment. -/
def text : Segment → List Char
  | .lexeme _ cs => cs
  | .trivia cs => cs
  | .stray c => [c]
  | .unclosed cs => cs

/-- The kind of a lexeme that is one character whatever follows. -/
def single? : Char → Option Kind
  | '(' => some .leftParen
  | ')' => some .rightParen
  | '\x7b' => some .leftBrace
  | '\x7d' => some .rightBrace
  | ',' => some .comma
  | '.' => some .dot
  | '-' => some .minus
  | '+' => some .plus
  | ';' => some .semicolon
  | '*' => some .star
  | _ => none

/-- The kinds of a lexeme that may go on with `=`: with it, without it. -/
def pair? : Char → Option (Kind × Kind)
  | '!' => some (.bangEqual, .bang)
  | '=' => some (.equalEqual, .equal)
  | '<' => some (.lessEqual, .less)
  | '>' => some (.greaterEqual, .greater)
  | _ => none

/-- A character that stands for nothing but space between lexemes. -/
def isSpace (c : Char) : Bool :=
  c = ' ' || c = '\r' || c = '\t' || c = '\n'

/-- A character that does not end a line. -/
def inLine (c : Char) : Bool :=
  c != '\n'

/-- A character that does not close a string. -/
def inString (c : Char) : Bool :=
  c != '"'

/-- An operator that may go on with `=`. -/
def operator (c : Char) (long short : Kind) : List Char → Segment × List Char
  | '=' :: cs => (.lexeme long [c, '='], cs)
  | cs => (.lexeme short [c], cs)

/-- What follows a slash: a second slash opens a comment that runs to the
end of the line, and the line end is not part of it. -/
def slash : List Char → Segment × List Char
  | '/' :: cs =>
    (.trivia ('/' :: '/' :: cs.takeWhile inLine), cs.dropWhile inLine)
  | cs => (.lexeme .slash ['/'], cs)

/-- What follows a quote: a string up to the next quote, line ends
included, or else a string that is never closed. -/
def quoted (cs : List Char) : Segment × List Char :=
  match cs.dropWhile inString with
  | [] => (.unclosed ('"' :: cs), [])
  | _ :: rest => (.lexeme .string ('"' :: cs.takeWhile inString ++ ['"']), rest)

/-- A number that starts with a given digit: digits, then a point only if
a digit follows it. -/
def number (c : Char) (cs : List Char) : Segment × List Char :=
  let whole := c :: cs.takeWhile isDigit
  match cs.dropWhile isDigit with
  | '.' :: d :: rest =>
    if isDigit d then
      (.lexeme .number (whole ++ '.' :: d :: rest.takeWhile isDigit), rest.dropWhile isDigit)
    else (.lexeme .number whole, '.' :: d :: rest)
  | rest => (.lexeme .number whole, rest)

/-- The kind of a name: a reserved word or an identifier. -/
def wordKind (cs : List Char) : Kind :=
  (Kind.ofKeyword? (String.ofList cs)).getD .identifier

/-- A name or reserved word that starts with a given letter. -/
def word (c : Char) (cs : List Char) : Segment × List Char :=
  let name := c :: cs.takeWhile isAlphanumeric
  (.lexeme (wordKind name) name, cs.dropWhile isAlphanumeric)

/-- The longest segment at the front of `c :: cs`, and what follows it. -/
def first (c : Char) (cs : List Char) : Segment × List Char :=
  match single? c, pair? c with
  | some kind, _ => (.lexeme kind [c], cs)
  | none, some (long, short) => operator c long short cs
  | none, none =>
    if c = '/' then slash cs
    else if isSpace c then (.trivia [c], cs)
    else if c = '"' then quoted cs
    else if isDigit c then number c cs
    else if isAlpha c then word c cs
    else (.stray c, cs)

/-! ## Nothing is lost -/

theorem text_operator (c : Char) (long short : Kind) (cs : List Char) :
    (operator c long short cs).1.text ++ (operator c long short cs).2 = c :: cs := by
  unfold operator
  split <;> rfl

theorem text_slash (cs : List Char) : (slash cs).1.text ++ (slash cs).2 = '/' :: cs := by
  unfold slash
  split
  · simp [text, List.takeWhile_append_dropWhile]
  · rfl

theorem text_quoted (cs : List Char) : (quoted cs).1.text ++ (quoted cs).2 = '"' :: cs := by
  have h := List.takeWhile_append_dropWhile (p := inString) (l := cs)
  unfold quoted
  split
  · simp [text]
  · next d rest hd =>
    have hq : d = '"' := by
      have := List.head_dropWhile_not inString (l := cs) (by rw [hd]; exact List.cons_ne_nil _ _)
      simpa [hd, inString] using this
    rw [hd, hq] at h
    simp only [text, List.cons_append, List.append_assoc, List.nil_append]
    rw [h]

theorem text_number (c : Char) (cs : List Char) :
    (number c cs).1.text ++ (number c cs).2 = c :: cs := by
  have h := List.takeWhile_append_dropWhile (p := isDigit) (l := cs)
  unfold number
  split
  · next d rest hd =>
    rw [hd] at h
    split <;> simpa [text, List.takeWhile_append_dropWhile] using h
  · simp [text, List.takeWhile_append_dropWhile]

theorem text_word (c : Char) (cs : List Char) :
    (word c cs).1.text ++ (word c cs).2 = c :: cs := by
  simp [word, text, List.takeWhile_append_dropWhile]

/-- The first segment and what follows it are the text. -/
theorem text_first (c : Char) (cs : List Char) :
    (first c cs).1.text ++ (first c cs).2 = c :: cs := by
  unfold first
  split
  · rfl
  · exact text_operator ..
  · repeat' split
    · next h => exact h ▸ text_slash cs
    · rfl
    · next h => exact h ▸ text_quoted cs
    · exact text_number ..
    · exact text_word ..
    · rfl

/-- A segment holds at least one character. -/
theorem text_first_ne_nil (c : Char) (cs : List Char) : (first c cs).1.text ≠ [] := by
  unfold first operator slash quoted number word
  repeat' split
  all_goals simp [text]

/-- What follows the first segment is shorter than the text. -/
theorem first_shrinks (c : Char) (cs : List Char) :
    (first c cs).2.length < (c :: cs).length := by
  have h := congrArg List.length (text_first c cs)
  have hn := List.length_pos_iff.mpr (text_first_ne_nil c cs)
  rw [List.length_append] at h
  omega

/-! ## The whole text -/

/-- The segments of a text. -/
def cut : List Char → List Segment
  | [] => []
  | c :: cs => (first c cs).1 :: cut (first c cs).2
termination_by cs => cs.length
decreasing_by exact first_shrinks c cs

/-- A text is the concatenation of its segments. -/
theorem flatMap_text_cut (cs : List Char) : (cut cs).flatMap text = cs := by
  fun_induction cut cs with
  | case1 => rfl
  | case2 c cs ih => rw [List.flatMap_cons, ih, text_first]

end Segment

end Treewalk
