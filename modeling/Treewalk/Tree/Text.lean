import Treewalk.Tree

/-!
# The parenthesised text of a tree

`print 1 + 2 * 3;` reads `(print (+ 1 (* 2 3)))`: a form is its name and
its parts between parentheses, operators and names are shown by their
lexemes. A malformed tree has no text: where a part must be a tree and is
missing, a list or a token, where an operator or a name is no token, and
where the lexeme of one is no text. A variable is its lexeme, whatever
that is; only the form around it asks for a text. Nor has a literal a text
that holds an integer of too many digits.
-/

namespace Treewalk

/-- Why a tree has no text. -/
inductive Unprintable where
  /-- Something is no tree, or no token, where one must be. -/
  | malformed
  /-- A lexeme among the parts of a form is no text. -/
  | lexeme
  /-- A literal has no text. -/
  | longInteger
deriving DecidableEq, Repr

namespace Node

/-- The lexeme of a node that is a token. -/
def lexeme : Node → Except Unprintable Json
  | .token t => .ok t.lexeme
  | _ => .error .malformed

/-- The lexeme of a token that names a variable to be set. -/
def target (node : Node) : Except Unprintable Json :=
  match node with
  | .token t =>
    match t.lexeme with
    | .string s => .ok (.string s)
    | _ => .error .malformed
  | _ => .error .malformed

/-- The texts among values, if all are texts. -/
def allTexts : List Json → Option (List Text)
  | [] => some []
  | .string s :: rest => (allTexts rest).map (s :: ·)
  | _ :: _ => none

/-- A form: its name and its parts, with a blank between them. -/
def form (name : Json) (parts : List Json) : Except Unprintable Json :=
  match allTexts (name :: parts) with
  | some texts => .ok (.string ("(" ++ Text.intercalate " " texts ++ ")"))
  | none => .error .lexeme

/-- The text of a literal: a string between quotes, any other value as a
program prints it. -/
def literalText? : Value → Option Text
  | .string s => some ("\"" ++ s ++ "\"")
  | v => v.text?

mutual

/-- What a tree reads as: a text, unless it is a variable whose lexeme is
none. -/
def reading : Node → Except Unprintable Json
  | .absent | .token _ | .list _ => .error .malformed
  | .binary left operator right => do
    let name ← operator.lexeme
    let a ← left.reading
    let b ← right.reading
    form name [a, b]
  | .grouping inner => do
    let a ← inner.reading
    form (.string "group") [a]
  | .literal value =>
    match literalText? value with
    | some text => .ok (.string text)
    | none => .error .longInteger
  | .unary operator right => do
    let name ← operator.lexeme
    let a ← right.reading
    form name [a]
  | .variable name => name.lexeme
  | .assign name value => do
    let name ← name.target
    let a ← value.reading
    form (.string "=") [name, a]
  | .logical left operator right => do
    let name ← operator.lexeme
    let a ← left.reading
    let b ← right.reading
    form name [a, b]
  | .expression inner => do
    let a ← inner.reading
    form (.string ";") [a]
  | .print inner => do
    let a ← inner.reading
    form (.string "print") [a]
  | .var name .absent => do
    let name ← name.target
    form (.string "var") [name]
  | .var name initializer => do
    let name ← name.target
    let a ← initializer.reading
    form (.string "var") [name, a]
  | .block statements => do
    let parts ← readings statements
    form (.string "block") parts
  | .branch condition consequence .absent => do
    let a ← condition.reading
    let b ← consequence.reading
    form (.string "if") [a, b]
  | .branch condition consequence alternative => do
    let a ← condition.reading
    let b ← consequence.reading
    let c ← alternative.reading
    form (.string "if-else") [a, b, c]
  | .loop condition body => do
    let a ← condition.reading
    let b ← body.reading
    form (.string "while") [a, b]

/-- What the trees of a list read as. -/
def readings : List Node → Except Unprintable (List Json)
  | [] => .ok []
  | node :: rest => do
    let a ← node.reading
    let others ← readings rest
    return a :: others

end

/-- What an entry of a program reads as, with a mark for one that failed. -/
def entryReading : Node → Except Unprintable Json
  | .absent => .ok (.string "<error>")
  | node => node.reading

/-- The text of an entry of a program, if it has one. -/
def entryText? (node : Node) : Option String :=
  match node.entryReading with
  | .ok (.string (.whole s)) => some s
  | _ => none

end Node

end Treewalk
