import Treewalk.Json

/-!
# JSON values as text

Two spaces of indent a level, one item or field a line, nothing between
the brackets of an empty list or object. Texts keep every character but
the quote, the backslash and the controls below the blank. What is written
is read from a source text, and there is no half of a pair in it; for one
its number would stand.
-/

namespace Treewalk.Json

/-- One character of a written text. -/
def writtenChar (c : Char) : List Char :=
  if c = '"' then ['\\', '"']
  else if c = '\\' then ['\\', '\\']
  else if c = '\n' then ['\\', 'n']
  else if c = '\r' then ['\\', 'r']
  else if c = '\t' then ['\\', 't']
  else if c.toNat = 0x08 then ['\\', 'b']
  else if c.toNat = 0x0c then ['\\', 'f']
  else if c.toNat < 0x20 then '\\' :: 'u' :: hexDigits 4 c.toNat
  else [c]

/-- One place of a written text. -/
def writtenPoint : Point → List Char
  | .char c => writtenChar c
  | .half h => Point.namedHalf h

/-- A text between quotes. -/
def writtenText (s : Text) : List Char :=
  '"' :: s.points.flatMap writtenPoint ++ ['"']

/-- A whole text is written character by character. -/
theorem writtenText_whole (s : String) :
    writtenText s = '"' :: s.toList.flatMap writtenChar ++ ['"'] := by
  rw [writtenText, Text.points, List.flatMap_map]
  rfl

/-- A new line, indented to a depth. -/
def newline (depth : Nat) : List Char :=
  '\n' :: List.replicate (2 * depth) ' '

mutual

/-- The text of a value that starts at a depth. -/
def write (depth : Nat) : Json → List Char
  | .null => "null".toList
  | .bool true => "true".toList
  | .bool false => "false".toList
  | .int n => (toString n).toList
  | .long n => (toString n.value).toList
  | .float x => NumeralStyle.json.write x
  | .string s => writtenText s
  | .list [] => ['[', ']']
  | .list (item :: items) =>
    '[' :: newline (depth + 1) ++ write (depth + 1) item
      ++ writeItems (depth + 1) items ++ newline depth ++ [']']
  | .object [] => ['\x7b', '\x7d']
  | .object ((key, value) :: fields) =>
    '\x7b' :: newline (depth + 1) ++ writtenText key ++ ':' :: ' ' :: write (depth + 1) value
      ++ writeFields (depth + 1) fields ++ newline depth ++ ['\x7d']

/-- The items after the first one. -/
def writeItems (depth : Nat) : List Json → List Char
  | [] => []
  | item :: items => ',' :: newline depth ++ write depth item ++ writeItems depth items

/-- The fields after the first one. -/
def writeFields (depth : Nat) : List (Text × Json) → List Char
  | [] => []
  | (key, value) :: fields =>
    ',' :: newline depth ++ writtenText key ++ ':' :: ' ' :: write depth value
      ++ writeFields depth fields

end

/-- The text of a value in a file. -/
def render (v : Json) : String :=
  String.ofList (v.write 0)

end Treewalk.Json
