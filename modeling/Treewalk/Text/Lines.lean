/-!
# Lines of a text

Texts come with three kinds of line end: a line feed, a carriage return,
or the two together. `unifyNewlines` makes each of them one line feed,
also inside string literals; `lines` cuts a text at its line feeds.
-/

namespace Treewalk

/-- The same characters with every line end a single line feed. -/
def unifyChars : List Char → List Char
  | [] => []
  | '\r' :: '\n' :: rest => '\n' :: unifyChars rest
  | '\r' :: rest => '\n' :: unifyChars rest
  | c :: rest => c :: unifyChars rest

/-- The same text with every line end a single line feed. -/
def unifyNewlines (text : String) : String :=
  String.ofList (unifyChars text.toList)

/-- The pieces between line feeds, the characters of the first one that
are already read standing in front, latest first. A line feed at the very
end starts no further line. -/
def lineChars (read : List Char) : List Char → List (List Char)
  | [] => if read.isEmpty then [] else [read.reverse]
  | '\n' :: rest => read.reverse :: lineChars [] rest
  | c :: rest => lineChars (c :: read) rest

/-- The lines of a text. -/
def lines (text : String) : List String :=
  (lineChars [] text.toList).map String.ofList

end Treewalk
