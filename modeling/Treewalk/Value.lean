import Treewalk.Json

/-!
# Run-time values

Nil, booleans, numbers and strings are the language's own values. A
loaded tree may also carry a JSON list or object as a literal: the
program cannot take it apart, but it is truthy, can be bound, compared
and printed, so it is a value like the others.
-/

namespace Treewalk

/-- A value of the running program. -/
inductive Value where
  | nil
  | bool (b : Bool)
  | number (x : Float)
  | string (s : Text)
  | list (items : List Json)
  | object (fields : List (Text × Json))

namespace Value

/-- Whether a value is a number. -/
def isNumber : Value → Bool
  | .number _ => true
  | _ => false

/-- Only nil and false are not truthy: zero and the empty string are. -/
def truthy : Value → Bool
  | .nil => false
  | .bool b => b
  | _ => true

/-- Equality without conversion: values of two kinds are never equal, and
numbers are compared as the binary format compares them, so that what is
not a number differs from itself. -/
def equals : Value → Value → Bool
  | .nil, .nil => true
  | .bool a, .bool b => a == b
  | .number x, .number y => x == y
  | .string s, .string t => s == t
  | .list xs, .list ys => (Json.list xs).same (.list ys)
  | .object xs, .object ys => (Json.object xs).same (.object ys)
  | _, _ => false

/-- The name of a value's kind. -/
def kindName : Value → String
  | .nil => "nil"
  | .bool _ => "boolean"
  | .number _ => "number"
  | .string _ => "string"
  | .list _ => "list"
  | .object _ => "dict"

/-- The JSON form of a value. -/
def toJson : Value → Json
  | .nil => .null
  | .bool b => .bool b
  | .number x => .float x
  | .string s => .string s
  | .list items => .list items
  | .object fields => .object fields

/-- The number nearest to an integer. -/
def nearestToInt (n : Int) : Float :=
  let x := nearest n.natAbs 1
  if n < 0 then -x else x

/-- The value a JSON literal stands for: an integer is rounded to the
nearest number, and one beyond the largest number stands for none. -/
def ofJson? : Json → Option Value
  | .null => some .nil
  | .bool b => some (.bool b)
  | .int n => if (nearestToInt n).isInf then none else some (.number (nearestToInt n))
  | .long _ => none
  | .float x => some (.number x)
  | .string s => some (.string s)
  | .list items => some (.list items)
  | .object fields => some (.object fields)

/-- A value's JSON form stands for that value. -/
theorem ofJson?_toJson (v : Value) : ofJson? v.toJson = some v := by
  cases v <;> rfl

/-- The text of a number as a program prints it. -/
def numberText (x : Float) : String :=
  String.ofList (NumeralStyle.spoken.write x)

/-- The text of a value as a program prints it, if it has one. -/
def text? : Value → Option Text
  | .nil => some "nil"
  | .bool true => some "true"
  | .bool false => some "false"
  | .number x => some (numberText x)
  | .string s => some s
  | .list items => (Json.list items).text?
  | .object fields => (Json.object fields).text?

end Value

end Treewalk
