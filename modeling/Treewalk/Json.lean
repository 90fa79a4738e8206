import Treewalk.Decimal.Style
import Treewalk.Text
import Treewalk.Text.Printable

/-!
# JSON values

The data a tree file holds. Integers and numbers written with a point or
an exponent are kept apart, because a tree may refuse an integer that is
too large for a number; where two values are compared (`Json.same`) the
difference does not count. Objects keep their fields in written order;
where a name occurs twice the last one counts (`Json.get?`).

A file holds no integer of more digits than are ever turned into a text,
but data handed over in memory may (`LongInteger`). Then a message or a
line of the trace about it cannot be put together (`Json.text?`).
-/

namespace Treewalk

/-- The most digits an integer may have that is read from a text or turned
into one. -/
def integerDigits : Nat := 4300

/-- An integer of more digits. -/
structure LongInteger where
  value : Int
  long : Nat.pow 10 integerDigits ≤ value.natAbs

/-- A JSON value. -/
inductive Json where
  | null
  | bool (b : Bool)
  /-- An integer that has a text: one that was read from a file, or a line
  that was counted. -/
  | int (n : Int)
  | long (n : LongInteger)
  | float (x : Float)
  | string (s : Text)
  | list (items : List Json)
  | object (fields : List (Text × Json))

namespace Json

/-- The value of a field; of two fields of one name the last counts. -/
def get? : List (Text × Json) → Text → Option Json
  | [], _ => none
  | (k, v) :: fields, key =>
    match get? fields key with
    | some later => some later
    | none => if k = key then some v else none

/-- A field's value is smaller than the object that holds it. -/
theorem sizeOf_get? {fields : List (Text × Json)} {key : Text} {v : Json}
    (h : get? fields key = some v) : sizeOf v < sizeOf fields := by
  induction fields with
  | nil => simp [get?] at h
  | cons field fields ih =>
    obtain ⟨k, w⟩ := field
    simp only [get?] at h
    split at h
    · next later hl =>
      cases h
      have := ih hl
      simp only [List.cons.sizeOf_spec]
      omega
    · split at h
      · cases h
        simp only [List.cons.sizeOf_spec, Prod.mk.sizeOf_spec]
        omega
      · simp at h

/-- The fields with one more: a name that is there keeps its place and
takes the new value, a new name goes to the end. -/
def put (key : Text) (v : Json) : List (Text × Json) → List (Text × Json)
  | [] => [(key, v)]
  | (k, w) :: fields => if k = key then (k, v) :: fields else (k, w) :: put key v fields

/-- The fields with each name once. -/
def distinct (fields : List (Text × Json)) : List (Text × Json) :=
  fields.foldl (fun kept (key, v) => put key v kept) []

/-! ## Comparing values -/

/-- A number without the way it was written: `1`, `1.0` and `true` are one
quantity. What is not a number is one quantity too. -/
inductive Quantity where
  | whole (n : Int)
  /-- A number that is not whole, or not finite, by its bits. -/
  | other (bits : UInt64)
deriving DecidableEq, Repr

/-- The quantity of a number of the binary format. -/
def Quantity.ofFloat (x : Float) : Quantity :=
  if x.isNaN then .other 0x7ff8000000000000
  else if x.isInf then .other x.toBits
  else
    let b := Binary.ofFloat x
    match b.whole? with
    | some n => .whole (if b.negative then -n else n)
    | none => .other x.toBits

/-- The quantity a value is; true counts as one and false as zero. -/
def quantity? : Json → Option Quantity
  | .bool b => some (.whole (if b then 1 else 0))
  | .int n => some (.whole n)
  | .long n => some (.whole n.value)
  | .float x => some (.ofFloat x)
  | _ => none

mutual

/-- Whether two values are the same: numbers by their quantity, lists item
by item, objects name by name in any order. -/
def same : Json → Json → Bool
  | .null, .null => true
  | .string s, .string t => decide (s = t)
  | .list items, .list others => sameItems items others
  | .object fields, .object others =>
    decide (fields.length = others.length) && sameFields fields others
  | v, w => v.quantity?.isSome && decide (v.quantity? = w.quantity?)

/-- Whether two lists hold the same items. -/
def sameItems : List Json → List Json → Bool
  | [], [] => true
  | v :: items, w :: others => same v w && sameItems items others
  | _, _ => false

/-- Whether each field has its like among other fields. -/
def sameFields : List (Text × Json) → List (Text × Json) → Bool
  | [], _ => true
  | (key, v) :: fields, others =>
    (match get? others key with
      | some w => same v w
      | none => false) && sameFields fields others

end

/-! ## The text of a value in a message -/

/-- A character named by its code point, in the shortest form that can
hold it. -/
def namedChar (c : Char) : List Char :=
  if c.toNat < 0x100 then '\\' :: 'x' :: hexDigits 2 c.toNat
  else if c.toNat < 0x10000 then '\\' :: 'u' :: hexDigits 4 c.toNat
  else '\\' :: 'U' :: hexDigits 8 c.toNat

/-- One character of a quoted text in a message. -/
def shownChar (quote c : Char) : List Char :=
  if c = quote ∨ c = '\\' then ['\\', c]
  else if c = '\n' then ['\\', 'n']
  else if c = '\r' then ['\\', 'r']
  else if c = '\t' then ['\\', 't']
  else if isPrintable c then [c]
  else namedChar c

/-- One place of a quoted text in a message. -/
def shownPoint (quote : Char) : Point → List Char
  | .char c => shownChar quote c
  | .half h => Point.namedHalf h

/-- A quoted text in a message: single quotes, unless only single quotes
occur inside. -/
def shownQuoted (s : Text) : List Char :=
  let single := Char.ofNat 0x27
  let quote := if .char single ∈ s.points ∧ .char '"' ∉ s.points then '"' else single
  quote :: s.points.flatMap (shownPoint quote) ++ [quote]

/-- Parts with a comma and a blank between them. -/
def commaSeparated : List (List Char) → List Char
  | [] => []
  | [part] => part
  | part :: parts => part ++ ',' :: ' ' :: commaSeparated parts

mutual

/-- The text of a value inside another one. -/
def shownInner : Json → List Char
  | .null => "None".toList
  | .bool true => "True".toList
  | .bool false => "False".toList
  | .int n => (toString n).toList
  | .long n => (toString n.value).toList
  | .float x => NumeralStyle.plain.write x
  | .string s => shownQuoted s
  | .list items => '[' :: commaSeparated (shownItems items) ++ [']']
  | .object fields => '\x7b' :: commaSeparated (shownFields fields) ++ ['\x7d']

/-- The texts of the items of a list. -/
def shownItems : List Json → List (List Char)
  | [] => []
  | item :: items => shownInner item :: shownItems items

/-- The texts of the fields of an object, each name with its value. -/
def shownFields : List (Text × Json) → List (List Char)
  | [] => []
  | (k, v) :: fields => (shownQuoted k ++ ':' :: ' ' :: shownInner v) :: shownFields fields

end

mutual

/-- Whether a long integer is a value or somewhere inside it. -/
def holdsLong : Json → Bool
  | .long _ => true
  | .list items => itemsHoldLong items
  | .object fields => fieldsHoldLong fields
  | _ => false

/-- Whether one of the items of a list holds a long integer. -/
def itemsHoldLong : List Json → Bool
  | [] => false
  | item :: items => item.holdsLong || itemsHoldLong items

/-- Whether one of the fields of an object holds a long integer. -/
def fieldsHoldLong : List (Text × Json) → Bool
  | [] => false
  | (_, v) :: fields => v.holdsLong || fieldsHoldLong fields

end

/-- The text of a value, if it has one. A text stands for itself; inside a
list or an object its halves are named by their numbers. -/
def text? : Json → Option Text
  | .string s => some s
  | v => if v.holdsLong then none else some (String.ofList (shownInner v))

/-- A value as a diagnostic shows it. -/
def shown : Json → String
  | .string s => s.escaped
  | v => String.ofList (shownInner v)

/-- What has a text is shown by it. -/
theorem shown_of_text? {v : Json} {text : Text} (h : v.text? = some text) :
    v.shown = text.escaped := by
  cases v with
  | string s =>
    cases h
    rfl
  | _ =>
    rw [text?] at h
    · split at h
      · cases h
      · cases h
        rfl
    · exact nofun

end Json

end Treewalk
