import Treewalk.Json

/-!
# Names

What a scope binds. The names of a source text are texts. A loaded tree
may put any plain value where a name belongs: numbers then count by their
quantity, and a list or an object is no name.
-/

namespace Treewalk

/-- Something a scope can bind. -/
inductive Name where
  | text (s : Text)
  | null
  | quantity (q : Json.Quantity)
deriving DecidableEq, Repr

namespace Name

/-- The name a value is. -/
def ofJson? : Json → Option Name
  | .string s => some (.text s)
  | .null => some .null
  | v => v.quantity?.map .quantity

/-- A name has a text, unless it is an integer with too many digits. -/
theorem exists_text {v : Json} {name : Name} (h : ofJson? v = some name)
    (hShort : ∀ n, v ≠ .long n) : ∃ text, v.text? = some text := by
  cases v with
  | long n => exact absurd rfl (hShort n)
  | list | object => cases h
  | null | bool | int | float | string => exact ⟨_, rfl⟩

/-- The value of a name. -/
def toJson : Name → Json
  | .text s => .string s
  | .null => .null
  | .quantity (.whole n) =>
    if h : Nat.pow 10 integerDigits ≤ n.natAbs then .long ⟨n, h⟩ else .int n
  | .quantity (.other bits) => .float (Float.ofBits bits)

/-- Texts are in the order of their code points and whole numbers in that
of the numbers. -/
def le : Name → Name → Bool
  | .text s, .text t => s.le t
  | .quantity (.whole m), .quantity (.whole n) => decide (m ≤ n)
  | _, _ => true

end Name

end Treewalk
