import Treewalk.Decimal

/-!
# The fewest digits that read back

A number of the binary format is written with the fewest decimal digits
that still name it. The search goes over the decimal grids of 1, 2, … 17
digits; on each it looks at the two neighbours of the exact value, and
the first grid with a neighbour that reads back wins. Of two that read
back the nearer one is taken, an even last digit on a tie.

That the answer reads back is not an argument about rounding: it is what
the search tests.
-/

namespace Treewalk

namespace Binary

/-- The magnitude times `10 ^ places`, as a fraction. -/
def scaled (b : Binary) (places : Int) : Nat × Nat :=
  (b.numerator * Nat.pow 10 places.toNat, b.denominator * Nat.pow 10 (-places).toNat)

/-- The decimal exponent of the first digit of a positive magnitude. -/
def leading (b : Binary) : Int :=
  let guess : Int :=
    (digitsOfNat b.numerator).length - (digitsOfNat b.denominator).length
  let (n, d) := b.scaled (-guess)
  if d ≤ n then guess else guess - 1

end Binary

namespace Decimal

/-- The two neighbours of a magnitude on the grid of `10 ^ -places`, the
nearer one first. -/
def neighbours (b : Binary) (places : Int) : List Decimal :=
  let (n, d) := b.scaled places
  let below := n / d
  let lower : Decimal := ⟨below, -places⟩
  let upper : Decimal := ⟨below + 1, -places⟩
  let rest := 2 * (n % d)
  if rest < d ∨ (rest = d ∧ below % 2 = 0) then [lower, upper] else [upper, lower]

/-- The fewest digits that read back as `x`, for a positive finite `x`. -/
def shortest (x : Float) : Decimal :=
  let b := Binary.ofFloat x
  let first := b.leading
  let grid (k : Nat) : List Decimal := neighbours b (k - first)
  let hit (k : Nat) : Option Decimal := (grid k).find? fun d => d.toFloat = x
  match (List.range 17).findSome? hit with
  | some d => d.normal
  | none => (grid 16).headD ⟨0, 0⟩

end Decimal

end Treewalk
