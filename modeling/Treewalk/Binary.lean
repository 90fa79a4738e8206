/-!
# Numbers of the binary format

A number is a bit pattern of the 64-bit binary format. This module takes
a pattern apart into an exact magnitude (`Binary.ofFloat`) and finds the
pattern nearest to a given fraction (`nearestBits`), both in exact
arithmetic on natural numbers.

The patterns of the non-negative numbers are in the order of the numbers,
and one step in the last place is one step of the pattern. So a rounded
mantissa is added to the pattern of its exponent, and a mantissa that
rounds up to the next power of two, or beyond the largest number, needs
no case of its own.
-/

namespace Treewalk

/-- A finite number of the binary format taken apart:
`± mantissa * 2 ^ exponent`. -/
structure Binary where
  negative : Bool
  mantissa : Nat
  exponent : Int
deriving DecidableEq, Repr

namespace Binary

/-- The exponent of the smallest positive number. -/
def least : Int := -1074

/-- The first digit of a mantissa that has its full length, and one step
of the exponent in a pattern. -/
def lead : Nat := Nat.pow 2 52

/-- The parts of a finite number, read off its bit pattern. -/
def ofFloat (x : Float) : Binary :=
  let bits : Nat := x.toBits.toNat
  let fraction : Nat := bits % lead
  let biased : Nat := bits / lead % Nat.pow 2 11
  let negative := decide (Nat.pow 2 63 ≤ bits)
  if biased = 0 then ⟨negative, fraction, least⟩
  else ⟨negative, lead + fraction, least + biased - 1⟩

/-- The magnitude is `numerator / denominator`. -/
def numerator (b : Binary) : Nat :=
  b.mantissa * Nat.pow 2 b.exponent.toNat

/-- A power of two, and `1` unless the exponent is negative. -/
def denominator (b : Binary) : Nat :=
  Nat.pow 2 (-b.exponent).toNat

/-- The magnitude as a natural number, if it is one. -/
def whole? (b : Binary) : Option Nat :=
  if b.numerator % b.denominator = 0 then some (b.numerator / b.denominator) else none

end Binary

/-! ## Rounding -/

/-- The quotient rounded to the nearest natural number, a half to the even
neighbour. -/
def roundDiv (n d : Nat) : Nat :=
  let q := n / d
  let rest := 2 * (n % d)
  if d < rest ∨ (rest = d ∧ q % 2 = 1) then q + 1 else q

/-- The exponent of the greatest power of two that is no greater than a
positive fraction. -/
def binaryExponent (n d : Nat) : Int :=
  let guess : Int := (Nat.log2 n : Int) - Nat.log2 d
  if d * Nat.pow 2 guess.toNat ≤ n * Nat.pow 2 (-guess).toNat then guess else guess - 1

/-- The pattern of positive infinity, above those of all numbers. -/
def infinityBits : Nat := 0x7ff0000000000000

/-- The pattern of the number nearest to the fraction `n / d`, a tie going
to the even pattern and what is too large to infinity. -/
def nearestBits (n d : Nat) : Nat :=
  if n = 0 then 0
  else
    let place := max (binaryExponent n d - 52) Binary.least
    let mantissa := roundDiv (n * Nat.pow 2 (-place).toNat) (d * Nat.pow 2 place.toNat)
    min ((place - Binary.least).toNat * Binary.lead + mantissa) infinityBits

/-- The number nearest to the fraction `n / d`. -/
def nearest (n d : Nat) : Float :=
  Float.ofBits (nearestBits n d).toUInt64

end Treewalk
