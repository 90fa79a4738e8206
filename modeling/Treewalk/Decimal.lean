import Treewalk.Binary

/-!
# Decimals: numerals as written

A decimal is a natural number of units and the place of its last digit.
It is what a digit sequence in a source text or in a JSON text says
before it is rounded; `Decimal.toFloat` is the rounding.

Two decimals that differ only in trailing zeros are one number, and
`toFloat` treats them so by construction: it rounds the normal form. So
the zero a layout adds behind a point (`2` written `2.0`) cannot change
what is read back.
-/

namespace Treewalk

/-- The number `digits * 10 ^ exponent`. -/
structure Decimal where
  digits : Nat
  exponent : Int
deriving DecidableEq, Repr

/-- The natural number a sequence of decimal digits spells. -/
def natOfDigits (cs : List Char) : Nat :=
  cs.foldl (fun n c => n * 10 + (c.toNat - '0'.toNat)) 0

/-- The decimal digits of a natural number, most significant first. -/
def digitsOfNat (n : Nat) : List Char :=
  Nat.toDigits 10 n

namespace Decimal

/-- The decimal spelled by the digits before and after a point. -/
def ofPoint (whole fraction : List Char) : Decimal :=
  ⟨natOfDigits (whole ++ fraction), -(fraction.length : Int)⟩

/-- Trailing zeros moved into the exponent. -/
def trim (digits : Nat) (exponent : Int) : Decimal :=
  if digits ≠ 0 ∧ digits % 10 = 0 then trim (digits / 10) (exponent + 1)
  else ⟨digits, exponent⟩
termination_by digits
decreasing_by omega

/-- The one spelling of a decimal whose last digit is not zero. -/
def normal (d : Decimal) : Decimal :=
  trim d.digits d.exponent

/-- The least power of ten above a normal decimal, as an exponent. -/
def top (d : Decimal) : Int :=
  d.exponent + (digitsOfNat d.digits).length

/-- The nearest number of the binary format.

Beyond `10 ^ 400` on either side the answer does not depend on the
digits, so the powers of ten stay small however large the written
exponent is. -/
def toFloat (d : Decimal) : Float :=
  let n := d.normal
  if n.digits = 0 ∨ n.top < -400 then nearest 0 1
  else if 400 < n.top then nearest (Nat.pow 10 400) 1
  else nearest (n.digits * Nat.pow 10 n.exponent.toNat) (Nat.pow 10 (-n.exponent).toNat)

end Decimal

end Treewalk
