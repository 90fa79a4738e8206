import Treewalk.Decimal.Shortest

/-!
# How numbers are written

One layout and three styles. The layout is positional while the exponent
of the first digit lies in `-4 … 15` and otherwise puts one digit before
the point and names the exponent. What differs between the styles is a
record: `spoken` is what a program prints, `plain` is the text of a
number in a token or a message, `json` is the text in a JSON file.
-/

namespace Treewalk

/-- The decisions a written form of numbers leaves open. -/
structure NumeralStyle where
  /-- Whole numbers of smaller magnitude are written as integers, zero
  without a sign. -/
  wholeBelow : Nat
  /-- The least number of digits of a written exponent. -/
  exponentWidth : Nat
  infinity : List Char
  notANumber : List Char

namespace NumeralStyle

/-- What a program prints: `3`, `0.1`, `1e-7`, `1e+21`. -/
def spoken : NumeralStyle :=
  ⟨Nat.pow 10 21, 1, "Infinity".toList, "NaN".toList⟩

/-- A number in a token's text: `3.0`, `1e-07`, `1e+21`, `inf`. -/
def plain : NumeralStyle :=
  ⟨0, 2, "inf".toList, "nan".toList⟩

/-- A number in a JSON file: as `plain`, with the names JSON readers take
for what is not finite. -/
def json : NumeralStyle :=
  ⟨0, 2, "Infinity".toList, "NaN".toList⟩

end NumeralStyle

namespace Decimal

/-- All digits, and a point among them or behind them. -/
def positional (d : Decimal) : List Char :=
  let ds := digitsOfNat d.digits
  if 0 ≤ d.exponent then ds ++ List.replicate d.exponent.toNat '0' ++ ['.', '0']
  else
    let places := d.exponent.natAbs
    if places < ds.length then
      ds.take (ds.length - places) ++ '.' :: ds.drop (ds.length - places)
    else '0' :: '.' :: List.replicate (places - ds.length) '0' ++ ds

/-- One digit before the point and the exponent of that digit. -/
def scientific (width : Nat) (d : Decimal) : List Char :=
  let ds := digitsOfNat d.digits
  let first := d.top - 1
  let power := digitsOfNat first.natAbs
  ds.take 1 ++ (if ds.length ≤ 1 then [] else '.' :: ds.drop 1)
    ++ ['e', if 0 < first then '+' else '-']
    ++ List.replicate (width - power.length) '0' ++ power

/-- Positional while the exponent of the first digit is in `-4 … 15`. -/
def layout (width : Nat) (d : Decimal) : List Char :=
  let first := d.top - 1
  if -4 ≤ first ∧ first < 16 then d.positional else d.scientific width

end Decimal

namespace NumeralStyle

/-- The written form of a finite number. -/
def writeFinite (style : NumeralStyle) (x : Float) : List Char :=
  let b := Binary.ofFloat x
  let sign := if b.negative then ['-'] else []
  match b.whole? with
  | some n =>
    if n < style.wholeBelow then (if n = 0 then [] else sign) ++ digitsOfNat n
    else if n = 0 then sign ++ (⟨0, 0⟩ : Decimal).layout style.exponentWidth
    else sign ++ (Decimal.shortest x.abs).layout style.exponentWidth
  | none => sign ++ (Decimal.shortest x.abs).layout style.exponentWidth

/-- The written form of a number. -/
def write (style : NumeralStyle) (x : Float) : List Char :=
  if x.isNaN then style.notANumber
  else if x.isInf then (if (Binary.ofFloat x).negative then ['-'] else []) ++ style.infinity
  else style.writeFinite x

end NumeralStyle

end Treewalk
