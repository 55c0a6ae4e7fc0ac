set_option autoImplicit false

/-!
# Floats in decimal

A finite float is exactly `± significand * 2 ^ exponent`, and what is done with its digits is done
on these integers.

Of the decimals that lie in the interval of numbers rounding to a float, the one with the fewest
digits is written, of those the nearest to the float, and of two equally near ones the greater.  For
a given number of digits only two decimals matter, the float's neighbours on that decimal grid; the
grids are tried from one digit on.  All comparisons are of natural numbers.

A notation says which floats are written positionally and how the exponent of the others looks.
-/

namespace Bytecode.Decimal

/-! ## Integers times powers of two -/

/-- The number `± significand * 2 ^ exponent`. -/
structure Dyadic where
  negative : Bool
  significand : Nat
  exponent : Int
deriving DecidableEq, Repr, Inhabited

namespace Dyadic

/-- The first bit of a significand with all its 53 bits. -/
def leadingBit : Nat := Nat.pow 2 52

/-- The exponent of the least floats. -/
def leastExponent : Int := -1074

/-- The exact value of a finite float. -/
def ofFloat (x : Float) : Dyadic :=
  let bits := x.toBits.toNat
  let fraction := bits % leadingBit
  let field := bits / leadingBit % Nat.pow 2 11
  let negative := bits / Nat.pow 2 63 == 1
  if field == 0 then ⟨negative, fraction, leastExponent⟩
  else ⟨negative, leadingBit + fraction, leastExponent + (field - 1)⟩

/-- Whether the float below has a smaller exponent, so that it is only half as far away
as the float above. -/
def isNarrowBelow (d : Dyadic) : Bool :=
  d.significand == leadingBit && d.exponent != leastExponent

/-- The integer part, found by dropping the digits after the point. -/
def truncate (d : Dyadic) : Int :=
  let magnitude : Nat :=
    if 0 ≤ d.exponent then d.significand * Nat.pow 2 d.exponent.toNat
    else d.significand / Nat.pow 2 (-d.exponent).toNat
  if d.negative then -(magnitude : Int) else magnitude

example : ofFloat 0.75 = ⟨false, leadingBit + leadingBit / 2, -53⟩ := by decide

example : (ofFloat (-2.5)).truncate = -2 := by decide

end Dyadic

/-! ## The shortest decimal -/

/-- The number `coefficient * 10 ^ exponent`. -/
structure Digits where
  coefficient : Nat
  exponent : Int
deriving DecidableEq, Repr, Inhabited

/-- The numbers `low / unit`, `value / unit` and `high / unit`, with `value` between the
ends of the interval of numbers that round to it. -/
structure Interval where
  low : Nat
  value : Nat
  high : Nat
  unit : Nat
  /-- Whether the ends belong to the interval. -/
  closed : Bool
deriving DecidableEq, Repr, Inhabited

namespace Interval

/-- The interval of a dyadic number, in quarters of its last place. -/
def ofDyadic (d : Dyadic) : Interval :=
  let value := 4 * d.significand
  let low := if d.isNarrowBelow then value - 1 else value - 2
  let high := value + 2
  let closed := d.significand % 2 == 0
  let place := d.exponent - 2
  if 0 ≤ place then
    let scale := Nat.pow 2 place.toNat
    ⟨low * scale, value * scale, high * scale, 1, closed⟩
  else ⟨low, value, high, Nat.pow 2 (-place).toNat, closed⟩

/-- The same interval measured in units of `10 ^ exponent`. -/
def inPowersOfTen (i : Interval) (exponent : Int) : Interval :=
  if 0 ≤ exponent then { i with unit := i.unit * Nat.pow 10 exponent.toNat }
  else
    let scale := Nat.pow 10 (-exponent).toNat
    ⟨i.low * scale, i.value * scale, i.high * scale, i.unit, i.closed⟩

/-- Whether the integer `n` rounds to the value. -/
def contains (i : Interval) (n : Nat) : Bool :=
  if i.closed then decide (i.low ≤ n * i.unit ∧ n * i.unit ≤ i.high)
  else decide (i.low < n * i.unit ∧ n * i.unit < i.high)

/-- The integer in the interval nearest to the value, the greater of two equally near ones;
only the value's two neighbours are looked at. -/
def nearest? (i : Interval) : Option Nat :=
  let below := i.value / i.unit
  match i.contains below, i.contains (below + 1) with
  | true, true => if 2 * (i.value % i.unit) < i.unit then some below else some (below + 1)
  | true, false => some below
  | false, true => some (below + 1)
  | false, false => none

/-- How many digits stand before the point of the value: the least `e` with
`value < 10 ^ e`, which is zero or negative for small values. -/
def magnitude (i : Interval) : Int :=
  let estimate : Int := (Nat.toDigits 10 i.value).length - (Nat.toDigits 10 i.unit).length
  let grid := i.inPowersOfTen estimate
  if grid.unit ≤ grid.value then estimate + 1 else estimate

end Interval

/-- Seventeen digits always suffice to tell two floats apart. -/
def mostDigits : Nat := 17

/-- The digits of a number other than zero; no decimal with fewer digits rounds to it. -/
def shortest (d : Dyadic) : Digits :=
  let interval := Interval.ofDyadic d
  let magnitude := interval.magnitude
  let onGrid (count : Nat) : Option Digits :=
    let exponent := magnitude - count
    ((interval.inPowersOfTen exponent).nearest?).map fun c =>
      if c = Nat.pow 10 count then ⟨1, magnitude⟩ else ⟨c, exponent⟩
  ((List.range' 1 mostDigits).findSome? onGrid).getD ⟨0, 0⟩

example : shortest (.ofFloat 0.1) = ⟨1, -1⟩ := by decide +kernel

example : shortest (.ofFloat 5e-324) = ⟨5, -324⟩ := by decide +kernel

example : shortest (.ofFloat 1e23) = ⟨1, 23⟩ := by decide +kernel

/-! ## Notations -/

/-- How floats are written.  The exponent of a decimal is that of its first digit. -/
structure Notation where
  /-- The least exponent that is written positionally. -/
  positionalFrom : Int
  /-- The least exponent above those that are written positionally. -/
  positionalBelow : Int
  /-- How many digits an exponent has at least. -/
  exponentWidth : Nat
deriving DecidableEq, Repr, Inhabited

namespace Notation

/-- The digits of a natural number. -/
def digits (n : Nat) : String :=
  String.ofList (Nat.toDigits 10 n)

def zeros (n : Nat) : String :=
  String.ofList (List.replicate n '0')

/-- Sign and digits of an exponent, the digits filled up with zeros. -/
def exponentText (n : Notation) (exponent : Int) : String :=
  let text := digits exponent.natAbs
  (if exponent < 0 then "-" else "+") ++ zeros (n.exponentWidth - text.length) ++ text

/-- One digit, the others after a point, and the exponent of the first. -/
def scientific (n : Notation) (text : List Char) (exponent : Int) : String :=
  let mantissa := match text with
    | [] => ""
    | [c] => String.singleton c
    | c :: rest => String.ofList (c :: '.' :: rest)
  mantissa ++ "e" ++ n.exponentText exponent

/-- All places down to the last digit, and at least one after the point.  The first digit
has the given exponent. -/
def positional (text : List Char) (exponent : Int) : String :=
  if exponent < 0 then
    "0." ++ zeros (-exponent - 1).toNat ++ String.ofList text
  else
    let places := exponent.toNat + 1
    if text.length ≤ places then
      String.ofList text ++ zeros (places - text.length) ++ ".0"
    else
      String.ofList (text.take places) ++ "." ++ String.ofList (text.drop places)

/-- A positive number with these digits. -/
def magnitudeText (n : Notation) (d : Digits) : String :=
  let text := Nat.toDigits 10 d.coefficient
  let exponent := d.exponent + text.length - 1
  if n.positionalFrom ≤ exponent ∧ exponent < n.positionalBelow then positional text exponent
  else n.scientific text exponent

/-- The text of a float. -/
def text (n : Notation) (x : Float) : String :=
  if x.isNaN then "nan"
  else if x.isInf then if 0 < x then "inf" else "-inf"
  else
    let d := Dyadic.ofFloat x
    let magnitude := if d.significand = 0 then "0.0" else n.magnitudeText (shortest d)
    if d.negative then "-" ++ magnitude else magnitude

end Notation

end Bytecode.Decimal
