import Placement.Decimal.Shortest

/-!
# Laying out a double as text

The digits of a double are one thing and the way they are written another. A `Layout` holds the
decisions of one written form: which magnitudes are written without an exponent, whether a whole
number keeps a zero after its point, how ties between equally short decimals go and what stands for
the values that have no digits. Texts are lists of characters here, as their readers take them.
-/

namespace Placement.Decimal

/-- The decisions that make up a written form of doubles. -/
structure Layout where
  tie : Tie
  /-- Whether a value with this many digits before its point is written without an exponent. -/
  positional : Int → Bool
  /-- Whether a whole number is written with `.0`. -/
  wholeWithPoint : Bool
  nan : List Char
  infinite : List Char

namespace Layout

/-- A minus sign for negative values, zero included. -/
def sign (negative : Bool) (text : List Char) : List Char :=
  if negative then '-' :: text else text

def wholeEnd (l : Layout) : List Char := if l.wholeWithPoint then ['.', '0'] else []

/-- Digits and zeros around a point after the first `before` digits. -/
def plain (l : Layout) (digits : List Char) (before : Int) : List Char :=
  if digits.length ≤ before then
    digits ++ List.replicate (before - digits.length).toNat '0' ++ l.wholeEnd
  else if 0 < before then
    digits.take before.toNat ++ '.' :: digits.drop before.toNat
  else
    '0' :: '.' :: List.replicate (-before).toNat '0' ++ digits

/-- One digit, the others after a point, and the exponent with its sign. -/
def scientific (digits : List Char) (before : Int) : List Char :=
  let exponent := before - 1
  let mark := if exponent < 0 then ['e', '-'] else ['e', '+']
  let fraction := if digits.length ≤ 1 then [] else '.' :: digits.drop 1
  digits.take 1 ++ fraction ++ mark ++ Nat.toDigits 10 exponent.natAbs

def magnitude (l : Layout) (d : Scientific) : List Char :=
  let digits := Nat.toDigits 10 d.significand
  let before := digits.length + d.exponent
  if l.positional before then l.plain digits before else scientific digits before

def dyadic (l : Layout) : Dyadic → List Char
  | .nan => l.nan
  | .infinite negative => sign negative l.infinite
  | .finite negative 0 _ => sign negative ('0' :: l.wholeEnd)
  | .finite negative m q => sign negative (l.magnitude (shortest l.tie m q))

def write (l : Layout) (x : Float) : List Char := l.dyadic (Dyadic.ofFloat x)

end Layout

/-- Doubles in messages: never an exponent, no point on whole numbers. -/
def inMessages : Layout where
  tie := .up
  positional _ := true
  wholeWithPoint := false
  nan := ['N', 'a', 'N']
  infinite := ['i', 'n', 'f']

def spell (x : Float) : String := String.ofList (inMessages.write x)

example : spell 4294967295.5 = "4294967295.5" := by decide +kernel
example : spell (-1e-10) = "-0.0000000001" := by decide +kernel
example : spell 1e21 = "1000000000000000000000" := by decide +kernel

end Placement.Decimal
