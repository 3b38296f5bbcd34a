import Placement.Decimal.Layout

/-!
# Number literals

A decimal literal is kept as it was written: sign, digits before and after the point, exponent. Two
ways of reading it as a double are in use. `nearest` gives the double nearest to the exact value.
`scaled` collects digits while they fit 64 bits, drops the others, and multiplies or divides once by
a power of ten (rarely more than once), so it may miss the nearest double by a rounding or two.
-/

namespace Placement.Decimal

/-- A decimal number as it was written. -/
structure Literal where
  negative : Bool
  whole : List Char
  fraction : Option (List Char)
  exponent : Option Int
  deriving Repr, DecidableEq

def ofDigits (digits : List Char) : Nat := Nat.ofDigitChars 10 digits 0

namespace Literal

/-- The digits after the point, none without a point. -/
def fractionDigits (l : Literal) : List Char := l.fraction.getD []

/-- The exponent, zero without one. -/
def exponentValue (l : Literal) : Int := l.exponent.getD 0

def isWhole (l : Literal) : Bool := l.fraction.isNone && l.exponent.isNone

def signed (negative : Bool) (x : Float) : Float := if negative then -x else x

/-- The double nearest to `significand · 10 ^ exponent`, ties to the even significand. -/
def nearestTo (significand : Nat) (exponent : Int) : Float :=
  Float.ofScientific significand (exponent < 0) exponent.natAbs

def nearest (l : Literal) : Float :=
  signed l.negative <|
    nearestTo (ofDigits (l.whole ++ l.fractionDigits))
      (l.exponentValue - l.fractionDigits.length)

/-- Appends digits to `s` while the result is below `2 ^ 64`; gives back the digits left over. -/
def accumulate (s : Nat) : List Char → Nat × List Char
  | [] => (s, [])
  | d :: rest =>
    let next := 10 * s + (d.toNat - '0'.toNat)
    if next < UInt64.size then accumulate next rest else (s, d :: rest)

/-- The largest power of ten that is a double. -/
def greatestPower : Nat := 308

def powerOfTen (k : Nat) : Float := nearestTo 1 k

/-- Divides by the largest power of ten `count` times, or until nothing is left. -/
def shrink : Nat → Float → Float
  | 0, x => x
  | count + 1, x => if x == 0.0 then x else shrink count (x / powerOfTen greatestPower)

/-- Scales a double by a power of ten; a result beyond all doubles has no value. -/
def scale (x : Float) (exponent : Int) : Option Float :=
  let k := exponent.natAbs
  if exponent < 0 then
    some (shrink ((k - 1) / greatestPower) x / powerOfTen ((k - 1) % greatestPower + 1))
  else if k ≤ greatestPower then
    let y := x * powerOfTen k
    if y.isFinite then some y else none
  else if x == 0.0 then some x else none

/-- The significand within 64 bits, its exponent, and whether no digit before the point was
dropped. -/
def collect (l : Literal) : Nat × Int × Bool :=
  let (s, dropped) := accumulate 0 l.whole
  let (s, cut) := accumulate s l.fractionDigits
  let taken := l.fractionDigits.length - cut.length
  (s, l.exponentValue + dropped.length - taken, dropped.isEmpty)

/-- The double that scaling gives for the literal. -/
def scaled (l : Literal) : Option Float :=
  let (s, exponent, _) := l.collect
  (scale (UInt64.ofNat s).toFloat exponent).map (signed l.negative)

/-- A point and at least one digit, if there is a point. -/
def readFraction : List Char → Option (Option (List Char) × List Char)
  | '.' :: cs =>
    match cs.span Char.isDigit with
    | ([], _) => none
    | (digits, rest) => some (some digits, rest)
  | cs => some (none, cs)

/-- At least one digit, with or without a sign before it. -/
def readSigned (cs : List Char) : Option (Int × List Char) :=
  let (negative, digits) :=
    match cs with
    | '-' :: rest => (true, rest)
    | '+' :: rest => (false, rest)
    | rest => (false, rest)
  match digits.span Char.isDigit with
  | ([], _) => none
  | (digits, rest) =>
    some (if negative then -(ofDigits digits : Int) else ofDigits digits, rest)

/-- An exponent, if its letter is there. -/
def readExponent (cs : List Char) : Option (Option Int × List Char) :=
  match cs with
  | 'e' :: rest | 'E' :: rest => (readSigned rest).map fun (e, rest) => (some e, rest)
  | _ => some (none, cs)

/-- Reads a literal: a minus sign if negative, digits without a needless zero in front, and then
possibly a fraction and an exponent. -/
def read (cs : List Char) : Option (Literal × List Char) := do
  let (negative, cs) :=
    match cs with
    | '-' :: rest => (true, rest)
    | rest => (false, rest)
  let (whole, cs) := cs.span Char.isDigit
  if whole.isEmpty ∨ (whole.head? = some '0' ∧ whole.length ≠ 1) then none
  let (fraction, cs) ← readFraction cs
  let (exponent, cs) ← readExponent cs
  return (⟨negative, whole, fraction, exponent⟩, cs)

example : read "-12.50e+3,".toList
    = some (⟨true, ['1', '2'], some ['5', '0'], some 3⟩, [',']) := by
  decide +kernel
example : read "01".toList = none := by decide +kernel

end Literal

end Placement.Decimal
