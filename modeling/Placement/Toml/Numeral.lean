import Placement.Decimal.Literal
import Placement.Document.Basic
import Placement.Text.Hex

/-!
# Numbers, words and dates in TOML

Digits may be grouped by single underscores. Whole numbers have 64 bits and may be written in base
two, eight or sixteen; the others are read to the nearest double. Infinity has to be written as
such: a number too large for a double is refused, unless it is negative. No stored value is a truth
value or a date, so those are read but not kept.
-/

namespace Placement.Toml

open Decimal

/-- Reads further digits, each of them possibly after an underscore. -/
def moreDigits (isDigit : Char → Bool) : List Char → Option (List Char × List Char)
  | [] => some ([], [])
  | ['_'] => none
  | '_' :: c :: rest =>
    if isDigit c then (moreDigits isDigit rest).map fun (ds, rest) => (c :: ds, rest) else none
  | c :: rest =>
    if isDigit c then (moreDigits isDigit rest).map fun (ds, rest) => (c :: ds, rest)
    else some ([], c :: rest)

def someDigits (isDigit : Char → Bool) : List Char → Option (List Char × List Char)
  | c :: rest =>
    if isDigit c then (moreDigits isDigit rest).map fun (ds, rest) => (c :: ds, rest) else none
  | [] => none

/-- Reads a sign, if there is one; whether it was a minus. -/
def readSign : List Char → Bool × List Char
  | '-' :: rest => (true, rest)
  | '+' :: rest => (false, rest)
  | rest => (false, rest)

/-- Reads a whole number in base ten, without its sign and without needless zeros. -/
def readWhole : List Char → Option (List Char × List Char)
  | '0' :: rest => some (['0'], rest)
  | cs => someDigits Char.isDigit cs

/-- Reads a fraction, if a point is there. -/
def readFraction : List Char → Option (Option (List Char) × List Char)
  | '.' :: rest => (someDigits Char.isDigit rest).map fun (ds, rest) => (some ds, rest)
  | cs => some (none, cs)

/-- Reads an exponent, if its letter is there. -/
def readExponent (cs : List Char) : Option (Option Int × List Char) :=
  match cs with
  | 'e' :: rest | 'E' :: rest =>
    let (negative, rest) := readSign rest
    (someDigits Char.isDigit rest).map fun (ds, rest) =>
      (some (if negative then -(ofDigits ds : Int) else ofDigits ds), rest)
  | _ => some (none, cs)

def readDecimal (cs : List Char) : Option (Literal × List Char) := do
  let (negative, cs) := readSign cs
  let (whole, cs) ← readWhole cs
  let (fraction, cs) ← readFraction cs
  let (exponent, cs) ← readExponent cs
  return (⟨negative, whole, fraction, exponent⟩, cs)

/-- The whole numbers of 64 bits. -/
def isInt64 (n : Int) : Bool := -0x8000000000000000 ≤ n && n < 0x8000000000000000

/-- The value of a literal, if it is one that TOML has. -/
def valueOf? (l : Literal) : Option Number :=
  if l.isWhole then
    let n : Int := if l.negative then -(ofDigits l.whole : Int) else ofDigits l.whole
    if isInt64 n then some (.int n) else none
  else
    let x := l.nearest
    if x == 1.0 / 0.0 then none else some (.real x)

/-- Reads a number in another base, after the mark of the base. -/
def readBase (base : Nat) (isDigit : Char → Bool) (cs : List Char) :
    Option (Number × List Char) := do
  let (ds, rest) ← someDigits isDigit cs
  let n : Int := ds.foldl (fun n d => base * n + (Text.hexDigit? d).getD 0) 0
  if isInt64 n then some (.int n, rest) else none

/-- Whether a character is a digit of base two, eight or sixteen. -/
def isDigitOf (base : Nat) (c : Char) : Bool :=
  match Text.hexDigit? c with
  | some d => d < base
  | none => false

/-- Reads infinity or a value that is no number. -/
def readSpecial (cs : List Char) : Option (Number × List Char) :=
  let (negative, cs) := readSign cs
  match cs with
  | 'i' :: 'n' :: 'f' :: rest => some (.real (Literal.signed negative (1.0 / 0.0)), rest)
  | 'n' :: 'a' :: 'n' :: rest => some (.real (0.0 / 0.0), rest)
  | _ => none

def readNumber (cs : List Char) : Option (Number × List Char) :=
  match cs with
  | '0' :: 'x' :: rest => readBase 16 (isDigitOf 16) rest
  | '0' :: 'o' :: rest => readBase 8 (isDigitOf 8) rest
  | '0' :: 'b' :: rest => readBase 2 (isDigitOf 2) rest
  | _ =>
    match readSpecial cs with
    | some special => some special
    | none => do
      let (l, rest) ← readDecimal cs
      return (← valueOf? l, rest)

/-- Reads a number of exactly `count` digits between two bounds. -/
def readField (count low high : Nat) (cs : List Char) : Option (Nat × List Char) :=
  let digits := cs.take count
  let n := ofDigits digits
  if digits.length = count ∧ digits.all Char.isDigit ∧ low ≤ n ∧ n ≤ high then
    some (n, cs.drop count)
  else none

/-- The text after a character that has to be there. -/
def after? (c : Char) : List Char → Option (List Char)
  | d :: rest => if c == d then some rest else none
  | [] => none

def daysIn (year month : Nat) : Nat :=
  if month = 2 then
    if year % 4 = 0 ∧ (year % 100 ≠ 0 ∨ year % 400 = 0) then 29 else 28
  else if month = 4 ∨ month = 6 ∨ month = 9 ∨ month = 11 then 30
  else 31

/-- The text after a date. -/
def afterDate? (cs : List Char) : Option (List Char) := do
  let (year, cs) ← readField 4 0 9999 cs
  let cs ← after? '-' cs
  let (month, cs) ← readField 2 1 12 cs
  let cs ← after? '-' cs
  let (_, cs) ← readField 2 1 (daysIn year month) cs
  return cs

/-- The text after a time of day. -/
def afterTime? (cs : List Char) : Option (List Char) := do
  let (_, cs) ← readField 2 0 23 cs
  let cs ← after? ':' cs
  let (_, cs) ← readField 2 0 59 cs
  let cs ← after? ':' cs
  let (_, cs) ← readField 2 0 60 cs
  match cs with
  | '.' :: rest =>
    let (ds, rest) := rest.span Char.isDigit
    if ds.isEmpty then none else some rest
  | _ => some cs

/-- The text after a distance from universal time. -/
def afterOffset? : List Char → Option (List Char)
  | 'Z' :: rest | 'z' :: rest => some rest
  | '+' :: rest | '-' :: rest => do
    let (_, cs) ← readField 2 0 23 rest
    let cs ← after? ':' cs
    let (_, cs) ← readField 2 0 59 cs
    return cs
  | _ => none

/-- The text after a time of day that follows its date, if one does. -/
def skipTime (cs : List Char) : List Char :=
  match cs with
  | c :: rest =>
    if c == 'T' || c == 't' || c == ' ' then
      match afterTime? rest with
      | some rest => (afterOffset? rest).getD rest
      | none => cs
    else cs
  | [] => []

/-- The text after a date, a time or both. -/
def afterDateTime? (cs : List Char) : Option (List Char) :=
  match afterDate? cs with
  | some rest => some (skipTime rest)
  | none => afterTime? cs

/-- Reads a number, a truth value or a date. -/
def readScalar (cs : List Char) : Option (Document × List Char) :=
  match cs with
  | 't' :: 'r' :: 'u' :: 'e' :: rest => some (.other, rest)
  | 'f' :: 'a' :: 'l' :: 's' :: 'e' :: rest => some (.other, rest)
  | _ =>
    match afterDateTime? cs with
    | some rest => some (.other, rest)
    | none => (readNumber cs).map fun (n, rest) => (.number n, rest)

end Placement.Toml
