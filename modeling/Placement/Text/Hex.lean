/-!
# Hexadecimal numbers in text

Digits of base sixteen in either case, read a fixed number at a time, as escapes in quoted text
write them.
-/

namespace Placement.Text

/-- The value of a hexadecimal digit. -/
def hexDigit? (c : Char) : Option Nat :=
  if '0' ≤ c ∧ c ≤ '9' then some (c.toNat - '0'.toNat)
  else if 'a' ≤ c ∧ c ≤ 'f' then some (c.toNat - 'a'.toNat + 10)
  else if 'A' ≤ c ∧ c ≤ 'F' then some (c.toNat - 'A'.toNat + 10)
  else none

/-- Reads exactly `count` digits after those that make up `value`. -/
def hexNumber (value : Nat) : Nat → List Char → Option (Nat × List Char)
  | 0, rest => some (value, rest)
  | _ + 1, [] => none
  | count + 1, c :: rest =>
    match hexDigit? c with
    | some d => hexNumber (16 * value + d) count rest
    | none => none

/-- The character of a code point, unless it is one of the surrogates or too large. -/
def charOfCode? (code : Nat) : Option Char :=
  if h : code.isValidChar then some (Char.ofNatAux code h) else none

example : hexNumber 0 4 ['0', '0', 'e', '9', '!'] = some (0xE9, ['!']) := by decide
example : charOfCode? 0xD800 = none := by decide

end Placement.Text
