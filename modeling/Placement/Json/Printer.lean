import Placement.Decimal.Layout
import Placement.Document.Basic
import Placement.Json.Quoted

/-!
# Writing JSON

A list or record with something in it is written over several lines, each item or member on a line
of its own, two spaces further in than the brackets around it. Doubles have the fewest digits that
read back and always a point or an exponent, so that they are told from whole numbers.
-/

namespace Placement.Json

open Decimal

/-- Doubles in JSON: an exponent below 0.00001 and from 10^16 on, and always a point otherwise. -/
def doubles : Layout where
  tie := .even
  positional before := -5 < before && before ≤ 16
  wholeWithPoint := true
  nan := "null".toList
  infinite := "null".toList

/-- The digits of a whole number, after a minus sign if it is negative. -/
def int (n : Int) : List Char :=
  if n < 0 then '-' :: Nat.toDigits 10 n.natAbs else Nat.toDigits 10 n.natAbs

def writeNumber : Number → List Char
  | .int n => int n
  | .real x => doubles.write x

/-- A new line at a depth of nesting. -/
def line (depth : Nat) : List Char := '\n' :: List.replicate (2 * depth) ' '

mutual

def write (depth : Nat) : Document → List Char
  | .text s => quote s
  | .number n => writeNumber n
  | .list [] _ => ['[', ']']
  | .list (d :: ds) _ =>
    '[' :: line (depth + 1) ++ write (depth + 1) d ++ writeItems (depth + 1) ds
      ++ line depth ++ [']']
  | .record [] _ => ['{', '}']
  | .record ((k, d) :: ms) _ =>
    '{' :: line (depth + 1) ++ quote k ++ [':', ' '] ++ write (depth + 1) d
      ++ writeMembers (depth + 1) ms ++ line depth ++ ['}']
  | .other => "null".toList

/-- The items of a list after the first one. -/
def writeItems (depth : Nat) : List Document → List Char
  | [] => []
  | d :: ds => ',' :: line depth ++ write depth d ++ writeItems depth ds

/-- The members of a record after the first one. -/
def writeMembers (depth : Nat) : List (String × Document) → List Char
  | [] => []
  | (k, d) :: ms =>
    ',' :: line depth ++ quote k ++ [':', ' '] ++ write depth d ++ writeMembers depth ms

end

def print (d : Document) : String := String.ofList (write 0 d)

example : print (.list [.number (.real 1e-7), .number (.int (-3)), .list [] true] true)
    = "[\n  1e-7,\n  -3,\n  []\n]" := by decide +kernel

end Placement.Json
