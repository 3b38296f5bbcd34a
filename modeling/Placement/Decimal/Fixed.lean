import Placement.Decimal.Layout

/-!
# A fixed number of places

A double is rounded to a number of places from its exact value, not from a shorter text of it. The
nearest decimal is taken, and a value exactly between two of them goes to the even one.
-/

namespace Placement.Decimal

/-- The whole number nearest to `num / den`, the even one of two that are equally near. -/
def roundHalfEven (num den : Nat) : Nat :=
  let whole := num / den
  match compare (2 * (num % den)) den with
  | .lt => whole
  | .gt => whole + 1
  | .eq => if whole % 2 = 0 then whole else whole + 1

/-- Writes `n / 10 ^ places` with exactly that many places. -/
def pointed (places n : Nat) : List Char :=
  let digits := Nat.toDigits 10 n
  let padded := List.replicate (places + 1 - digits.length) '0' ++ digits
  let before := padded.length - places
  if places = 0 then padded else padded.take before ++ '.' :: padded.drop before

/-- The exact value `m · 2 ^ q` in units of the last place, rounded. -/
def unitsOf (places m : Nat) (q : Int) : Nat :=
  roundHalfEven (m * Nat.pow 10 places * Nat.pow 2 q.toNat) (Nat.pow 2 (-q).toNat)

/-- The text of an exact value with a fixed number of places. -/
def fixedDyadic (places : Nat) : Dyadic → List Char
  | .nan => inMessages.nan
  | .infinite negative => Layout.sign negative inMessages.infinite
  | .finite negative m q => Layout.sign negative (pointed places (unitsOf places m q))

def fixed (places : Nat) (x : Float) : String :=
  String.ofList (fixedDyadic places (Dyadic.ofFloat x))

example : fixed 3 0.0625 = "0.062" := by decide +kernel
example : fixed 3 0.1875 = "0.188" := by decide +kernel
example : fixed 4 1.0 = "1.0000" := by decide +kernel

end Placement.Decimal
