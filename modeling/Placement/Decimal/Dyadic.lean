/-!
# Doubles as exact values

A finite double is a natural number times a power of two. The decoding below reads that pair off the
bits; every text of a double is computed from it in exact arithmetic. Nothing here rounds.
-/

namespace Placement.Decimal

/-- What the bits of a double stand for: no number, an infinity, or `± m · 2 ^ q`. -/
inductive Dyadic where
  | nan
  | infinite (negative : Bool)
  | finite (negative : Bool) (m : Nat) (q : Int)
  deriving Repr, DecidableEq

namespace Dyadic

/-- Significands have 53 bits: one that stands for itself and 52 that are stored. -/
def hiddenBit : Nat := 0x10000000000000

/-- The exponent of the least positive double. -/
def leastExponent : Int := -1074

/-- Decodes the sign, the 11 bits of the exponent and the 52 bits of the fraction. -/
def ofBits (bits : Nat) : Dyadic :=
  let negative := bits / 0x8000000000000000 % 2 == 1
  let field := bits / hiddenBit % 0x800
  let fraction := bits % hiddenBit
  if field = 0x7FF then
    if fraction = 0 then .infinite negative else .nan
  else if field = 0 then .finite negative fraction leastExponent
  else .finite negative (hiddenBit + fraction) (leastExponent + (field - 1 : Nat))

/-- The exact value of a double. -/
def ofFloat (x : Float) : Dyadic := ofBits x.toBits.toNat

example : ofFloat 1.0 = .finite false hiddenBit (-52) := by decide
example : ofFloat (-0.0) = .finite true 0 (-1074) := by decide
example : ofFloat (1.0 / 0.0) = .infinite false := by decide

end Dyadic

end Placement.Decimal
