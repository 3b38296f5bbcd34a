import Placement.Decimal.Dyadic

/-!
# The fewest digits that read back

The decimals that round to a positive double fill an interval around it, and the ends belong to it
exactly when the significand is even. Grids of decimals with one, two, three, … digits are tried in
turn: the first grid that has a point in the interval gives the digits. On that grid only the two
neighbours of the double matter, and of two that read back the nearer one is taken. An exact tie
between the two is settled by a parameter, because texts differ in that rule alone.
-/

namespace Placement.Decimal

/-- Which neighbour a value exactly between two of them goes to. -/
inductive Tie where
  | up
  | even
  deriving Repr, DecidableEq

/-- The decimal `significand · 10 ^ exponent`. -/
structure Scientific where
  significand : Nat
  exponent : Int
  deriving Repr, DecidableEq

namespace Scientific

/-- The same decimal with up to `fuel` zeros fewer at its end. -/
def strip : Nat → Scientific → Scientific
  | 0, d => d
  | fuel + 1, d =>
    if d.significand % 10 = 0 then strip fuel ⟨d.significand / 10, d.exponent + 1⟩ else d

end Scientific

/-- A positive double `value / unit` with the interval of reals that round to it: from `low / unit`
to `high / unit`, ends included when `closed`. -/
structure Interval where
  low : Nat
  value : Nat
  high : Nat
  unit : Nat
  closed : Bool
  deriving Repr, DecidableEq

namespace Interval

/-- The interval of `m · 2 ^ q`. The gap below a power of two is half as wide as the one above,
unless the power is the least one that is stored in full. -/
def ofDyadic (m : Nat) (q : Int) : Interval :=
  let scale := Nat.pow 2 (q - 2).toNat
  let below := if m = Dyadic.hiddenBit ∧ Dyadic.leastExponent < q then 1 else 2
  { low := (4 * m - below) * scale
    value := 4 * m * scale
    high := (4 * m + 2) * scale
    unit := Nat.pow 2 (2 - q).toNat
    closed := m % 2 == 0 }

/-- The grid step `10 ^ k` in units of the interval, times `up k`. -/
def step (s : Interval) (k : Int) : Nat := s.unit * Nat.pow 10 k.toNat

/-- The factor that makes a grid of negative `k` whole. -/
def up (k : Int) : Nat := Nat.pow 10 (-k).toNat

/-- Whether `c · 10 ^ k` rounds to the double. -/
def holds (s : Interval) (k : Int) (c : Nat) : Bool :=
  let x := c * s.step k
  if s.closed then s.low * up k ≤ x && x ≤ s.high * up k
  else s.low * up k < x && x < s.high * up k

/-- The number of digits before the point of `value / unit`; zero or less for a value below one
tenth that starts with zeros after its point. -/
def magnitude (s : Interval) : Int :=
  let guess : Int := (Nat.toDigits 10 s.value).length - (Nat.toDigits 10 s.unit).length
  if s.step guess ≤ s.value * up guess then guess + 1 else guess

/-- The decimal on the grid of `n` digits that reads back and is nearest to the double, if any. -/
def onGrid (s : Interval) (tie : Tie) (n : Nat) : Option Scientific :=
  let k := s.magnitude - n
  let value := s.value * up k
  let below := value / s.step k
  let above := below + 1
  match s.holds k below, s.holds k above with
  | false, false => none
  | true, false => some ⟨below, k⟩
  | false, true => some ⟨above, k⟩
  | true, true =>
    match compare (2 * value) ((below + above) * s.step k) with
    | .lt => some ⟨below, k⟩
    | .gt => some ⟨above, k⟩
    | .eq =>
      match tie with
      | .up => some ⟨above, k⟩
      | .even => some ⟨if below % 2 = 0 then below else above, k⟩

end Interval

/-- Seventeen digits tell any two doubles apart. -/
def mostDigits : Nat := 17

/-- The shortest decimal that rounds to `m · 2 ^ q`, nearest to it among those of its length,
without zeros at its end. -/
def shortest (tie : Tie) (m : Nat) (q : Int) : Scientific :=
  let s := Interval.ofDyadic m q
  let found := (List.range' 1 mostDigits).findSome? (s.onGrid tie)
  (found.getD ⟨s.value, 0⟩).strip mostDigits

example : shortest .even 1 (-1074) = ⟨5, -324⟩ := by decide +kernel
example : shortest .up Dyadic.hiddenBit 12 = ⟨18446744073709552, 3⟩ := by decide +kernel
example : shortest .up 7205759403792794 (-56) = ⟨1, -1⟩ := by decide +kernel

end Placement.Decimal
