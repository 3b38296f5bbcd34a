import Placement.Decimal.Layout

/-!
# Refusals

Every operation of the library that can refuse does so with one of the causes below. The causes are
values, so that statements can name them; their wording is in `message` alone. Overcommitment, a
service that is recorded twice and the removal of something unknown are no refusals.
-/

namespace Placement

/-- Why an operation was refused. -/
inductive Refusal where
  | unknownNode (node : String)
  | noCpu (node : String)
  | noMemory (node : String)
  | requestOutOfDomain (cpu : Float)
  | requestTooLarge (cpu : Float)
  | negativeWeight (criterion : String) (weight : Float)
  | unboundedWeight (criterion : String)
  | weightless
  deriving DecidableEq

namespace Refusal

open Decimal (spell)

/-- The text of a refusal as users read it. -/
def message : Refusal → String
  | unknownNode node => "node '" ++ node ++ "' not present in scheduler"
  | noCpu node => "invalid capacity for node '" ++ node ++ "': cpu capacity must be positive"
  | noMemory node => "invalid capacity for node '" ++ node ++ "': memory capacity must be positive"
  | requestOutOfDomain cpu =>
    "invalid service footprint: cpu request must be a finite, non-negative number, got "
      ++ spell cpu
  | requestTooLarge cpu =>
    "invalid service footprint: cpu request " ++ spell cpu ++ " exceeds the maximum of 4294967295"
  | negativeWeight criterion weight =>
    "invalid scoring criteria: weight of '" ++ criterion ++ "' must not be negative, got "
      ++ spell weight
  | unboundedWeight criterion =>
    "invalid scoring criteria: weight of '" ++ criterion ++ "' is not finite"
  | weightless => "invalid scoring criteria: at least one criterion needs a non-zero weight"

end Refusal

end Placement
