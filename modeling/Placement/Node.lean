/-!
# Nodes

A node offers processing units and bytes of memory. The numbers alone are a capacity; whether they
are positive is a matter of the registry, which takes no others.
-/

namespace Placement

/-- What a node offers. -/
structure Capacity where
  cpu : UInt32
  memory : UInt64
  deriving Repr, DecidableEq

/-- A capacity that is positive in both resources. -/
structure Capacity.Positive (c : Capacity) : Prop where
  cpu : c.cpu ≠ 0
  memory : c.memory ≠ 0

/-- A named capacity. -/
structure Node where
  name : String
  capacity : Capacity
  deriving Repr, DecidableEq

end Placement
