import Placement.Refusal

/-!
# Footprints

A footprint is what a service asks of the node that hosts it: processing units, possibly a fraction
of one, and bytes of memory. A request for processing units is finite, not negative and at most the
largest capacity a node can have, which keeps squared utilizations finite. The bounds are part of
the type. No footprint is compared with any node: asking for more than a node has is allowed.
-/

namespace Placement

namespace Footprint

/-- The largest request for processing units, which is also the largest capacity of a node. -/
def maxCpu : Float := 4294967295.0

/-- The requests for processing units that a footprint may carry. -/
structure Admissible (cpu : Float) : Prop where
  finite : cpu.isFinite = true
  nonneg : ¬ cpu < 0.0
  bounded : ¬ maxCpu < cpu

end Footprint

/-- The resources that a service asks for. -/
structure Footprint where
  cpu : Float
  memory : UInt64
  admissible : Footprint.Admissible cpu

namespace Footprint

/-- A footprint of any request; what is not a number of units at all is refused before what is too
many of them. -/
def ofRequest (cpu : Float) (memory : UInt64) : Except Refusal Footprint :=
  if domain : cpu.isFinite = true ∧ ¬ cpu < 0.0 then
    if excess : maxCpu < cpu then .error (.requestTooLarge cpu)
    else .ok ⟨cpu, memory, domain.1, domain.2, excess⟩
  else .error (.requestOutOfDomain cpu)

@[ext] theorem ext {f g : Footprint} (cpu : f.cpu = g.cpu) (memory : f.memory = g.memory) :
    f = g := by
  cases f; cases g; simp_all

theorem ofRequest_self (f : Footprint) : ofRequest f.cpu f.memory = .ok f := by
  simp [ofRequest, f.admissible.finite, f.admissible.nonneg, f.admissible.bounded]

end Footprint

end Placement
