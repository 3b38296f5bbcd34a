import Placement.Node
import Placement.Usage

/-!
# Projecting a placement

One alternative for each node: the candidate runs there and everything else stays as it is. An
alternative is described by the loads of all nodes, in the order of their names: the quadratic mean
and the peak of the fractions in use. Fractions may pass one. One is added to every value, because
normalization would otherwise blow up small differences: 0.004 is twice 0.002, and 1.004 is barely
more than 1.002.
-/

namespace Placement

/-- A node's capacity and what is in use of it. -/
structure Load where
  capacity : Capacity
  usage : Usage

namespace Load

def cpuFraction (l : Load) : Float := l.usage.cpu / l.capacity.cpu.toFloat

def memoryFraction (l : Load) : Float := l.usage.memory.toFloat / l.capacity.memory.toFloat

/-- The load once a further footprint is hosted. -/
def host (f : Footprint) (l : Load) : Load := { l with usage := l.usage.add f }

end Load

/-- The criteria values of an alternative. -/
structure Breakdown where
  averageCpu : Float
  highestCpu : Float
  averageMemory : Float
  highestMemory : Float

namespace Breakdown

/-- The square root of the mean square. -/
def quadraticMean (xs : List Float) : Float :=
  (xs.foldl (fun sum x => sum + x * x) 0.0 / Float.ofNat xs.length).sqrt

/-- The greatest of the values, zero if all are below. -/
def peak (xs : List Float) : Float :=
  xs.foldl (fun peak x => if peak < x then x else peak) 0.0

def ofLoads (loads : List Load) : Breakdown :=
  let cpu := loads.map Load.cpuFraction
  let memory := loads.map Load.memoryFraction
  { averageCpu := 1.0 + quadraticMean cpu
    highestCpu := 1.0 + peak cpu
    averageMemory := 1.0 + quadraticMean memory
    highestMemory := 1.0 + peak memory }

def toVector (b : Breakdown) : Vector Float 4 :=
  #v[b.averageCpu, b.highestCpu, b.averageMemory, b.highestMemory]

/-- The criteria values of placing a footprint on the node at that position. -/
def placing (f : Footprint) (loads : List Load) (target : Nat) : Breakdown :=
  ofLoads (loads.modify target (Load.host f))

/-- One alternative for each node, in their order. -/
def alternatives (f : Footprint) (loads : List Load) : List Breakdown :=
  (List.range loads.length).map (placing f loads)

@[simp] theorem length_alternatives (f : Footprint) (loads : List Load) :
    (alternatives f loads).length = loads.length := by
  simp [alternatives]

end Breakdown

end Placement
