import Placement.Topsis

/-!
# Weights of the four criteria

An alternative is judged by how far processing units and memory are in use, on average over the
domain and on its fullest node. Weights say how much each of the four matters; they are not
negative, and less is better in all four. Memory counts for more by default because it cannot be
overcommitted as safely.
-/

namespace Placement

/-- How much each of the four criteria matters. -/
structure Weights where
  averageCpu : Float := 1.0
  highestCpu : Float := 2.0
  averageMemory : Float := 5.0
  highestMemory : Float := 10.0

namespace Weights

def named (w : Weights) : Vector (String × Float) 4 :=
  #v[("average CPU", w.averageCpu), ("highest CPU", w.highestCpu),
    ("average memory", w.averageMemory), ("highest memory", w.highestMemory)]

/-- The four criteria, each of which is better the less it is. -/
def signed (w : Weights) : Vector Topsis.Criterion 4 :=
  w.named.map fun (name, weight) => .ofSigned name (-weight)

/-- The criteria of the weights; a negative weight is refused before one that is not finite. -/
def criteria (w : Weights) : Except Refusal (Topsis.Criteria 4) :=
  match w.named.toList.find? (·.2 < 0.0) with
  | some (name, weight) => .error (.negativeWeight name weight)
  | none => Topsis.Criteria.ofVector w.signed

end Weights

end Placement
