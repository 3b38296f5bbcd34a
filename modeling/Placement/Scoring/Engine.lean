import Placement.Ledger
import Placement.Scoring.Projection
import Placement.Scoring.Weights

/-!
# The scoring engine

An engine holds accepted weights. It scores every node of a registry for one more footprint and
changes nothing. Results come in the order of the registry; records of nodes that are not registered
do not count.
-/

namespace Placement

/-- A node's score for a placement, with what it was computed from. -/
structure NodeScore where
  node : String
  score : Float
  capacity : Capacity
  breakdown : Breakdown

/-- Weights and the criteria they stand for. -/
structure Engine where
  weights : Weights
  criteria : Topsis.Criteria 4

namespace Engine

def ofWeights (w : Weights) : Except Refusal Engine := do
  let criteria ← w.criteria
  return ⟨w, criteria⟩

def standard : Engine := ⟨{}, .scaled ({} : Weights).signed⟩

instance : Inhabited Engine := ⟨standard⟩

/-- The loads of the registered nodes, in their order. -/
def loads (registry : Registry) (ledger : Ledger) : List Load :=
  let accounts := ledger.accounts
  registry.toList.map fun n => ⟨n.capacity, accounts.usageOf n.name⟩

/-- Puts a node together with the score and the criteria values of its alternative. -/
def entry (n : Node) (result : Breakdown × Float) : NodeScore :=
  { node := n.name, score := result.2, capacity := n.capacity, breakdown := result.1 }

/-- Scores every registered node for hosting one more footprint. -/
def evaluate (e : Engine) (registry : Registry) (ledger : Ledger) (f : Footprint) :
    List NodeScore :=
  let alternatives := Breakdown.alternatives f (loads registry ledger)
  let scores := Topsis.scores e.criteria (alternatives.map Breakdown.toVector)
  List.zipWith entry registry.toList (alternatives.zip scores)

def scoreNodes (e : Engine) (registry : Registry) (ledger : Ledger) (f : Footprint) :
    List (String × Float) :=
  (e.evaluate registry ledger f).map fun s => (s.node, s.score)

theorem ofWeights_standard : ofWeights {} = .ok standard := by
  have found : ({} : Weights).named.toList.find? (·.2 < 0.0) = none := by decide +kernel
  have finite : ({} : Weights).signed.toList.find? (fun c => !c.weight.isFinite) = none := by
    decide +kernel
  have total : (Topsis.Criteria.totalWeight ({} : Weights).signed == 0.0) = false := by
    decide +kernel
  simp [ofWeights, Weights.criteria, Topsis.Criteria.ofVector, found, finite, total, standard, bind,
    Except.bind, pure, Except.pure]

@[simp] theorem length_loads (registry : Registry) (ledger : Ledger) :
    (loads registry ledger).length = registry.toList.length := by
  simp [loads]

@[simp] theorem length_evaluate (e : Engine) (registry : Registry) (ledger : Ledger)
    (f : Footprint) : (e.evaluate registry ledger f).length = registry.toList.length := by
  simp [evaluate]

end Engine

end Placement
