import Mathlib
import Placement.Proofs.Scoring.Magnitude
import Placement.Proofs.Scoring.Weights

/-!
# Divisors

Scoring once more, with a division that has no result where the divisor is zero. It has all the
results of scoring, and the same ones: capacities are positive, the domain of an alternative is not
empty, the sum of accepted weights is not zero, and norms and total distances are looked at before
they divide. Infinite divisors are allowed here. The infinities that the search for extreme values
starts from are constants rather than quotients, and are kept as they are.
-/
namespace Placement
open Double

/-- A quotient, unless the divisor is zero of either sign. -/
def Double.divide? (x y : Float) : Option Float := if y == 0.0 then none else some (x / y)

theorem Double.divide?_of_ne {x y : Float} (h : (y == 0.0) = false) :
    divide? x y = some (x / y) := by
  simp [divide?, h]

/-- Where there is a result for every entry, there is one for the list. -/
theorem mapM_eq_some {α β : Type} {f : α → Option β} {g : α → β} {l : List α}
    (h : ∀ a ∈ l, f a = some (g a)) : l.mapM f = some (l.map g) := by
  induction l with
  | nil => rfl
  | cons a l ih =>
    obtain ⟨ha, hl⟩ := List.forall_mem_cons.mp h
    simp [ha, ih hl]

namespace Load

def cpuFraction? (l : Load) : Option Float := divide? l.usage.cpu l.capacity.cpu.toFloat

def memoryFraction? (l : Load) : Option Float :=
  divide? l.usage.memory.toFloat l.capacity.memory.toFloat

variable {l : Load} (h : l.capacity.Positive)
include h

theorem cpuFraction?_eq : l.cpuFraction? = some l.cpuFraction := by
  have hone := one_le_toFloat_uint32 h.cpu
  apply divide?_of_ne
  exact (below_toFloat_uint32 l.capacity.cpu).1.amount.ne_zero (by linarith)

theorem memoryFraction?_eq : l.memoryFraction? = some l.memoryFraction := by
  have hone := one_le_toFloat_uint64 h.memory
  apply divide?_of_ne
  exact (below_toFloat_uint64 l.capacity.memory).1.amount.ne_zero (by linarith)

end Load

namespace Breakdown

def quadraticMean? (xs : List Float) : Option Float :=
  (divide? (xs.foldl (fun sum x => sum + x * x) 0.0) (Float.ofNat xs.length)).map Float.sqrt

def ofLoads? (loads : List Load) : Option Breakdown := do
  let cpu ← loads.mapM Load.cpuFraction?
  let memory ← loads.mapM Load.memoryFraction?
  let meanCpu ← quadraticMean? cpu
  let meanMemory ← quadraticMean? memory
  return { averageCpu := 1.0 + meanCpu
           highestCpu := 1.0 + peak cpu
           averageMemory := 1.0 + meanMemory
           highestMemory := 1.0 + peak memory }

def alternatives? (f : Footprint) (loads : List Load) : Option (List Breakdown) :=
  (List.range loads.length).mapM fun target => ofLoads? (loads.modify target (Load.host f))

theorem quadraticMean?_eq {xs : List Float} (hne : xs ≠ []) :
    quadraticMean? xs = some (quadraticMean xs) := by
  have hlength : (Float.ofNat xs.length == 0.0) = false :=
    ofNat_ne_zero (List.length_pos_iff.mpr hne)
  rw [quadraticMean?, divide?_of_ne hlength]
  rfl

theorem ofLoads?_eq {loads : List Load} (hne : loads ≠ [])
    (h : ∀ l ∈ loads, l.capacity.Positive) : ofLoads? loads = some (ofLoads loads) := by
  have hmap : ∀ fraction : Load → Float, loads.map fraction ≠ [] := fun _ =>
    mt List.map_eq_nil_iff.mp hne
  have hcpu : loads.mapM Load.cpuFraction? = some (loads.map Load.cpuFraction) :=
    mapM_eq_some fun l hl => Load.cpuFraction?_eq (h l hl)
  have hmemory : loads.mapM Load.memoryFraction? = some (loads.map Load.memoryFraction) :=
    mapM_eq_some fun l hl => Load.memoryFraction?_eq (h l hl)
  simp only [ofLoads?, hcpu, hmemory, Option.bind_eq_bind, Option.bind_some,
    quadraticMean?_eq (hmap _)]
  rfl

theorem alternatives?_eq (f : Footprint) {loads : List Load}
    (h : ∀ l ∈ loads, l.capacity.Positive) :
    alternatives? f loads = some (alternatives f loads) := by
  apply mapM_eq_some
  intro target htarget
  apply ofLoads?_eq
  · rw [← List.length_pos_iff, List.length_modify]
    exact Nat.zero_lt_of_lt (List.mem_range.mp htarget)
  · intro l hl
    obtain ⟨i, hi, rfl⟩ := List.mem_iff_getElem.mp hl
    have hi' : i < loads.length := by simpa using hi
    have hpositive := h _ (List.getElem_mem hi')
    rw [List.getElem_modify]
    split
    · exact hpositive
    · exact hpositive

end Breakdown

namespace Topsis
variable {n : ℕ}

def Criteria.scaled? (given : Vector Criterion n) : Option (Criteria n) :=
  (given.mapM fun c =>
    (divide? c.weight (totalWeight given)).map fun weight => { c with weight }).map Criteria.mk

theorem Criteria.scaled?_eq {given : Vector Criterion n}
    (hne : (totalWeight given == 0.0) = false) : scaled? given = some (scaled given) := by
  have hshares : (given.mapM fun c => some { c with weight := c.weight / totalWeight given }) =
      some (given.map fun c => { c with weight := c.weight / totalWeight given }) :=
    Vector.mapM_pure _
  simp only [scaled?, divide?_of_ne hne, Option.map_some, hshares]
  rfl

def share? (norm x : Float) : Option Float := if norm == 0.0 then some 0.0 else divide? x norm

def point? (criteria : Criteria n) (rows : List (Vector Float n)) (row : Vector Float n) :
    Option (Vector Float n) :=
  Vector.ofFnM fun i =>
    (share? (norm (column rows i)) (row.get i)).map (· * (criteria.toVector.get i).weight)

def closeness? (toBest toWorst : Float) : Option Float :=
  let total := toBest + toWorst
  if total == 0.0 then some 1.0 else divide? toWorst total

def scores? (criteria : Criteria n) (rows : List (Vector Float n)) : Option (List Float) := do
  let points ← rows.mapM (point? criteria rows)
  let best := best criteria points
  let worst := worst criteria points
  points.mapM fun p => closeness? (distance p best) (distance p worst)

theorem share?_eq (norm x : Float) : share? norm x = some (share norm x) := by
  unfold share? share
  cases h : norm == 0.0 with
  | true => rfl
  | false => exact divide?_of_ne h

theorem point?_eq (criteria : Criteria n) (rows : List (Vector Float n)) (row : Vector Float n) :
    point? criteria rows row = some (point criteria rows row) := by
  simp only [point?, share?_eq, Option.map_some]
  exact Vector.ofFnM_pure

theorem closeness?_eq (toBest toWorst : Float) :
    closeness? toBest toWorst = some (closeness toBest toWorst) := by
  unfold closeness? closeness
  cases h : toBest + toWorst == 0.0 with
  | true => simp [h]
  | false => simp [h, divide?_of_ne h]

theorem scores?_eq (criteria : Criteria n) (rows : List (Vector Float n)) :
    scores? criteria rows = some (scores criteria rows) := by
  have hpoints : rows.mapM (point? criteria rows) = some (weighted criteria rows) := by
    rw [weighted_eq_map]
    exact mapM_eq_some fun row _ => point?_eq criteria rows row
  simp only [scores?, hpoints, Option.bind_eq_bind, Option.bind_some]
  exact mapM_eq_some fun p _ => closeness?_eq _ _

end Topsis

namespace Engine

/-- The engine of weights, unless their sum divides by zero. Whether they are accepted is not
asked. -/
def ofWeights? (w : Weights) : Option Engine := (Topsis.Criteria.scaled? w.signed).map (⟨w, ·⟩)

/-- Scores every registered node as `evaluate` does, unless something is divided by zero. -/
def evaluate? (e : Engine) (registry : Registry) (ledger : Ledger) (f : Footprint) :
    Option (List NodeScore) := do
  let alternatives ← Breakdown.alternatives? f (loads registry ledger)
  let scores ← Topsis.scores? e.criteria (alternatives.map Breakdown.toVector)
  return List.zipWith entry registry.toList (alternatives.zip scores)

theorem ofWeights?_eq {w : Weights} {e : Engine} (h : ofWeights w = .ok e) :
    ofWeights? w = some e := by
  obtain ⟨accepted, rfl⟩ := ofWeights_eq_ok_iff.mp h
  rw [ofWeights?, Topsis.Criteria.scaled?_eq accepted.weighty]
  rfl

theorem evaluate?_eq (e : Engine) (registry : Registry) (ledger : Ledger) (f : Footprint) :
    e.evaluate? registry ledger f = some (e.evaluate registry ledger f) := by
  have hpositive : ∀ l ∈ loads registry ledger, l.capacity.Positive := by
    intro l hl
    rw [loads_eq_map] at hl
    obtain ⟨n, hn, rfl⟩ := List.mem_map.mp hl
    exact registry.positive n hn
  simp only [evaluate?, Breakdown.alternatives?_eq f hpositive, Topsis.scores?_eq,
    Option.bind_eq_bind, Option.bind_some]
  rfl

end Engine

end Placement
