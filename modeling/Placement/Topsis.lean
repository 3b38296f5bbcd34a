import Placement.Refusal

/-!
# Similarity to the ideal

Alternatives are points with one coordinate for each criterion. Every column is divided by its norm
and scaled by the weight of its criterion; the best and the worst value of each column make up two
ideal points; and an alternative is scored by its distance from the worst one as a share of its
distances from both. All of it is arithmetic on doubles in a fixed order: sums run from the first
row or column to the last and start at zero.
-/

namespace Placement.Topsis

/-- What an alternative is judged by: a name, a weight, and whether more is better. -/
structure Criterion where
  name : String
  weight : Float
  maximize : Bool

/-- A criterion from a signed weight: less is better unless the weight is positive. -/
def Criterion.ofSigned (name : String) (weight : Float) : Criterion :=
  ⟨name, weight.abs, 0.0 < weight⟩

/-- Criteria whose weights have been divided by their sum. -/
structure Criteria (n : Nat) where
  toVector : Vector Criterion n

namespace Criteria

variable {n : Nat}

def totalWeight (given : Vector Criterion n) : Float :=
  (given.toList.map Criterion.weight).foldl (· + ·) 0.0

/-- The criteria with their weights divided by the sum of all. -/
def scaled (given : Vector Criterion n) : Criteria n :=
  ⟨given.map fun c => { c with weight := c.weight / totalWeight given }⟩

/-- Takes criteria whose weights are all finite and not all zero. -/
def ofVector (given : Vector Criterion n) : Except Refusal (Criteria n) :=
  match given.toList.find? (fun c => !c.weight.isFinite) with
  | some bad => .error (.unboundedWeight bad.name)
  | none => if totalWeight given == 0.0 then .error .weightless else .ok (scaled given)

end Criteria

/-- The square root of the sum of squares. -/
def norm (xs : List Float) : Float := (xs.foldl (fun sum x => sum + x * x) 0.0).sqrt

/-- The least of the values that are numbers, infinity if there is none. -/
def least (xs : List Float) : Float :=
  xs.foldl (fun least x => if x < least then x else least) (1.0 / 0.0)

/-- The greatest of the values that are numbers, minus infinity if there is none. -/
def greatest (xs : List Float) : Float :=
  xs.foldl (fun greatest x => if greatest < x then x else greatest) (-1.0 / 0.0)

variable {n : Nat}

/-- The values of all alternatives in one criterion. -/
def column (rows : List (Vector Float n)) (i : Fin n) : List Float := rows.map (·[i])

def distance (a b : Vector Float n) : Float := norm (Vector.zipWith (· - ·) a b).toList

/-- Divides a value by the norm of its column; a column of zeros stays one. -/
def share (norm x : Float) : Float := if norm == 0.0 then 0.0 else x / norm

/-- The alternatives with every column divided by its norm and scaled by its weight. -/
def weighted (criteria : Criteria n) (rows : List (Vector Float n)) : List (Vector Float n) :=
  let norms := Vector.ofFn fun i => norm (column rows i)
  rows.map fun row => Vector.ofFn fun i => share norms[i] row[i] * criteria.toVector[i].weight

def best (criteria : Criteria n) (rows : List (Vector Float n)) : Vector Float n :=
  Vector.ofFn fun i =>
    if criteria.toVector[i].maximize then greatest (column rows i) else least (column rows i)

def worst (criteria : Criteria n) (rows : List (Vector Float n)) : Vector Float n :=
  Vector.ofFn fun i =>
    if criteria.toVector[i].maximize then least (column rows i) else greatest (column rows i)

/-- The distance from the worst as a share of both distances; one where both vanish. -/
def closeness (toBest toWorst : Float) : Float :=
  let total := toBest + toWorst
  if total == 0.0 then 1.0 else toWorst / total

/-- The score of every alternative, in their order. -/
def scores (criteria : Criteria n) (rows : List (Vector Float n)) : List Float :=
  let points := weighted criteria rows
  let best := best criteria points
  let worst := worst criteria points
  points.map fun p => closeness (distance p best) (distance p worst)

@[simp] theorem length_weighted (criteria : Criteria n) (rows : List (Vector Float n)) :
    (weighted criteria rows).length = rows.length := by
  simp [weighted]

@[simp] theorem length_scores (criteria : Criteria n) (rows : List (Vector Float n)) :
    (scores criteria rows).length = rows.length := by
  simp [scores]

end Placement.Topsis
