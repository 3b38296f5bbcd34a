import Placement.Scoring.Engine

/-!
# Ranking scored nodes

The better score comes first. Between equal scores the node with more memory comes first, then the
one with more processing units, since it keeps more in reserve, and then the one whose name is less.
Scores are compared by their bits, so the order is total on all doubles: negative zero is below
zero, and what is no number is above infinity.
-/

namespace Placement

/-- The place of a double in the order of all doubles: the bits, with the sign bit set for doubles
without it and all bits flipped for doubles with it. -/
def rankOfBits (bits : UInt64) : UInt64 :=
  if bits < 0x8000000000000000 then bits + 0x8000000000000000 else ~~~bits

/-- Compares two doubles by their bits. -/
def compareTotal (x y : Float) : Ordering := compare (rankOfBits x.toBits) (rankOfBits y.toBits)

namespace NodeScore

/-- Compares two scored nodes, the preferred one less than the other. -/
def prefer (a b : NodeScore) : Ordering :=
  (compareTotal b.score a.score).then <|
    (compare b.capacity.memory a.capacity.memory).then <|
      (compare b.capacity.cpu a.capacity.cpu).then <|
        compare a.node b.node

/-- Scored nodes with the most preferred one first; equal ones keep their order. -/
def rank (scores : List NodeScore) : List NodeScore :=
  scores.mergeSort fun a b => (prefer a b).isLE

theorem rank_perm (scores : List NodeScore) : (rank scores).Perm scores :=
  List.mergeSort_perm _ _

end NodeScore

end Placement
