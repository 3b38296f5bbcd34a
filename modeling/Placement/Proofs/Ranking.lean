import Mathlib
import Placement.Proofs.Double.Bits
import Placement.Proofs.Standing

/-!
# The order of preference

Scored nodes are compared by their standings, so preference is a total order, up to scored nodes
that agree in all that is compared. Names tell the nodes of a domain apart; there, each scored node
is preferred to all that come later in the ranking, and the first one to every other one. Scores
that are amounts are ranked as numbers.
-/
namespace Placement
open Double

/-- The order of all doubles by their bits is, on amounts, the order of numbers. -/
theorem Double.Amount.le_of_compareTotal {x y : Float} (hx : Amount x) (hy : Amount y)
    (h : (compareTotal x y).isLE = true) : x ≤ y := by
  have hlt : x.toBits.toNat < 0x8000000000000000 := UInt64.lt_iff_toNat_lt.mp hx.toBits_lt
  have hlt' : y.toBits.toNat < 0x8000000000000000 := UInt64.lt_iff_toNat_lt.mp hy.toBits_lt
  rw [compareTotal, Std.isLE_compare, UInt64.le_iff_toNat_le, toNat_rankOfBits, toNat_rankOfBits,
    if_pos hlt, if_pos hlt', Nat.add_le_add_iff_right] at h
  rw [le_iff_value hx.finite hy.finite]
  exact hx.value_le_of_toBits_le hy (UInt64.le_iff_toNat_le.mpr h)

namespace NodeScore

theorem prefer_eq_prefer_standing (a b : NodeScore) :
    prefer a b = a.standing.prefer b.standing := rfl

theorem prefer_self (a : NodeScore) : prefer a a = .eq := Standing.prefer_self a.standing

theorem prefer_swap (a b : NodeScore) : prefer b a = (prefer a b).swap :=
  Standing.prefer_swap a.standing b.standing

theorem node_eq_of_prefer {a b : NodeScore} (h : prefer a b = .eq) : a.node = b.node := by
  rw [prefer_eq_prefer_standing] at h
  exact congrArg Standing.node (Standing.eq_of_prefer h)

/-- Between equal scores the capacities and the names decide. -/
theorem prefer_of_score_eq {a b : NodeScore} (h : a.score = b.score) :
    prefer a b = (compare b.capacity.memory a.capacity.memory).then
      ((compare b.capacity.cpu a.capacity.cpu).then (compare a.node b.node)) := by
  have hself : compareTotal b.score b.score = .eq := Std.ReflOrd.compare_self
  rw [prefer, h, hself]
  rfl

/-- What is preferred scores no less. -/
theorem compareTotal_of_prefer {a b : NodeScore} (h : prefer a b = .lt) :
    (compareTotal b.score a.score).isLE = true := by
  unfold prefer at h
  cases hscore : compareTotal b.score a.score with
  | gt => rw [hscore] at h; cases h
  | eq => rfl
  | lt => rfl

theorem pairwise_rank (scores : List NodeScore) :
    (rank scores).Pairwise fun a b => (prefer a b).isLE = true :=
  Standing.pairwise_rank standing scores

section
variable {scores : List NodeScore} (distinct : (scores.map node).Nodup)
include distinct

theorem pairwise_lt_rank : (rank scores).Pairwise fun a b => prefer a b = .lt := by
  have hnodes : ((rank scores).map node).Nodup :=
    ((rank_perm scores).map node).nodup_iff.mpr distinct
  apply ((pairwise_rank scores).and (List.pairwise_map.mp hnodes)).imp
  rintro a b ⟨hle, hne⟩
  cases h : prefer a b with
  | lt => rfl
  | eq => exact absurd (node_eq_of_prefer h) hne
  | gt => rw [h] at hle; cases hle

/-- The first one is the one that is preferred to all others. -/
theorem head?_rank {x : NodeScore} :
    (rank scores).head? = some x ↔
      x ∈ scores ∧ ∀ y ∈ scores, y.node ≠ x.node → prefer x y = .lt := by
  have hmem : ∀ y, y ∈ rank scores ↔ y ∈ scores := fun y => (rank_perm scores).mem_iff
  have hpairwise := pairwise_lt_rank distinct
  constructor
  · intro h
    obtain ⟨rest, hrank⟩ := List.head?_eq_some_iff.mp h
    rw [hrank] at hpairwise
    refine ⟨(hmem x).mp (hrank ▸ List.mem_cons_self), fun y hy hne => ?_⟩
    rcases List.mem_cons.mp (hrank ▸ (hmem y).mpr hy) with rfl | hrest
    · exact absurd rfl hne
    · exact (List.pairwise_cons.mp hpairwise).1 y hrest
  · rintro ⟨hx, hall⟩
    cases hrank : rank scores with
    | nil =>
      have hnone := (hmem x).mpr hx
      rw [hrank] at hnone
      cases hnone
    | cons z rest =>
      rw [hrank] at hpairwise
      have hz : z ∈ scores := (hmem z).mp (hrank ▸ List.mem_cons_self)
      rcases List.mem_cons.mp (hrank ▸ (hmem x).mpr hx) with rfl | hrest
      · rfl
      · -- were the first one another node, each of the two would be preferred to the other
        have hlt := (List.pairwise_cons.mp hpairwise).1 x hrest
        have hne : z.node ≠ x.node := by
          intro he
          rw [List.inj_on_of_nodup_map distinct hz hx he, prefer_self] at hlt
          cases hlt
        rw [prefer_swap x z, hall z hz hne] at hlt
        cases hlt

end

end NodeScore

end Placement
