import Mathlib
import Placement.Proofs.Scoring.Shares
import Placement.Proofs.Topsis.Columns

/-!
# Scores of alternatives

An alternative is scored by two distances, to the best and to the worst values. Both are rounded in
every step, and one that is nowhere worse than another is still no farther from the best and no
nearer to the worst. So scores are settled at the two ends of the scale: one that is nowhere worse
than any has all of it, one that is nowhere better has none. This is so for either direction of each
criterion and for values of any size. Scores of alternatives of which each is better somewhere are
not compared here.
-/
namespace Placement.Topsis
open Double

variable {n : ℕ}

/-- How far an alternative is from the best values, as computed. -/
def toBest (criteria : Criteria n) (rows : List (Vector Float n)) (row : Vector Float n) : Float :=
  distance (point criteria rows row) (best criteria (weighted criteria rows))

/-- How far an alternative is from the worst values, as computed. -/
def toWorst (criteria : Criteria n) (rows : List (Vector Float n)) (row : Vector Float n) : Float :=
  distance (point criteria rows row) (worst criteria (weighted criteria rows))

/-- The score of an alternative among others. -/
def score (criteria : Criteria n) (rows : List (Vector Float n)) (row : Vector Float n) : Float :=
  closeness (distance (point criteria rows row) (best criteria (weighted criteria rows)))
    (distance (point criteria rows row) (worst criteria (weighted criteria rows)))

theorem scores_eq_map (criteria : Criteria n) (rows : List (Vector Float n)) :
    scores criteria rows = rows.map (score criteria rows) := by
  unfold scores score
  dsimp only
  rw [weighted_eq_map, List.map_map]
  rfl

section
variable {criteria : Criteria n} {rows : List (Vector Float n)} {row other : Vector Float n}
  (comparable : Comparable criteria rows) (mem : row ∈ rows)
include comparable mem

theorem below_toBest : Below 30 (toBest criteria rows row) :=
  below_distance (by norm_num) (within_point comparable mem)
    (within_best comparable (List.ne_nil_of_mem mem))

theorem below_toWorst : Below 30 (toWorst criteria rows row) :=
  below_distance (by norm_num) (within_point comparable mem)
    (within_worst comparable (List.ne_nil_of_mem mem))

/-- A score lies between zero and one. -/
theorem amount_score :
    Amount (score criteria rows row) ∧ value (score criteria rows row) ≤ 1 :=
  closeness_spec (by norm_num) (below_toBest comparable mem) (below_toWorst comparable mem)

section
variable (memOther : other ∈ rows) (h : ∀ i : Fin n, merit criteria other i ≤ merit criteria row i)
include memOther h

/-- What is nowhere worse is no farther from the best. -/
theorem toBest_le : value (toBest criteria rows row) ≤ value (toBest criteria rows other) := by
  have hne := List.ne_nil_of_mem mem
  have hbest := within_best comparable hne
  refine distance_mono (by norm_num) (within_point comparable mem)
    (within_point comparable memOther) hbest hbest fun i => ?_
  exact Criterion.abs_sub_anti (merit_point_mono comparable mem memOther i (h i))
    ((best_spec comparable hne i).2 row mem)

/-- What is nowhere worse is no nearer to the worst. -/
theorem toWorst_le : value (toWorst criteria rows other) ≤ value (toWorst criteria rows row) := by
  have hne := List.ne_nil_of_mem mem
  have hworst := within_worst comparable hne
  refine distance_mono (by norm_num) (within_point comparable memOther)
    (within_point comparable mem) hworst hworst fun i => ?_
  exact Criterion.abs_sub_mono ((worst_spec comparable hne i).2 other memOther)
    (merit_point_mono comparable mem memOther i (h i))

end

section
variable (h : ∀ r ∈ rows, ∀ i : Fin n, merit criteria r i ≤ merit criteria row i)
include h

theorem toBest_eq_zero : value (toBest criteria rows row) = 0 := by
  have hne := List.ne_nil_of_mem mem
  refine distance_of_eq (by norm_num) (within_point comparable mem)
    (within_best comparable hne) fun i => ?_
  obtain ⟨⟨r, hr, heq⟩, hall⟩ := best_spec comparable hne i
  have hle := merit_point_mono comparable mem hr i (h r hr i)
  apply Criterion.eq_of_merit_eq (c := criteria.toVector.get i)
  refine le_antisymm (hall row mem) ?_
  rw [heq]
  exact hle

/-- What is nowhere worse than another alternative scores one. -/
theorem score_of_best : score criteria rows row = 1.0 :=
  closeness_of_best (by norm_num) (below_toBest comparable mem) (below_toWorst comparable mem)
    (toBest_eq_zero comparable mem h)

end

section
variable (h : ∀ r ∈ rows, ∀ i : Fin n, merit criteria row i ≤ merit criteria r i)
include h

theorem toWorst_eq_zero : value (toWorst criteria rows row) = 0 := by
  have hne := List.ne_nil_of_mem mem
  refine distance_of_eq (by norm_num) (within_point comparable mem)
    (within_worst comparable hne) fun i => ?_
  obtain ⟨⟨r, hr, heq⟩, hall⟩ := worst_spec comparable hne i
  have hle := merit_point_mono comparable hr mem i (h r hr i)
  apply Criterion.eq_of_merit_eq (c := criteria.toVector.get i)
  refine le_antisymm ?_ (hall row mem)
  rw [heq]
  exact hle

/-- What is nowhere better than another alternative scores zero, or one where it makes no
difference. -/
theorem score_of_worst :
    score criteria rows row = if toBest criteria rows row == 0.0 then 1.0 else 0.0 := by
  have hbest := below_toBest comparable mem
  have hworst := below_toWorst comparable mem
  have hnone := toWorst_eq_zero comparable mem h
  split
  next hzero =>
    rw [beq_iff_value hbest.amount.finite amount_zero.finite, value_zero] at hzero
    exact closeness_of_best (by norm_num) hbest hworst hzero
  next hzero =>
    rw [beq_iff_value hbest.amount.finite amount_zero.finite, value_zero] at hzero
    have hscore := closeness_of_worst (by norm_num) hbest hworst hnone hzero
    exact (amount_score comparable mem).1.ext amount_zero (hscore.trans value_zero.symm)

end

end

/-- At least as good in every criterion. -/
def Criteria.AtLeast (criteria : Criteria n) (a b : Vector Float n) : Prop :=
  ∀ i : Fin n,
    if (criteria.toVector.get i).maximize then b.get i ≤ a.get i else a.get i ≤ b.get i

instance (criteria : Criteria n) (a b : Vector Float n) : Decidable (criteria.AtLeast a b) :=
  inferInstanceAs (Decidable (∀ _ : Fin n, _))

theorem Criteria.AtLeast.merit_le {criteria : Criteria n} {a b : Vector Float n}
    (h : criteria.AtLeast a b) (ha : ∀ i : Fin n, (a.get i).isFinite = true)
    (hb : ∀ i : Fin n, (b.get i).isFinite = true) (i : Fin n) :
    merit criteria b i ≤ merit criteria a i := by
  have hi := h i
  unfold merit Criterion.merit
  split at hi
  next hmaximize =>
    rw [if_pos hmaximize, if_pos hmaximize]
    exact (le_iff_value (hb i) (ha i)).mp hi
  next hmaximize =>
    rw [if_neg hmaximize, if_neg hmaximize]
    exact neg_le_neg ((le_iff_value (ha i) (hb i)).mp hi)

theorem comparable_of_accepted {signed : Vector (String × Float) n} {criteria : Criteria n}
    {rows : List (Vector Float n)}
    (accepted : Criteria.ofVector (Criteria.stated signed) = .ok criteria)
    (finite : ∀ row ∈ rows, ∀ i : Fin n, (row.get i).isFinite = true) :
    Comparable criteria rows := by
  obtain ⟨hfinite, hne, rfl⟩ := Criteria.ofVector_eq_ok_iff.mp accepted
  exact ⟨finite, fun i => (Criteria.scaled_spec (Criteria.amount_get_stated hfinite) hne i).1⟩

/-- By any accepted criteria, an alternative that is nowhere worse than another one is no farther
from the best values and no nearer to the worst ones, as distances are computed. So what is nowhere
worse than anything scores one, and what is nowhere better scores zero unless it is at no distance
from the best. -/
theorem dominance {signed : Vector (String × Float) n} {criteria : Criteria n}
    {rows : List (Vector Float n)}
    (accepted : Criteria.ofVector (Criteria.stated signed) = .ok criteria)
    (finite : ∀ row ∈ rows, ∀ i : Fin n, (row.get i).isFinite = true) :
    weighted criteria rows = rows.map (point criteria rows) ∧
      scores criteria rows = rows.map (score criteria rows) ∧
      ∀ a ∈ rows,
        (∀ b ∈ rows, criteria.AtLeast a b →
          toBest criteria rows a ≤ toBest criteria rows b ∧
            toWorst criteria rows b ≤ toWorst criteria rows a) ∧
        ((∀ b ∈ rows, criteria.AtLeast a b) → score criteria rows a = 1.0) ∧
        ((∀ b ∈ rows, criteria.AtLeast b a) →
          score criteria rows a = if toBest criteria rows a == 0.0 then 1.0 else 0.0) := by
  have comparable := comparable_of_accepted accepted finite
  refine ⟨weighted_eq_map criteria rows, scores_eq_map criteria rows, fun a ha =>
    ⟨fun b hb dominates => ?_, fun dominates => ?_, fun dominated => ?_⟩⟩
  · have hmerit := dominates.merit_le (finite a ha) (finite b hb)
    rw [le_iff_value (below_toBest comparable ha).amount.finite
        (below_toBest comparable hb).amount.finite,
      le_iff_value (below_toWorst comparable hb).amount.finite
        (below_toWorst comparable ha).amount.finite]
    exact ⟨toBest_le comparable ha hb hmerit, toWorst_le comparable ha hb hmerit⟩
  · exact score_of_best comparable ha fun b hb =>
      (dominates b hb).merit_le (finite a ha) (finite b hb)
  · exact score_of_worst comparable ha fun b hb =>
      (dominated b hb).merit_le (finite b hb) (finite a ha)

/-- A fast and cheap offer against a slow and dear one, with a third in between. -/
theorem dominance_of_offers :
    ∃ criteria,
      Criteria.ofVector (Criteria.stated #v[("speed", 2.0), ("price", -3.0)]) = .ok criteria ∧
      score criteria [#v[8.0, 1e-3], #v[-1e300, 40.0], #v[4.0, 20.0]] #v[8.0, 1e-3] = 1.0 ∧
      score criteria [#v[8.0, 1e-3], #v[-1e300, 40.0], #v[4.0, 20.0]] #v[-1e300, 40.0] = 0.0 := by
  have accepted : Criteria.ofVector (Criteria.stated #v[("speed", 2.0), ("price", -3.0)]) =
      .ok (.scaled (Criteria.stated #v[("speed", 2.0), ("price", -3.0)])) :=
    Criteria.ofVector_eq_ok_iff.mpr ⟨by decide +kernel, by decide +kernel, rfl⟩
  have finite : ∀ row ∈ [#v[8.0, 1e-3], #v[-1e300, 40.0], (#v[4.0, 20.0] : Vector Float 2)],
      ∀ i : Fin 2, (row.get i).isFinite = true := by decide +kernel
  obtain ⟨-, -, law⟩ := dominance accepted finite
  refine ⟨_, accepted, (law _ (by simp)).2.1 (by decide +kernel), ?_⟩
  exact ((law _ (by simp)).2.2 (by decide +kernel)).trans (by decide +kernel)

section
variable {criteria : Criteria n} {rows : List (Vector Float n)} {row : Vector Float n}
  (moderate : Moderate rows) (lessening : criteria.Lessening) (mem : row ∈ rows)
include moderate lessening mem

theorem score_spec : Amount (score criteria rows row) ∧ value (score criteria rows row) ≤ 1 :=
  amount_score (moderate.comparable lessening) mem

theorem score_of_least (h : ∀ r ∈ rows, ∀ i : Fin n, value (row.get i) ≤ value (r.get i)) :
    score criteria rows row = 1.0 :=
  score_of_best (moderate.comparable lessening) mem fun r hr i => lessening.merit_le (h r hr i)

theorem score_of_greatest (h : ∀ r ∈ rows, ∀ i : Fin n, value (r.get i) ≤ value (row.get i)) :
    score criteria rows row = 1.0 ∨ value (score criteria rows row) = 0 := by
  have hmerit := fun r hr i => lessening.merit_le (h r hr i)
  rw [score_of_worst (moderate.comparable lessening) mem hmerit]
  split
  · exact .inl rfl
  · exact .inr value_zero

end

end Placement.Topsis
