import Mathlib
import Placement.Proofs.Double.Unsigned
import Placement.Proofs.Topsis

/-!
# Columns and their ideal values

A column of finite values may have a norm that is infinite, and one that is zero although not all
values are. Nothing is divided by zero, and what is divided by infinity is zero; so in all of these
cases a value is compared as the rounded quotient by its norm, and quotients are at most four in
size. They are in the order of the values, and so they are with a weight. The ideal values of a
column are its extremes; which of them is the best depends on the criterion. Rounding may make
values alike that differ, which is as well here.
-/
namespace Placement.Topsis
open Double

section
variable {xs : List Float} (finite : ∀ x ∈ xs, x.isFinite = true)
include finite

theorem unsigned_norm : Unsigned (norm xs) :=
  (unsigned_addSquares (.amount amount_zero) finite).sqrt

section
variable (hsum : Amount (addSquares 0.0 xs)) (hpos : 0 < value (addSquares 0.0 xs))
include hsum hpos

/-- The root of a sum of squares is not much less than what is squared. -/
theorem abs_le_sqrt_addSquares {x : Float} (hx : x ∈ xs) :
    |value x| ≤ 2 * Real.sqrt (value (addSquares 0.0 xs)) := by
  have hleast := (representable_value hsum.finite).two_zpow_le hpos
  -- A square that is lost in rounding is below the least double, and so below the sum.
  have hsquare : value x * value x ≤ 2 * value (addSquares 0.0 xs) := by
    rcases le_or_gt (2 ^ (-1074 : ℤ)) (value x * value x) with hlarge | hsmall
    · have hle := (le_addSquares (.amount amount_zero) finite hsum).2.2 x hx
      linarith [half_le_rounded hlarge]
    · linarith
  rw [← Real.sqrt_sq (zero_le_two : (0 : ℝ) ≤ 2), ← Real.sqrt_mul (sq_nonneg 2)]
  refine Real.abs_le_sqrt ?_
  rw [sq]
  linarith

omit finite in
theorem half_sqrt_le_norm : Real.sqrt (value (addSquares 0.0 xs)) / 2 ≤ value (norm xs) := by
  have hroot : value (norm xs) = rounded (Real.sqrt (value (addSquares 0.0 xs))) :=
    (Below.sqrt (k := 512) hsum.below (by norm_num)).2
  have hleast := (representable_value hsum.finite).two_zpow_le hpos
  rw [hroot]
  refine half_le_rounded (Real.le_sqrt_of_sq_le (le_trans ?_ hleast))
  rw [← zpow_natCast, ← zpow_mul]
  exact zpow_le_zpow_right₀ one_le_two (by norm_num)

end

theorem abs_le_norm (hnorm : Amount (norm xs)) (hpos : 0 < value (norm xs)) {x : Float}
    (hx : x ∈ xs) : |value x| ≤ 2 ^ 2 * value (norm xs) := by
  cases unsigned_addSquares (.amount amount_zero) finite with
  | infinity h => exact absurd hnorm (not_amount_of_infinity (unpack_sqrt_infinity h))
  | amount hsum =>
    have hsumpos : 0 < value (addSquares 0.0 xs) := by
      refine hsum.nonneg.lt_of_ne' fun hzero => hpos.ne' ?_
      change value (addSquares 0.0 xs).sqrt = 0
      rw [(Below.sqrt (k := 512) hsum.below (by norm_num)).2, hzero, Real.sqrt_zero,
        rounded_of_representable representable_zero]
    linarith [abs_le_sqrt_addSquares finite hsum hsumpos hx, half_sqrt_le_norm hsum hsumpos]

/-- A value as a share of its column, whatever the norm of the column is. -/
theorem within_share {x : Float} (hx : x ∈ xs) :
    Within 2 (share (norm xs) x) ∧
      value (share (norm xs) x) = rounded (value x / value (norm xs)) := by
  unfold share
  cases unsigned_norm finite with
  | amount hnorm =>
    rcases hnorm.nonneg.lt_or_eq with hpos | hzero
    · rw [hnorm.ne_zero hpos]
      exact Within.div (finite x hx) hnorm hpos (abs_le_norm finite hnorm hpos hx) (by norm_num)
    · have hbeq := (beq_iff_value hnorm.finite amount_zero.finite).mpr
        (hzero.symm.trans value_zero.symm)
      rw [hbeq, ← hzero, div_zero, rounded_of_representable representable_zero]
      exact ⟨(below_zero 2).within, value_zero⟩
  | infinity hnorm =>
    obtain ⟨hfinite, hvalue⟩ := isFinite_div_infinity (finite x hx) hnorm
    rw [infinity_ne_zero hnorm, value_infinity hnorm, div_zero,
      rounded_of_representable representable_zero]
    exact ⟨⟨hfinite, by simp only [Bool.false_eq_true, if_false, hvalue]; norm_num⟩, hvalue⟩

end

/-- How good a value is by a criterion: the greater the better. -/
noncomputable def Criterion.merit (c : Criterion) (x : ℝ) : ℝ := if c.maximize then x else -x

namespace Criterion
variable {c : Criterion} {x y : ℝ}

theorem merit_mono {f : ℝ → ℝ} (hf : Monotone f) (h : c.merit x ≤ c.merit y) :
    c.merit (f x) ≤ c.merit (f y) := by
  unfold merit at *
  split
  next hmaximize =>
    rw [if_pos hmaximize, if_pos hmaximize] at h
    exact hf h
  next hmaximize =>
    rw [if_neg hmaximize, if_neg hmaximize] at h
    exact neg_le_neg (hf (neg_le_neg_iff.mp h))

theorem eq_of_merit_eq (h : c.merit x = c.merit y) : x = y := by
  unfold merit at h
  split at h
  · exact h
  · exact neg_injective h

/-- Distances are the same in either direction. -/
theorem abs_rounded_merit_sub (c : Criterion) (x y : ℝ) :
    |rounded (c.merit x - c.merit y)| = |rounded (x - y)| := by
  unfold merit
  split
  · rfl
  · rw [neg_sub_neg, abs_rounded_sub_comm]

theorem abs_sub_anti {z : ℝ} (hxy : c.merit x ≤ c.merit y) (hyz : c.merit y ≤ c.merit z) :
    |rounded (y - z)| ≤ |rounded (x - z)| := by
  have h := abs_rounded_sub_anti hxy hyz
  rwa [abs_rounded_merit_sub, abs_rounded_merit_sub] at h

theorem abs_sub_mono {z : ℝ} (hxy : c.merit x ≤ c.merit y) (hyz : c.merit y ≤ c.merit z) :
    |rounded (y - x)| ≤ |rounded (z - x)| := by
  have h := abs_rounded_sub_mono hxy hyz
  rwa [abs_rounded_merit_sub, abs_rounded_merit_sub] at h

variable {xs : List Float} (hne : xs ≠ []) (finite : ∀ x ∈ xs, x.isFinite = true)
include hne finite

theorem best_spec (c : Criterion) :
    (if c.maximize then greatest xs else least xs) ∈ xs ∧
      ∀ x ∈ xs, c.merit (value x) ≤
        c.merit (value (if c.maximize then greatest xs else least xs)) := by
  unfold merit
  split
  · exact greatest_spec hne finite
  · obtain ⟨hmem, hall⟩ := least_spec hne finite
    exact ⟨hmem, fun x hx => neg_le_neg (hall x hx)⟩

theorem worst_spec (c : Criterion) :
    (if c.maximize then least xs else greatest xs) ∈ xs ∧
      ∀ x ∈ xs, c.merit (value (if c.maximize then least xs else greatest xs)) ≤
        c.merit (value x) := by
  unfold merit
  split
  · exact least_spec hne finite
  · obtain ⟨hmem, hall⟩ := greatest_spec hne finite
    exact ⟨hmem, fun x hx => neg_le_neg (hall x hx)⟩

end Criterion

variable {n : ℕ}

/-- A value of a column as it is compared: divided by the norm and scaled by the weight. -/
def scale (criteria : Criteria n) (rows : List (Vector Float n)) (i : Fin n) (x : Float) : Float :=
  share (norm (column rows i)) x * (criteria.toVector.get i).weight

/-- An alternative as it is compared. -/
def point (criteria : Criteria n) (rows : List (Vector Float n)) (row : Vector Float n) :
    Vector Float n :=
  Vector.ofFn fun i => scale criteria rows i (row.get i)

theorem get_point (criteria : Criteria n) (rows : List (Vector Float n)) (row : Vector Float n)
    (i : Fin n) : (point criteria rows row).get i = scale criteria rows i (row.get i) := by
  simp [point, Vector.get_eq_getElem]

theorem weighted_eq_map (criteria : Criteria n) (rows : List (Vector Float n)) :
    weighted criteria rows = rows.map (point criteria rows) := by
  unfold weighted point scale
  simp [Vector.get_eq_getElem]

theorem column_weighted (criteria : Criteria n) (rows : List (Vector Float n)) (i : Fin n) :
    column (weighted criteria rows) i = rows.map fun row => (point criteria rows row).get i := by
  rw [weighted_eq_map, column, List.map_map]
  rfl

/-- Alternatives of finite values, judged by weights up to one. -/
structure Comparable (criteria : Criteria n) (rows : List (Vector Float n)) : Prop where
  finite : ∀ row ∈ rows, ∀ i : Fin n, (row.get i).isFinite = true
  below : ∀ i : Fin n, Below 0 (criteria.toVector.get i).weight

/-- How good an alternative is by one criterion, among all. -/
noncomputable def merit (criteria : Criteria n) (row : Vector Float n) (i : Fin n) : ℝ :=
  (criteria.toVector.get i).merit (value (row.get i))

section
variable {criteria : Criteria n} {rows : List (Vector Float n)} {row other : Vector Float n}
  (comparable : Comparable criteria rows)
include comparable

theorem isFinite_column (i : Fin n) : ∀ x ∈ column rows i, x.isFinite = true := by
  intro x hx
  obtain ⟨r, hr, rfl⟩ := List.mem_map.mp hx
  exact comparable.finite r hr i

section
variable (mem : row ∈ rows)
include mem

theorem point_spec (i : Fin n) :
    Within 2 ((point criteria rows row).get i) ∧
      value ((point criteria rows row).get i) =
        rounded (rounded (value (row.get i) / value (norm (column rows i))) *
          value (criteria.toVector.get i).weight) := by
  obtain ⟨hshare, hvalue⟩ := within_share (isFinite_column comparable i)
    (List.mem_map_of_mem mem : row.get i ∈ column rows i)
  obtain ⟨hproduct, hvalue'⟩ := hshare.mul (comparable.below i).within (by norm_num)
  rw [get_point]
  rw [hvalue] at hvalue'
  exact ⟨hproduct, hvalue'⟩

theorem within_point (i : Fin n) : Within 2 ((point criteria rows row).get i) :=
  (point_spec comparable mem i).1

/-- What is scaled stays in order. -/
theorem merit_point_mono (memOther : other ∈ rows) (i : Fin n)
    (h : merit criteria other i ≤ merit criteria row i) :
    merit criteria (point criteria rows other) i ≤ merit criteria (point criteria rows row) i := by
  have hnorm := (unsigned_norm (isFinite_column comparable i)).nonneg
  have hweight := (comparable.below i).amount.nonneg
  unfold merit
  rw [(point_spec comparable mem i).2, (point_spec comparable memOther i).2]
  refine Criterion.merit_mono (f := fun x =>
    rounded (rounded (x / value (norm (column rows i))) *
      value (criteria.toVector.get i).weight)) (fun x y hle => ?_) h
  have hquotient := rounded_mono (div_le_div_of_nonneg_right hle hnorm)
  exact rounded_mono (mul_le_mul_of_nonneg_right hquotient hweight)

end

omit comparable in
theorem get_best (i : Fin n) :
    (best criteria (weighted criteria rows)).get i =
      if (criteria.toVector.get i).maximize
      then greatest (rows.map fun row => (point criteria rows row).get i)
      else least (rows.map fun row => (point criteria rows row).get i) := by
  rw [← column_weighted]
  simp [best, Vector.get_eq_getElem]

omit comparable in
theorem get_worst (i : Fin n) :
    (worst criteria (weighted criteria rows)).get i =
      if (criteria.toVector.get i).maximize
      then least (rows.map fun row => (point criteria rows row).get i)
      else greatest (rows.map fun row => (point criteria rows row).get i) := by
  rw [← column_weighted]
  simp [worst, Vector.get_eq_getElem]

theorem isFinite_points (i : Fin n) :
    ∀ x ∈ rows.map fun row => (point criteria rows row).get i, x.isFinite = true := by
  intro x hx
  obtain ⟨r, hr, rfl⟩ := List.mem_map.mp hx
  exact (within_point comparable hr i).finite

theorem best_spec (hne : rows ≠ []) (i : Fin n) :
    (∃ r ∈ rows, (best criteria (weighted criteria rows)).get i =
        (point criteria rows r).get i) ∧
      ∀ r ∈ rows, merit criteria (point criteria rows r) i ≤
        merit criteria (best criteria (weighted criteria rows)) i := by
  obtain ⟨hmem, hall⟩ := Criterion.best_spec (mt List.map_eq_nil_iff.mp hne)
    (isFinite_points comparable i) (criteria.toVector.get i)
  rw [← get_best] at hmem hall
  obtain ⟨r, hr, heq⟩ := List.mem_map.mp hmem
  exact ⟨⟨r, hr, heq.symm⟩, fun r hr => hall _ (List.mem_map_of_mem hr)⟩

theorem worst_spec (hne : rows ≠ []) (i : Fin n) :
    (∃ r ∈ rows, (worst criteria (weighted criteria rows)).get i =
        (point criteria rows r).get i) ∧
      ∀ r ∈ rows, merit criteria (worst criteria (weighted criteria rows)) i ≤
        merit criteria (point criteria rows r) i := by
  obtain ⟨hmem, hall⟩ := Criterion.worst_spec (mt List.map_eq_nil_iff.mp hne)
    (isFinite_points comparable i) (criteria.toVector.get i)
  rw [← get_worst] at hmem hall
  obtain ⟨r, hr, heq⟩ := List.mem_map.mp hmem
  exact ⟨⟨r, hr, heq.symm⟩, fun r hr => hall _ (List.mem_map_of_mem hr)⟩

theorem within_best (hne : rows ≠ []) (i : Fin n) :
    Within 2 ((best criteria (weighted criteria rows)).get i) := by
  obtain ⟨⟨r, hr, heq⟩, -⟩ := best_spec comparable hne i
  rw [heq]
  exact within_point comparable hr i

theorem within_worst (hne : rows ≠ []) (i : Fin n) :
    Within 2 ((worst criteria (weighted criteria rows)).get i) := by
  obtain ⟨⟨r, hr, heq⟩, -⟩ := worst_spec comparable hne i
  rw [heq]
  exact within_point comparable hr i

end

/-- Values from one to a bound that no domain comes near. -/
def Moderate (rows : List (Vector Float n)) : Prop :=
  ∀ row ∈ rows, ∀ i : Fin n, Below 114 (row.get i) ∧ 1 ≤ value (row.get i)

/-- Criteria with weights up to one, in all of which less is better. -/
structure Criteria.Lessening (criteria : Criteria n) : Prop where
  below : ∀ i : Fin n, Below 0 (criteria.toVector.get i).weight
  minimized : ∀ i : Fin n, (criteria.toVector.get i).maximize = false

section
variable {criteria : Criteria n} {rows : List (Vector Float n)} {row other : Vector Float n}

theorem Moderate.comparable (moderate : Moderate rows) (lessening : criteria.Lessening) :
    Comparable criteria rows :=
  ⟨fun row hrow i => (moderate row hrow i).1.amount.finite, lessening.below⟩

theorem Criteria.Lessening.merit_le (lessening : criteria.Lessening) {i : Fin n}
    (h : value (row.get i) ≤ value (other.get i)) :
    merit criteria other i ≤ merit criteria row i := by
  have hminimized := Bool.eq_false_iff.mp (lessening.minimized i)
  unfold merit Criterion.merit
  rw [if_neg hminimized, if_neg hminimized]
  exact neg_le_neg h

end

end Placement.Topsis
