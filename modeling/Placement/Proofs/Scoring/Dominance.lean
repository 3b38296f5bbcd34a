import Mathlib
import Placement.Proofs.Double.Squares
import Placement.Proofs.Topsis.Scores

/-!
# Scores of alternatives in order

An alternative that is nowhere worse than another one has distances to show for it. Its share of
them may still be less, because both shares are rounded, but by no more than rounding takes. It is
no less where one of the two alternatives is at an end of the scale.
-/
namespace Placement.Topsis
open Double

/-- Two roundings move a share by little, because it is at most one. -/
theorem closeness_error {k : ℕ} {b w : Float} (hk : k + 1 < 1024) (hb : Below k b)
    (hw : Below k w) (hpos : 0 < value (b + w)) :
    |value (closeness b w) - value w / (value b + value w)| ≤ 3 * 2 ^ (-54 : ℤ) := by
  obtain ⟨-, htotal, -, hle⟩ := total_spec hk hb hw
  have hnonneg := hw.amount.nonneg
  have hsum : 0 < value b + value w := by
    refine (add_nonneg hb.amount.nonneg hnonneg).lt_of_ne' fun hzero => hpos.ne' ?_
    rw [htotal, hzero, rounded_of_representable representable_zero]
  have hadded := abs_rounded_add_sub_le (representable_value hb.amount.finite)
    (representable_value hw.amount.finite)
  rw [← htotal, abs_of_pos hsum] at hadded
  have hquotient : |value w / value (b + w) - value w / (value b + value w)| ≤ 2 ^ (-53 : ℤ) := by
    have hsplit : value w / value (b + w) - value w / (value b + value w) =
        -(value w / value (b + w) * ((value (b + w) - (value b + value w)) /
          (value b + value w))) := by
      field_simp
      ring
    rw [hsplit, abs_neg, abs_mul, abs_of_nonneg (by positivity), abs_div, abs_of_pos hsum]
    exact (mul_le_mul ((div_le_one hpos).mpr hle) ((div_le_iff₀ hsum).mpr hadded) (by positivity)
      zero_le_one).trans_eq (one_mul _)
  have hrounded := abs_rounded_sub_le_of_le_one (div_nonneg hnonneg hpos.le)
    ((div_le_one hpos).mpr hle)
  rw [(closeness_of_pos hk hb hw hpos).2]
  calc |rounded (value w / value (b + w)) - value w / (value b + value w)|
      ≤ 2 ^ (-54 : ℤ) + 2 ^ (-53 : ℤ) :=
        (abs_sub_le _ _ _).trans (add_le_add hrounded hquotient)
    _ = 3 * 2 ^ (-54 : ℤ) := by norm_num

section
variable {k : ℕ} {b b' w w' : Float} (hk : k + 1 < 1024) (hb : Below k b) (hb' : Below k b')
  (hw : Below k w) (hw' : Below k w') (nearer : value b ≤ value b')
include hk hb hb' hw hw' nearer

/-- At the ends of the scale shares are in order. -/
theorem closeness_le_of_end (h : value b = 0 ∨ value w' = 0) :
    value (closeness b' w') ≤ value (closeness b w) := by
  by_cases hzero : value b = 0
  · rw [closeness_of_best hk hb hw hzero, value_one]
    exact (closeness_spec hk hb' hw').2
  · have hpos : value b' ≠ 0 := ((hb.amount.nonneg.lt_of_ne' hzero).trans_le nearer).ne'
    rw [closeness_of_worst hk hb' hw' (h.resolve_left hzero) hpos]
    exact (closeness_spec hk hb hw).1.nonneg

theorem closeness_le (farther : value w' ≤ value w) :
    value (closeness b' w') ≤ value (closeness b w) + 2 ^ (-51 : ℤ) := by
  by_cases hzero : value b = 0
  · have hend := closeness_le_of_end hk hb hb' hw hw' nearer (.inl hzero)
    exact hend.trans (le_add_of_nonneg_right (by positivity))
  have hbpos : 0 < value b := hb.amount.nonneg.lt_of_ne' hzero
  have hwnonneg := hw.amount.nonneg
  have hw'nonneg := hw'.amount.nonneg
  have hfirst := abs_le.mp (closeness_error hk hb hw
    (hbpos.trans_le (total_spec hk hb hw).2.2.1))
  have hsecond := abs_le.mp (closeness_error hk hb' hw'
    ((hbpos.trans_le nearer).trans_le (total_spec hk hb' hw').2.2.1))
  have hshare : value w' / (value b' + value w') ≤ value w / (value b + value w) := by
    rw [div_le_div_iff₀ (by linarith) (by linarith)]
    nlinarith [mul_le_mul farther nearer hbpos.le hwnonneg]
  norm_num at hfirst hsecond ⊢
  linarith

end

section
variable {n : ℕ} {criteria : Criteria n} {rows : List (Vector Float n)} {row other : Vector Float n}
  (moderate : Moderate rows) (lessening : criteria.Lessening) (mem : row ∈ rows)
  (memOther : other ∈ rows)
include moderate lessening mem memOther

/-- Up to rounding, what is nowhere worse scores no less. -/
theorem score_le_of_le (h : ∀ i : Fin n, value (row.get i) ≤ value (other.get i)) :
    value (score criteria rows other) ≤ value (score criteria rows row) + 2 ^ (-51 : ℤ) := by
  have comparable := moderate.comparable lessening
  have hmerit := fun i => lessening.merit_le (h i)
  exact closeness_le (by norm_num) (below_toBest comparable mem)
    (below_toBest comparable memOther) (below_toWorst comparable mem)
    (below_toWorst comparable memOther) (toBest_le comparable mem memOther hmerit)
    (toWorst_le comparable mem memOther hmerit)

/-- The third alternative is worse than the second one in the last bit of one value, and scores more
by rounding alone. -/
example : scores (.scaled #v[⟨"first", 1.0, false⟩, ⟨"second", 1.0, false⟩])
    [#v[3.0, 1.25], #v[1.5, 1.625], #v[1.5000000000000002, 1.625]] =
      [0.25987517556175926, 0.7401248244382407, 0.7401248244382408] := by decide +kernel

/-- What is nowhere worse than anything scores no less, and so it does than what is nowhere
better. -/
theorem score_le_of_end (h : ∀ i : Fin n, value (row.get i) ≤ value (other.get i))
    (atEnd : (∀ r ∈ rows, ∀ i : Fin n, value (row.get i) ≤ value (r.get i)) ∨
      ∀ r ∈ rows, ∀ i : Fin n, value (r.get i) ≤ value (other.get i)) :
    value (score criteria rows other) ≤ value (score criteria rows row) := by
  have comparable := moderate.comparable lessening
  have hmerit := fun i => lessening.merit_le (h i)
  refine closeness_le_of_end (by norm_num) (below_toBest comparable mem)
    (below_toBest comparable memOther) (below_toWorst comparable mem)
    (below_toWorst comparable memOther) (toBest_le comparable mem memOther hmerit) ?_
  refine atEnd.imp (fun least => ?_) fun greatest => ?_
  · exact toBest_eq_zero comparable mem fun r hr i => lessening.merit_le (least r hr i)
  · exact toWorst_eq_zero comparable memOther fun r hr i => lessening.merit_le (greatest r hr i)

end

end Placement.Topsis
