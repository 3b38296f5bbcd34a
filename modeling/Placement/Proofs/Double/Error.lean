import Mathlib
import Placement.Proofs.Double.Rounding

/-!
# Rounding errors

Rounding moves a number by at most half of the step between the doubles around it. That is a share
of the number, unless the number is so small that there are no finer steps, which sums of doubles
never need. Nothing here is said about numbers too large for a double.
-/
namespace Placement.Double

theorem abs_nearest_sub_le (x : ℝ) : |nearest x - x| ≤ 1 / 2 := by
  have hsplit := Int.floor_add_fract x
  have hnonneg := Int.fract_nonneg x
  have hlt := Int.fract_lt_one x
  rw [abs_le]
  rcases lt_trichotomy (Int.fract x) (1 / 2) with h | h | h
  · rw [nearest_of_lt h]
    constructor <;> linarith
  · have hmod : ⌊x⌋ % 2 = 0 ∨ ⌊x⌋ % 2 = 1 := Int.emod_two_eq_zero_or_one _
    rw [nearest_of_eq h]
    push_cast
    rcases hmod with hmod | hmod <;> rw [hmod] <;> constructor <;> push_cast <;> linarith
  · rw [nearest_of_gt h]
    push_cast
    constructor <;> linarith

/-- Half of the step between the doubles around a number. -/
theorem abs_rounded_sub_le (x : ℝ) : |rounded x - x| ≤ 2 ^ (exponent x - 1) := by
  have hpos : (0 : ℝ) < 2 ^ exponent x := by positivity
  have hscale : rounded x - x =
      (nearest (x / 2 ^ exponent x) - x / 2 ^ exponent x) * 2 ^ exponent x := by
    rw [sub_mul, div_mul_cancel₀ _ hpos.ne']
    rfl
  rw [hscale, abs_mul, abs_of_pos hpos, zpow_sub_one₀ two_ne_zero, mul_comm]
  exact mul_le_mul_of_nonneg_left (by simpa using abs_nearest_sub_le _) hpos.le

theorem half_step_eq (e : ℤ) : (2 : ℝ) ^ (e - 1) = 2 ^ (-53 : ℤ) * 2 ^ (e + 52) := by
  rw [← zpow_add₀ two_ne_zero]
  congr 1
  ring

theorem abs_rounded_sub_le_of_exponent {x : ℝ} (h : -1074 < exponent x) :
    |rounded x - x| ≤ 2 ^ (-53 : ℤ) * |x| := by
  rcases eq_or_ne x 0 with rfl | hx
  · rw [rounded_of_representable representable_zero]
    simp
  calc |rounded x - x| ≤ 2 ^ (exponent x - 1) := abs_rounded_sub_le x
    _ = 2 ^ (-53 : ℤ) * 2 ^ (exponent x + 52) := half_step_eq _
    _ ≤ 2 ^ (-53 : ℤ) * |x| := by
      gcongr
      exact two_zpow_le_of_exponent hx h

theorem abs_rounded_sub_le_share (x : ℝ) :
    |rounded x - x| ≤ 2 ^ (-53 : ℤ) * |x| + 2 ^ (-1075 : ℤ) := by
  rcases (le_exponent x).lt_or_eq with h | h
  · exact (abs_rounded_sub_le_of_exponent h).trans (le_add_of_nonneg_right (by positivity))
  · have hstep := abs_rounded_sub_le x
    rw [← h] at hstep
    exact hstep.trans (le_add_of_nonneg_left (by positivity))

/-- A number that is not too small keeps half of its size. -/
theorem half_le_rounded {x : ℝ} (h : 2 ^ (-1074 : ℤ) ≤ x) : x / 2 ≤ rounded x := by
  have hpos : 0 < x := lt_of_lt_of_le (by positivity) h
  rcases (le_exponent x).lt_or_eq with hexp | hexp
  · have herror := (abs_le.mp (abs_rounded_sub_le_of_exponent hexp)).1
    rw [abs_of_pos hpos] at herror
    norm_num at herror
    linarith
  · have herror := (abs_le.mp (abs_rounded_sub_le x)).1
    rw [← hexp, zpow_sub_one₀ two_ne_zero] at herror
    linarith

section
variable {x y : ℝ} (hx : Representable x) (hy : Representable y)
include hx hy

/-- A small sum of doubles is a double itself. -/
theorem rounded_add_of_exponent (h : exponent (x + y) = -1074) : rounded (x + y) = x + y := by
  have hlt := abs_lt_two_zpow_exponent (x + y)
  obtain ⟨m, rfl⟩ := hx.exists_multiple
  obtain ⟨n, rfl⟩ := hy.exists_multiple
  have hunit : (0 : ℝ) < 2 ^ (-1074 : ℤ) := by positivity
  rw [h, zpow_add₀ two_ne_zero, ← add_mul, abs_mul, abs_of_pos hunit, mul_comm,
    mul_lt_mul_iff_right₀ hunit] at hlt
  have hsum : Representable ((m + n : ℤ) * 2 ^ (-1074 : ℤ)) :=
    representable_of_le (by exact_mod_cast hlt.le) le_rfl
  rw [← add_mul, ← Int.cast_add, rounded_of_representable hsum]

theorem abs_rounded_add_sub_le :
    |rounded (x + y) - (x + y)| ≤ 2 ^ (-53 : ℤ) * |x + y| := by
  rcases (le_exponent (x + y)).lt_or_eq with h | h
  · exact abs_rounded_sub_le_of_exponent h
  · rw [rounded_add_of_exponent hx hy h.symm, sub_self, abs_zero]
    positivity

/-- What is rounded off a sum is a share of what is left as well. -/
theorem abs_rounded_add_sub_le_rounded (h : 0 ≤ x + y) :
    |rounded (x + y) - (x + y)| ≤ 2 ^ (-53 : ℤ) * rounded (x + y) := by
  rcases h.lt_or_eq with hpos | hzero
  · rcases (le_exponent (x + y)).lt_or_eq with hexp | hexp
    · have hfull := two_zpow_le_of_exponent hpos.ne' hexp
      rw [abs_of_pos hpos] at hfull
      calc |rounded (x + y) - (x + y)| ≤ 2 ^ (exponent (x + y) - 1) := abs_rounded_sub_le _
        _ = 2 ^ (-53 : ℤ) * 2 ^ (exponent (x + y) + 52) := half_step_eq _
        _ ≤ 2 ^ (-53 : ℤ) * rounded (x + y) := by
          gcongr
          exact two_zpow_le_rounded rfl hfull
    · rw [rounded_add_of_exponent hx hy hexp.symm, sub_self, abs_zero]
      positivity
  · rw [← hzero, rounded_of_representable representable_zero]
    simp

end

theorem abs_rounded_sub_le_of_le_one {x : ℝ} (hnonneg : 0 ≤ x) (hle : x ≤ 1) :
    |rounded x - x| ≤ 2 ^ (-54 : ℤ) := by
  rcases eq_or_ne x 0 with rfl | hx
  · rw [rounded_of_representable representable_zero]
    simp
  rcases hle.lt_or_eq with hlt | rfl
  · have hexp : exponent x ≤ -53 := exponent_le_of_lt_two_zpow hx (by norm_num)
      (by rwa [abs_of_nonneg hnonneg, neg_add_cancel, zpow_zero])
    exact (abs_rounded_sub_le x).trans (zpow_le_zpow_right₀ one_le_two (by omega))
  · have hone : Representable (1 : ℝ) := by simpa using representable_natCast (n := 1) (by norm_num)
    rw [rounded_of_representable hone, sub_self, abs_zero]
    positivity

end Placement.Double
