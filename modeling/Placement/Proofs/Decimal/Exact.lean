import Mathlib
import Placement.Proofs.Decimal.Nearest

/-!
# Literals that are read alike

Scaling misses the nearest double only where a significand or a power of ten has to be rounded
before the result is. A significand of 53 bits with an exponent of at most 22 needs no such
rounding, and zero never does.
-/
namespace Placement.Decimal.Literal
open Double
open Float.Model.UnpackedFloat

variable {n : ℕ} {e : ℤ} {x : Float}

/-- A literal that is zero, or whose significand and power of ten are doubles. -/
structure Exact (l : Literal) : Prop where
  significand : l.significand < 2 ^ 53
  scaleExponent : l.significand = 0 ∨ l.scaleExponent.natAbs ≤ 22

theorem exists_nearestTo_of_small (hn : n < 2 ^ 53) (he : e.natAbs ≤ 22) :
    scale (UInt64.ofNat n).toFloat e = some (nearestTo n e) ∧ (nearestTo n e).isFinite = true := by
  have hgreatest : e.natAbs ≤ greatestPower := he.trans (by decide)
  unfold nearestTo
  rw [ofScientific_of_small hn he]
  rcases lt_or_ge e 0 with hneg | hnonneg
  · obtain ⟨k, rfl⟩ : ∃ k : ℕ, e = -k := ⟨e.natAbs, by omega⟩
    rw [Int.natAbs_neg, Int.natAbs_natCast] at hgreatest ⊢
    rw [decide_eq_true hneg, if_pos rfl]
    exact ⟨scale_neg_of_le (by omega) hgreatest _,
      (div_powerOfTen_spec (hn.trans (by decide)) hgreatest).1.finite⟩
  · have hproduct := (below_toUInt64 hn).1.mul (below_powerOfTen he).1 (by norm_num)
    have hfinite := hproduct.1.amount.finite
    rw [decide_eq_false (not_lt.mpr hnonneg), if_neg Bool.false_ne_true]
    refine ⟨?_, hfinite⟩
    unfold scale
    dsimp only
    rw [if_neg (not_lt.mpr hnonneg), if_pos hgreatest]
    exact if_pos hfinite

theorem zero_div_powerOfTen {k : ℕ} (hk : k ≤ greatestPower) : 0.0 / powerOfTen k = 0.0 := by
  obtain ⟨hamount, hvalue⟩ := div_powerOfTen_spec (s := 0) (by decide) hk
  refine hamount.ext amount_zero (hvalue.trans ?_)
  rw [Nat.cast_zero, rounded_of_representable representable_zero, zero_div, value_zero,
    rounded_of_representable representable_zero]

theorem zero_mul_powerOfTen {k : ℕ} (hk : k ≤ greatestPower) : 0.0 * powerOfTen k = 0.0 := by
  obtain ⟨hamount, -⟩ := powerOfTen_spec hk
  have hround : rounded (Double.value 0.0 * Double.value (powerOfTen k)) = 0 := by
    rw [value_zero, zero_mul, rounded_of_representable representable_zero]
  obtain ⟨hproduct, hvalue⟩ := amount_zero.mul hamount (by rw [hround]; positivity)
  exact hproduct.ext amount_zero (by rw [hvalue, hround, value_zero])

/-- Zero is zero at every scale. -/
theorem scale_zero (e : ℤ) : scale 0.0 e = some 0.0 := by
  have hzero : ((0.0 : Float) == 0.0) = true := rfl
  have hshrink (count : ℕ) : shrink count 0.0 = 0.0 := by
    cases count with
    | zero => rfl
    | succ count => rw [shrink, if_pos hzero]
  unfold scale
  dsimp only
  by_cases hneg : e < 0
  · have hmod := Nat.mod_lt (e.natAbs - 1) (show 0 < greatestPower by decide)
    rw [if_pos hneg, hshrink, zero_div_powerOfTen (by omega)]
  · rw [if_neg hneg]
    by_cases hle : e.natAbs ≤ greatestPower
    · rw [if_pos hle, zero_mul_powerOfTen hle]
      rfl
    · rw [if_neg hle]
      rfl

theorem isFinite_signed (negative : Bool) (hx : x.isFinite = true) :
    (signed negative x).isFinite = true := by
  cases negative with
  | false => exact hx
  | true =>
    have hproper := proper_unpack hx
    refine isFinite_of_proper ?_
    change Proper (-x).toModel.unpack
    rw [unpack_neg]
    cases hu : x.toModel.unpack with
    | zero s => trivial
    | finite s m q hm => rwa [hu] at hproper
    | infinity s => rw [hu] at hproper; cases hproper
    | notANumber => rw [hu] at hproper; cases hproper

/-- An exact literal is scaled to the double that is nearest to it, and that is finite. -/
theorem Exact.scaled_eq {l : Literal} (h : l.Exact) :
    l.scaled = some l.nearest ∧ l.nearest.isFinite = true := by
  have hcollect : l.collect = (l.significand, l.scaleExponent, true) :=
    collect_of_lt (h.significand.trans (by decide))
  rw [scaled, hcollect, nearest_eq]
  rcases h.scaleExponent with hzero | hsmall
  · have hfloat : (UInt64.ofNat 0).toFloat = 0.0 := by decide +kernel
    rw [hzero, nearestTo_zero]
    simp only [hfloat, scale_zero]
    exact ⟨rfl, isFinite_signed _ rfl⟩
  · obtain ⟨hscale, hfinite⟩ := exists_nearestTo_of_small h.significand hsmall
    simp only [hscale]
    exact ⟨rfl, isFinite_signed _ hfinite⟩

end Placement.Decimal.Literal
