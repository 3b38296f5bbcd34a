import Mathlib
import Placement.Proofs.Double.Conversion

/-!
# The values of requests

A request for processing units lies between zero and the largest 32-bit number. It is an amount
unless it is negative zero, and every amount that is not larger is a request that a footprint may
carry.
-/
namespace Placement.Footprint
open Double

theorem value_maxCpu : value maxCpu = 4294967295 := by
  have hunpack : maxCpu.toModel.unpack = .finite .positive 9007199252643840 (-21) (by decide) := rfl
  rw [value, hunpack]
  norm_num [toReal, signed]

theorem amount_maxCpu : Amount maxCpu := ⟨rfl, rfl⟩

variable {x : Float}

theorem Admissible.value_mem (h : Admissible x) : 0 ≤ value x ∧ value x ≤ 4294967295 := by
  obtain ⟨hfinite, hnonneg, hbounded⟩ := h
  rw [lt_iff_value hfinite amount_zero.finite, value_zero, not_lt] at hnonneg
  rw [lt_iff_value amount_maxCpu.finite hfinite, value_maxCpu, not_lt] at hbounded
  exact ⟨hnonneg, hbounded⟩

/-- A request may be negative zero, which is no amount. -/
theorem Admissible.eq_neg_zero_or_amount (h : Admissible x) : x = -0.0 ∨ Amount x := by
  have hproper := proper_unpack h.finite
  have hnonneg := h.value_mem.1
  unfold value at hnonneg
  cases hx : x.toModel.unpack with
  | finite s m e hm =>
    rw [hx] at hnonneg
    exact Or.inr ⟨h.finite, by rw [hx]; exact signOf_of_nonneg hnonneg⟩
  | zero s =>
    cases s with
    | positive => exact Or.inr ⟨h.finite, by rw [hx]; rfl⟩
    | negative =>
      have hzero : (-0.0 : Float).toModel.unpack = .zero .negative := rfl
      refine Or.inl (eq_of_value_eq h.finite rfl (by rw [hx, hzero]) ?_)
      rw [value, value, hx, hzero]
  | _ =>
    rw [hx] at hproper
    cases hproper

theorem admissible_of_amount (hx : Amount x) (hle : value x ≤ 4294967295) : Admissible x := by
  refine ⟨hx.finite, ?_, ?_⟩
  · rw [lt_iff_value hx.finite amount_zero.finite, value_zero, not_lt]
    exact hx.nonneg
  · rw [lt_iff_value amount_maxCpu.finite hx.finite, value_maxCpu, not_lt]
    exact hle

end Placement.Footprint
