import Mathlib
import Placement.Proofs.Double.Squares

/-!
# Amounts and infinity

Squares of finite doubles and their sums have no minus sign, but they may be too large for a double.
They are amounts or infinity then. Once a sum is infinite it stays so; where it is an amount, every
square in it has been one, and the sum is no less than any of them. So the root of such a sum is
about as large as the numbers that are squared, whatever is lost by rounding on the way.
-/
namespace Placement.Double
open Float.Model (UnpackedFloat)
open Float.Model.UnpackedFloat

inductive Unsigned (x : Float) : Prop
  | amount : Amount x → Unsigned x
  | infinity : x.toModel.unpack = .infinity .positive → Unsigned x

variable {s x y : Float} {xs : List Float}

theorem unpack_pack_infinity :
    (Float.Model.pack (.infinity .positive)).unpack = .infinity .positive := rfl

theorem not_amount_of_infinity (h : x.toModel.unpack = .infinity .positive) : ¬ Amount x := by
  intro hx
  have hproper := proper_unpack hx.finite
  rw [h] at hproper
  exact hproper

theorem infinity_ne_zero (h : x.toModel.unpack = .infinity .positive) : (x == 0.0) = false := by
  change (x.toModel.unpack.compare (.zero .positive) == some .eq) = false
  rw [h]
  rfl

theorem Unsigned.nonneg (h : Unsigned x) : 0 ≤ value x := by
  cases h with
  | amount h => exact h.nonneg
  | infinity h => exact (value_infinity h).ge

theorem Unsigned.add_infinity (hx : Unsigned x) (hy : y.toModel.unpack = .infinity .positive) :
    (x + y).toModel.unpack = .infinity .positive := by
  change (Float.Model.pack (UnpackedFloat.add .binary64 x.toModel.unpack y.toModel.unpack)).unpack
    = _
  rw [hy]
  cases hx with
  | amount hx =>
    have hproper := proper_unpack hx.finite
    cases hu : x.toModel.unpack with
    | zero s => exact unpack_pack_infinity
    | finite s m e hm => exact unpack_pack_infinity
    | _ => rw [hu] at hproper; cases hproper
  | infinity hx =>
    rw [hx]
    exact unpack_pack_infinity

theorem Unsigned.add (hx : Unsigned x) (hy : Unsigned y) : Unsigned (x + y) := by
  cases hy with
  | infinity hy => exact .infinity (hx.add_infinity hy)
  | amount hy =>
    cases hx with
    | infinity hx => exact .infinity (hy.infinity_add hx)
    | amount hx =>
      rcases hx.add_or_infinity hy with ⟨hsum, -⟩ | hinfinity
      · exact .amount hsum
      · exact .infinity hinfinity

/-- A sum that is not too large is one of amounts, and no less than either. -/
theorem Unsigned.of_add (hx : Unsigned x) (hy : Unsigned y) (h : Amount (x + y)) :
    Amount x ∧ Amount y ∧ value x ≤ value (x + y) ∧ value y ≤ value (x + y) := by
  cases hy with
  | infinity hy => exact absurd h (not_amount_of_infinity (hx.add_infinity hy))
  | amount hy =>
    cases hx with
    | infinity hx => exact absurd h (not_amount_of_infinity (hy.infinity_add hx))
    | amount hx =>
      rcases hx.add_or_infinity hy with ⟨-, hle⟩ | hinfinity
      · exact ⟨hx, hy, hle⟩
      · exact absurd h (not_amount_of_infinity hinfinity)

theorem unsigned_mul_self (hx : x.isFinite = true) :
    Unsigned (x * x) ∧ (Amount (x * x) → value (x * x) = rounded (value x * value x)) := by
  by_cases hlt : rounded (value x * value x) < 2 ^ 1024
  · obtain ⟨hsquare, hvalue⟩ := amount_mul_self hx hlt
    exact ⟨.amount hsquare, fun _ => hvalue⟩
  · have happrox := approximates_mul (proper_unpack hx) (proper_unpack hx)
    have hinfinity := happrox.large (not_lt.mp hlt)
    exact ⟨.infinity hinfinity, fun h => absurd h (not_amount_of_infinity hinfinity)⟩

theorem Amount.below (h : Amount x) : Below 1024 x :=
  ⟨h, ((le_abs_self _).trans_lt (abs_toReal_lt (proper_unpack h.finite))).le⟩

theorem unpack_sqrt_infinity (h : x.toModel.unpack = .infinity .positive) :
    x.sqrt.toModel.unpack = .infinity .positive := by
  change (Float.Model.pack (UnpackedFloat.sqrt .binary64 x.toModel.unpack)).unpack = _
  rw [h]
  exact unpack_pack_infinity

theorem Unsigned.sqrt (h : Unsigned x) : Unsigned x.sqrt := by
  cases h with
  | amount h => exact .amount (Below.sqrt (k := 512) h.below (by norm_num)).1.amount
  | infinity h => exact .infinity (unpack_sqrt_infinity h)

theorem unsigned_addSquares (hs : Unsigned s) (h : ∀ x ∈ xs, x.isFinite = true) :
    Unsigned (addSquares s xs) := by
  induction xs generalizing s with
  | nil => exact hs
  | cons x xs ih =>
    obtain ⟨hx, hxs⟩ := List.forall_mem_cons.mp h
    exact ih (hs.add (unsigned_mul_self hx).1) hxs

/-- A sum of squares that is not too large is no less than each of them. -/
theorem le_addSquares (hs : Unsigned s) (h : ∀ x ∈ xs, x.isFinite = true)
    (hsum : Amount (addSquares s xs)) :
    Amount s ∧ value s ≤ value (addSquares s xs) ∧
      ∀ x ∈ xs, rounded (value x * value x) ≤ value (addSquares s xs) := by
  induction xs generalizing s with
  | nil => exact ⟨hsum, le_rfl, fun x hx => nomatch hx⟩
  | cons x xs ih =>
    obtain ⟨hx, hxs⟩ := List.forall_mem_cons.mp h
    obtain ⟨hsquare, hvalue⟩ := unsigned_mul_self hx
    obtain ⟨hadded, hfrom, hall⟩ := ih (hs.add hsquare) hxs hsum
    obtain ⟨hstart, hamount, hle, hle'⟩ := hs.of_add hsquare hadded
    refine ⟨hstart, hle.trans hfrom, List.forall_mem_cons.mpr ⟨?_, hall⟩⟩
    rw [← hvalue hamount]
    exact hle'.trans hfrom

end Placement.Double
