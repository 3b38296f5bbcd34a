import Mathlib
import Placement.Footprint

/-!
# Comparing doubles

The comparisons of doubles are read off one three-way comparison that has no answer when a side is
no number. Turning the sides around turns the answer around, so of two numbers that are not in the
one order the other order holds. How arithmetic rounds is not treated here.
-/
namespace Placement.Double
open Float.Model Float.Model.UnpackedFloat

theorem compare_swap (a b : UnpackedFloat) :
    b.compare a = (a.compare b).map Ordering.swap := by
  cases a with
  | notANumber => cases b <;> rfl
  | infinity s =>
    cases s <;> cases b with
    | infinity t => cases t <;> rfl
    | _ => rfl
  | zero s =>
    cases b with
    | infinity t => cases t <;> rfl
    | finite t => cases t <;> rfl
    | _ => rfl
  | finite s m e hm =>
    cases b with
    | notANumber => cases s <;> rfl
    | infinity t => cases s <;> cases t <;> rfl
    | zero t => cases s <;> rfl
    | finite t n d hn =>
      have he : compare d e = (compare e d).swap := (Int.compare_swap e d).symm
      have hm : compare n m = (compare m n).swap := (Nat.compare_swap m n).symm
      cases s <;> cases t
      · simp only [UnpackedFloat.compare, Option.map_some, Ordering.swap_then, he, hm]
      · rfl
      · rfl
      · simp only [UnpackedFloat.compare, Option.map_some, Ordering.swap_then, he, hm]

theorem compare_eq_none {a b : UnpackedFloat} (h : a.compare b = none) :
    a.isNaN = true ∨ b.isNaN = true := by
  cases a with
  | notANumber => exact Or.inl rfl
  | infinity s =>
    cases s <;> cases b with
    | notANumber => exact Or.inr rfl
    | infinity t => cases t <;> cases h
    | _ => cases h
  | zero s =>
    cases b with
    | notANumber => exact Or.inr rfl
    | infinity t => cases t <;> cases h
    | zero t => cases h
    | finite t => cases t <;> cases h
  | finite s =>
    cases b with
    | notANumber => exact Or.inr rfl
    | infinity t => cases s <;> cases t <;> cases h
    | zero t => cases s <;> cases h
    | finite t => cases s <;> cases t <;> cases h

theorem lt_iff {x y : Float} :
    x < y ↔ x.toModel.unpack.compare y.toModel.unpack = some .lt := by
  show decide (x.toModel.unpack.lt y.toModel.unpack = true) = true ↔ _
  rw [decide_eq_true_eq, UnpackedFloat.lt, beq_iff_eq]

theorem le_iff {x y : Float} :
    x ≤ y ↔ (x.toModel.unpack.compare y.toModel.unpack).any (·.isLE) = true := by
  show decide (x.toModel.unpack.le y.toModel.unpack = true) = true ↔ _
  rw [decide_eq_true_eq, UnpackedFloat.le]

/-- Numbers are totally ordered. -/
theorem le_of_not_lt {x y : Float} (hx : x.isNaN = false) (hy : y.isNaN = false)
    (h : ¬ x < y) : y ≤ x := by
  rw [lt_iff] at h
  rw [le_iff, compare_swap x.toModel.unpack]
  match hc : x.toModel.unpack.compare y.toModel.unpack with
  | some .lt => exact absurd hc h
  | some .eq => rfl
  | some .gt => rfl
  | none =>
    rcases compare_eq_none hc with hn | hn
    · exact absurd (hn.symm.trans hx) (by decide)
    · exact absurd (hn.symm.trans hy) (by decide)

theorem isNaN_of_isFinite {x : Float} (h : x.isFinite = true) : x.isNaN = false := by
  change x.toModel.unpack.isFinite = true at h
  change x.toModel.unpack.isNaN = false
  cases hx : x.toModel.unpack with
  | notANumber => rw [hx] at h; cases h
  | _ => rfl

end Placement.Double

namespace Placement.Footprint

/-- What footprints ask for lies between zero and the largest capacity of a node. -/
theorem Admissible.mem_range {cpu : Float} (h : Admissible cpu) :
    cpu.isFinite = true ∧ 0.0 ≤ cpu ∧ cpu ≤ maxCpu := by
  have hcpu := Double.isNaN_of_isFinite h.finite
  have hzero : (0.0 : Float).isNaN = false := by decide +kernel
  have hmax : maxCpu.isNaN = false := by decide +kernel
  exact ⟨h.finite, Double.le_of_not_lt hcpu hzero h.nonneg,
    Double.le_of_not_lt hmax hcpu h.bounded⟩

end Placement.Footprint
