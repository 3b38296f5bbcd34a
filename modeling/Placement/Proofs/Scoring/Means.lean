import Mathlib
import Placement.Proofs.Double.Squares
import Placement.Proofs.Scoring.Magnitude

/-!
# Criteria values in order

A peak is the greatest of the fractions, so it is in order when each fraction is; where in the list
they stand does not matter. A quadratic mean is in order when the rounded sum of squares is, which
depends on the places. Comparing the two resources with each other is left to scores.
-/
namespace Placement.Breakdown
open Double

variable {k : ℕ} {xs ys : List Float}

theorem peak_spec (h : ∀ x ∈ xs, Below k x) :
    peak xs ∈ 0.0 :: xs ∧ ∀ x ∈ 0.0 :: xs, value x ≤ value (peak xs) := by
  have hall : ∀ x ∈ 0.0 :: xs, Below k x := List.forall_mem_cons.mpr ⟨below_zero k, h⟩
  have hreverse : ∀ x ∈ 0.0 :: xs, ∀ y ∈ 0.0 :: xs, y < x ↔ -value x < -value y :=
    fun x hx y hy => (lt_iff_value (hall y hy).amount.finite
      (hall x hx).amount.finite).trans neg_lt_neg_iff.symm
  obtain ⟨hmem, hle⟩ := Topsis.foldl_extreme (fun x y => y < x) (fun x => -value x) hreverse
  exact ⟨hmem, fun x hx => neg_le_neg_iff.mp (hle x hx)⟩

theorem peak_mono (hx : ∀ x ∈ xs, Below k x) (hy : ∀ y ∈ ys, Below k y)
    (h : ∀ x ∈ xs, ∃ y ∈ ys, value x ≤ value y) : value (peak xs) ≤ value (peak ys) := by
  obtain ⟨-, hall⟩ := peak_spec hy
  rcases List.mem_cons.mp (peak_spec hx).1 with hzero | hmem
  · rw [hzero]
    exact hall 0.0 List.mem_cons_self
  · obtain ⟨y, hy, hle⟩ := h _ hmem
    exact hle.trans (hall y (List.mem_cons_of_mem _ hy))

theorem quadraticMean_mono (hk : k + k + 54 < 1023) (hne : xs ≠ [])
    (length : xs.length = ys.length) (hx : ∀ x ∈ xs, Below k x) (hy : ∀ y ∈ ys, Below k y)
    (h : value (addSquares 0.0 xs) ≤ value (addSquares 0.0 ys)) :
    value (quadraticMean xs) ≤ value (quadraticMean ys) := by
  have hsum : ∀ {zs : List Float}, (∀ z ∈ zs, Below k z) →
      Below ((k + 27) + (k + 27)) (addSquares 0.0 zs) := fun hz => by
    have hbelow := (Topsis.below_sum_squares hk fun z hz' => (hz z hz').within).1
    have hsplit : k + k + 54 = (k + 27) + (k + 27) := by omega
    rwa [hsplit] at hbelow
  have hpos : 0 < xs.length := List.length_pos_iff.mpr hne
  have hmean := (hsum hx).div_ofNat hpos (by omega)
  have hmean' := (hsum hy).div_ofNat (length ▸ hpos) (by omega)
  have hle := (hsum hx).div_ofNat_mono (hsum hy) hpos (by omega) h
  change value (addSquares 0.0 xs / Float.ofNat xs.length).sqrt ≤
    value (addSquares 0.0 ys / Float.ofNat ys.length).sqrt
  rw [(hmean.sqrt (by omega)).2, (hmean'.sqrt (by omega)).2, ← length]
  exact rounded_mono (Real.sqrt_le_sqrt hle)

theorem one_add_mono {x y : Float} (hx : Below k x) (hy : Below k y) (hk : k + 1 < 1024)
    (h : value x ≤ value y) : 1.0 + x ≤ 1.0 + y := by
  have hone : Below k 1.0 := below_one.mono (Nat.zero_le k)
  obtain ⟨hsum, hvalue⟩ := hone.add hx hk
  obtain ⟨hsum', hvalue'⟩ := hone.add hy hk
  rw [le_iff_value hsum.amount.finite hsum'.amount.finite, hvalue, hvalue']
  exact rounded_mono (by linarith)

end Placement.Breakdown
