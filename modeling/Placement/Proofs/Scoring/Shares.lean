import Mathlib
import Placement.Proofs.Double.Sums
import Placement.Proofs.Scoring.Weights

/-!
# Shares of the total weight

Accepted criteria hold their weights as shares of the sum of all. Each addition is rounded and each
quotient is rounded once more, so shares add up to one only nearly; what is missing grows with the
number of criteria and no faster. They are not all zero, because a sum is not much larger than the
largest weight, however many weights there are. All of this asks for a sum that is finite. Finite
weights may have one that is too large for a double, and nothing is left of any of them then.
-/
namespace Placement.Topsis
open Double

section
variable {xs : List Float} (amounts : ∀ x ∈ xs, Amount x)
  (finite : (xs.foldl (· + ·) 0.0).isFinite = true)
  (weighty : (xs.foldl (· + ·) 0.0 == 0.0) = false)
include amounts finite weighty

theorem total_pos : 0 < value (xs.foldl (· + ·) 0.0) := by
  have htotal := (le_foldl_add amount_zero amounts finite).1
  refine htotal.nonneg.lt_of_ne' fun hzero => Bool.eq_false_iff.mp weighty ?_
  exact (beq_iff_value htotal.finite amount_zero.finite).mpr (hzero.trans value_zero.symm)

theorem quotient_spec {x : Float} (hx : x ∈ xs) :
    Below 0 (x / xs.foldl (· + ·) 0.0) ∧
      value (x / xs.foldl (· + ·) 0.0) = rounded (value x / value (xs.foldl (· + ·) 0.0)) := by
  obtain ⟨htotal, hle⟩ := le_foldl_add amount_zero amounts finite
  exact (amounts x hx).div_total weighty (.inl ⟨htotal, hle x (List.mem_cons_of_mem _ hx)⟩)

/-- Parts of a sum that are not rounded add up to one but for what the sum itself has lost. -/
theorem abs_sum_quotients_sub_one_le :
    |(xs.map fun x => value x / value (xs.foldl (· + ·) 0.0)).sum - 1| ≤
      xs.length * 2 ^ (-53 : ℤ) := by
  have hpos := total_pos amounts finite weighty
  have herror := abs_foldl_add_sub_le amount_zero amounts finite
  rw [value_zero, zero_add, abs_sub_comm, ← mul_assoc] at herror
  have hsum : (xs.map fun x => value x / value (xs.foldl (· + ·) 0.0)).sum =
      (xs.map value).sum / value (xs.foldl (· + ·) 0.0) := by
    rw [div_eq_mul_inv, ← List.sum_map_mul_right]
    rfl
  rwa [hsum, div_sub_one hpos.ne', abs_div, abs_of_pos hpos, div_le_iff₀ hpos]

theorem one_le_length : (1 : ℝ) ≤ xs.length := by
  have hpos := total_pos amounts finite weighty
  cases xs with
  | nil => exact absurd hpos (by simp [value_zero])
  | cons x xs => simp

theorem abs_sum_shares_sub_one_le :
    |(xs.map fun x => value (x / xs.foldl (· + ·) 0.0)).sum - 1| ≤ xs.length * 2 ^ (-50 : ℤ) := by
  have hlength := one_le_length amounts finite weighty
  have hsum := abs_sum_quotients_sub_one_le amounts finite weighty
  have hnonneg : ∀ q ∈ xs.map fun x => value x / value (xs.foldl (· + ·) 0.0), 0 ≤ q := by
    intro q hq
    obtain ⟨x, hx, rfl⟩ := List.mem_map.mp hq
    exact div_nonneg (amounts x hx).nonneg (total_pos amounts finite weighty).le
  have hround := abs_sum_rounded_sub_le hnonneg
  rw [List.length_map, List.map_map] at hround
  have hmap : (xs.map fun x => value (x / xs.foldl (· + ·) 0.0)) =
      xs.map (rounded ∘ fun x => value x / value (xs.foldl (· + ·) 0.0)) :=
    List.map_congr_left fun x hx => (quotient_spec amounts finite weighty hx).2
  rw [← hmap] at hround
  have hcount : (xs.length : ℝ) * 2 ^ (-1075 : ℤ) ≤ xs.length * 2 ^ (-53 : ℤ) := by
    have htiny : (2 : ℝ) ^ (-1075 : ℤ) ≤ 2 ^ (-53 : ℤ) :=
      zpow_le_zpow_right₀ one_le_two (by norm_num)
    gcongr
  have hlarge := (abs_le.mp hsum).2
  have herror := hround.trans (add_le_add_right hcount _)
  refine (abs_sub_le _ _ _).trans ((add_le_add herror hsum).trans ?_)
  norm_num at hlarge ⊢
  linarith

/-- The largest of the amounts has a share however many there are. -/
theorem exists_share_pos : ∃ x ∈ xs, 0 < value (x / xs.foldl (· + ·) 0.0) := by
  have hpos := total_pos amounts finite weighty
  have hlength : 0 < xs.length := by
    exact_mod_cast zero_lt_one.trans_le (one_le_length amounts finite weighty)
  obtain ⟨x, hx, hmax⟩ := Set.exists_max_image {x | x ∈ xs} value xs.finite_toSet
    (List.exists_mem_of_length_pos hlength)
  have hbound := foldl_add_le (representable_value (amounts x hx).finite) (amounts x hx).nonneg
    amount_zero amounts finite hmax (by rw [value_zero]; positivity [(amounts x hx).nonneg])
  have hshare : (2 : ℝ) ^ (-54 : ℤ) ≤ value x / value (xs.foldl (· + ·) 0.0) := by
    rw [le_div_iff₀ hpos]
    norm_num at hbound ⊢
    linarith
  refine ⟨x, hx, ?_⟩
  rw [(quotient_spec amounts finite weighty hx).2]
  exact lt_of_lt_of_le (by positivity) (le_rounded (representable_two_zpow (by norm_num)) hshare)

end

namespace Criteria
variable {n : ℕ} {signed : Vector (String × Float) n} {c : Criteria n}

/-- Criteria of signed weights, before they are divided by their sum. -/
def stated (signed : Vector (String × Float) n) : Vector Criterion n :=
  signed.map fun (name, weight) => .ofSigned name weight

def weights (c : Criteria n) : List Float := c.toVector.toList.map Criterion.weight

theorem weights_scaled (given : Vector Criterion n) :
    (scaled given).weights =
      (given.toList.map Criterion.weight).map (· / totalWeight given) := by
  rw [weights, scaled, Vector.toList_map, List.map_map, List.map_map]
  rfl

theorem length_weights (given : Vector Criterion n) :
    (given.toList.map Criterion.weight).length = n := by
  rw [List.length_map, Vector.length_toList]

theorem get_weight_stated (signed : Vector (String × Float) n) (i : Fin n) :
    ((stated signed).get i).weight = (signed.get i).2.abs := by
  simp [stated, Criterion.ofSigned, Vector.get_eq_getElem]

theorem amount_get_stated (h : ∀ x ∈ (stated signed).toList, x.weight.isFinite = true)
    (i : Fin n) : Amount ((stated signed).get i).weight := by
  have hfinite := h _ (get_mem_toList _ i)
  rw [get_weight_stated] at hfinite ⊢
  exact amount_abs hfinite

/-- What is left of weights: shares that are not all zero and add up to nearly one, or nothing if
the sum of the weights is not finite. -/
structure Shares (c : Criteria n) (total : Float) : Prop where
  bounded : ∀ x ∈ c.weights, x.isFinite = true ∧ 0.0 ≤ x ∧ x ≤ 1.0
  complete : total.isFinite = true →
    |(c.weights.map value).sum - 1| ≤ n * 2 ^ (-50 : ℤ) ∧ ∃ x ∈ c.weights, 0.0 < x
  vanishing : total.isFinite = false → ∀ x ∈ c.weights, x = 0.0

theorem Shares.exists_pos_iff {total : Float} (shares : c.Shares total) :
    (∃ x ∈ c.weights, 0.0 < x) ↔ total.isFinite = true := by
  refine ⟨fun ⟨x, hx, hpos⟩ => ?_, fun hfinite => (shares.complete hfinite).2⟩
  by_contra hinfinite
  rw [shares.vanishing (Bool.eq_false_iff.mpr hinfinite) x hx] at hpos
  exact absurd hpos (by decide +kernel)

theorem shares_of_ofVector (h : ofVector (stated signed) = .ok c) :
    c.Shares (totalWeight (stated signed)) := by
  obtain ⟨hfinite, hne, rfl⟩ := ofVector_eq_ok_iff.mp h
  have hget := amount_get_stated hfinite
  have hamounts := amount_of_mem_weights hget
  constructor
  case bounded =>
    intro x hx
    obtain ⟨c, hc, rfl⟩ := List.mem_map.mp hx
    obtain ⟨i, rfl⟩ := exists_get_of_mem hc
    obtain ⟨hamount, hle⟩ := (scaled_spec hget hne i).1
    rw [le_iff_value amount_zero.finite hamount.finite,
      le_iff_value hamount.finite amount_one.finite, value_zero, value_one]
    exact ⟨hamount.finite, hamount.nonneg, hle.trans_eq (pow_zero 2)⟩
  case complete =>
    intro htotal
    have hsum := abs_sum_shares_sub_one_le hamounts htotal hne
    obtain ⟨x, hx, hpos⟩ := exists_share_pos hamounts htotal hne
    have hshare := (quotient_spec hamounts htotal hne hx).1.amount
    rw [length_weights] at hsum
    rw [weights_scaled, List.map_map]
    refine ⟨hsum, _, List.mem_map_of_mem hx, (lt_iff_value amount_zero.finite hshare.finite).mpr ?_⟩
    rw [value_zero]
    exact hpos
  case vanishing =>
    intro htotal x hx
    rw [weights_scaled] at hx
    obtain ⟨y, hy, rfl⟩ := List.mem_map.mp hx
    rcases foldl_add_or_infinity hamounts amount_zero with ⟨hamount, -⟩ | hinfinity
    · exact absurd hamount.finite (Bool.eq_false_iff.mp htotal)
    · obtain ⟨hamount, hvalue⟩ := (hamounts y hy).div_infinity hinfinity
      exact hamount.ext amount_zero (hvalue.trans value_zero.symm)

/-- Weights of a domain are signed weights with their signs turned. -/
theorem stated_named (w : Weights) :
    stated (w.named.map fun (name, weight) => (name, -weight)) = w.signed := by
  rw [stated, Vector.map_map]
  rfl

theorem shares_of_ofWeights {w : Weights} {e : Engine} (h : Engine.ofWeights w = .ok e) :
    e.criteria.Shares (totalWeight w.signed) := by
  obtain ⟨accepted, rfl⟩ := Engine.ofWeights_eq_ok_iff.mp h
  rw [← stated_named]
  apply shares_of_ofVector
  rw [stated_named]
  exact ofVector_eq_ok_iff.mpr ⟨accepted.finite, accepted.weighty, rfl⟩

/-- Weights of accepted criteria are shares of their sum, for any number of criteria, and so are the
weights of the four that nodes are judged by. So one of them counts exactly if that sum is
finite. -/
theorem accepted_weights_are_shares {n : ℕ} {signed : Vector (String × Float) n} {c : Criteria n}
    (h : ofVector (stated signed) = .ok c) :
    c.Shares (totalWeight (stated signed)) ∧
      ((∃ x ∈ c.weights, 0.0 < x) ↔ (totalWeight (stated signed)).isFinite = true) ∧
      ∀ (w : Weights) (e : Engine), Engine.ofWeights w = .ok e →
        e.criteria.Shares (totalWeight w.signed) ∧
          ((∃ x ∈ e.criteria.weights, 0.0 < x) ↔ (totalWeight w.signed).isFinite = true) := by
  have shares := shares_of_ofVector h
  refine ⟨shares, shares.exists_pos_iff, fun w e hw => ?_⟩
  have shares' := shares_of_ofWeights hw
  exact ⟨shares', shares'.exists_pos_iff⟩

/-- Three criteria of very different weight, and the weights of a domain by default. -/
theorem accepted_weights_are_shares_of_three :
    (∃ c, ofVector (stated #v[("speed", 1e-300), ("price", -3.0), ("size", 1e300)]) = .ok c ∧
        |(c.weights.map value).sum - 1| ≤ (3 : ℕ) * 2 ^ (-50 : ℤ) ∧ ∃ x ∈ c.weights, 0.0 < x) ∧
      Engine.ofWeights {} = .ok .standard ∧ ∃ x ∈ Engine.standard.criteria.weights, 0.0 < x := by
  have accepted : ofVector (stated #v[("speed", 1e-300), ("price", -3.0), ("size", 1e300)]) =
      .ok (scaled (stated #v[("speed", 1e-300), ("price", -3.0), ("size", 1e300)])) :=
    ofVector_eq_ok_iff.mpr ⟨by decide +kernel, by decide +kernel, rfl⟩
  obtain ⟨shares, -, law⟩ := accepted_weights_are_shares accepted
  refine ⟨⟨_, accepted, shares.complete (by decide +kernel)⟩, Engine.ofWeights_standard, ?_⟩
  exact (law _ _ Engine.ofWeights_standard).2.mpr (by decide +kernel)

/-- Weights do not always add up to one, and all may vanish: each of two weights is finite, and
their sum is not. -/
theorem weights_may_vanish :
    ¬ ∀ (n : ℕ) (signed : Vector (String × Float) n) (c : Criteria n),
      ofVector (stated signed) = .ok c →
        (∀ x ∈ c.weights, x.isFinite = true ∧ 0.0 ≤ x ∧ x ≤ 1.0) ∧
          |(c.weights.map value).sum - 1| ≤ n * 2 ^ (-50 : ℤ) ∧ ∃ x ∈ c.weights, 0.0 < x := by
  intro h
  have accepted : ofVector (stated #v[("a", 1.7e308), ("b", -1.7e308)]) =
      .ok (scaled (stated #v[("a", 1.7e308), ("b", -1.7e308)])) :=
    ofVector_eq_ok_iff.mpr ⟨by decide +kernel, by decide +kernel, rfl⟩
  have vanished : ∀ x ∈ (scaled (stated #v[("a", 1.7e308), ("b", -1.7e308)])).weights,
      ¬ (0.0 : Float) < x := by decide +kernel
  obtain ⟨-, -, x, hx, hpos⟩ := h 2 _ _ accepted
  exact vanished x hx hpos

end Criteria

end Placement.Topsis
