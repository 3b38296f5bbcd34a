import Mathlib
import Placement.Proofs.Double.Value

/-!
# The numbers that round to a double

The real numbers that round to a positive double lie within half a step of it. The step below a
power of two is half as wide as the one above, unless the power is the least one with all bits. A
number half way between two doubles rounds to the one with the even significand.
-/
namespace Placement.Double

/-- A number at most half way to the next whole one rounds to it, to an even one from half way. -/
theorem nearest_of_near {x : ℝ} {n : ℤ} (h : |x - n| ≤ 1 / 2)
    (tie : |x - n| = 1 / 2 → n % 2 = 0) : nearest x = n := by
  obtain ⟨hlo, hhi⟩ := abs_le.mp h
  rcases le_or_gt (n : ℝ) x with hge | hlt
  · have hfloor : ⌊x⌋ = n := Int.floor_eq_iff.mpr ⟨hge, by linarith⟩
    have hfract : Int.fract x = x - n := by rw [Int.fract, hfloor]
    have habs : |x - n| = x - n := abs_of_nonneg (by linarith)
    rcases hhi.lt_or_eq with hlt | heq
    · rw [nearest_of_lt (by rwa [hfract]), hfloor]
    · have heven := tie (habs.trans heq)
      rw [nearest_of_eq (hfract.trans heq), hfloor]
      omega
  · have hfloor : ⌊x⌋ = n - 1 :=
      Int.floor_eq_iff.mpr ⟨by push_cast; linarith, by push_cast; linarith⟩
    have hfract : Int.fract x = x - n + 1 := by
      rw [Int.fract, hfloor]
      push_cast
      ring
    have habs : |x - n| = n - x := by
      rw [abs_of_neg (by linarith)]
      ring
    rcases hlo.lt_or_eq with hlt | heq
    · rw [nearest_of_gt (by linarith), hfloor]
      omega
    · have heven := tie (by linarith)
      rw [nearest_of_eq (by linarith), hfloor]
      omega

/-- A power of two whose next smaller double is half a step away. -/
def IsBoundary (m : ℕ) (q : ℤ) : Prop := m = 2 ^ 52 ∧ -1074 < q

instance (m : ℕ) (q : ℤ) : Decidable (IsBoundary m q) := inferInstanceAs (Decidable (_ ∧ _))

/-- Half the step below a significand, in quarters of the step above. -/
def quarters (m : ℕ) (q : ℤ) : ℕ := if IsBoundary m q then 1 else 2

/-- The numbers that round to `m · 2 ^ q`. -/
structure Near (m : ℕ) (q : ℤ) (y : ℝ) : Prop where
  low : (m - quarters m q / 4) * 2 ^ q ≤ y
  high : y ≤ (m + 1 / 2) * 2 ^ q
  low_odd : m % 2 = 1 → (m - quarters m q / 4) * 2 ^ q < y
  high_odd : m % 2 = 1 → y < (m + 1 / 2) * 2 ^ q

variable {m : ℕ} {q e : ℤ} {y : ℝ}

theorem near_of_lt (low : (m - quarters m q / 4) * 2 ^ q < y) (high : y < (m + 1 / 2) * 2 ^ q) :
    Near m q y :=
  ⟨low.le, high.le, fun _ => low, fun _ => high⟩

theorem quarters_pos (m : ℕ) (q : ℤ) : 0 < quarters m q := by
  unfold quarters
  split <;> norm_num

theorem quarters_le (m : ℕ) (q : ℤ) : (quarters m q / 4 : ℝ) ≤ 1 / 2 := by
  unfold quarters
  split <;> norm_num

theorem exponent_eq (hy : 0 < y) (least : -1074 ≤ e) (below : y < 2 ^ (e + 53))
    (full : 2 ^ (e + 52) ≤ y ∨ e = -1074) : exponent y = e := by
  refine le_antisymm (exponent_le_of_lt_two_zpow hy.ne' least ?_) ?_
  · rwa [abs_of_pos hy]
  · rcases full with h | rfl
    · exact le_exponent_of_two_zpow_le (by rwa [abs_of_pos hy])
    · exact le_exponent y

/-- A number near `n · 2 ^ e` whose exponent is known. -/
theorem rounded_of_exponent {n : ℤ} (he : exponent y = e) (h : |y / 2 ^ e - n| ≤ 1 / 2)
    (tie : |y / 2 ^ e - n| = 1 / 2 → n % 2 = 0) : rounded y = n * 2 ^ e := by
  rw [rounded, he, nearest_of_near h tie]

section
variable (h : Near m q y) (hm : 0 < m) (canonical : Canonical m q)
include h hm

theorem Near.pos : 0 < y := by
  have hone : (1 : ℝ) ≤ m := by exact_mod_cast hm
  have hstep := quarters_le m q
  have hlow : 0 < ((m : ℝ) - quarters m q / 4) * 2 ^ q := mul_pos (by linarith) (by positivity)
  exact hlow.trans_le h.low

include canonical

theorem Near.exponent_eq (above : IsBoundary m q → (m : ℝ) * 2 ^ q ≤ y) : exponent y = q := by
  have hunit : (0 : ℝ) < 2 ^ q := by positivity
  have hsplit (k : ℤ) : (2 : ℝ) ^ (q + k) = 2 ^ k * 2 ^ q := by
    rw [add_comm, zpow_add₀ two_ne_zero]
  refine Double.exponent_eq (h.pos hm) canonical.least (h.high.trans_lt ?_) ?_
  · have hbelow : (m : ℝ) + 1 ≤ 2 ^ 53 := by exact_mod_cast canonical.below
    rw [hsplit]
    exact mul_lt_mul_of_pos_right (by norm_num at hbelow ⊢; linarith) hunit
  · by_cases hleast : q = -1074
    · exact .inr hleast
    left
    have hfull := canonical.full.resolve_right hleast
    have hleast' : -1074 < q := lt_of_le_of_ne canonical.least (Ne.symm hleast)
    rw [hsplit]
    by_cases hboundary : IsBoundary m q
    · refine le_trans (mul_le_mul_of_nonneg_right ?_ hunit.le) (above hboundary)
      exact_mod_cast hfull
    · -- the significand is larger than the least full one, so half a step less is full as well
      have hmore : 2 ^ 52 + 1 ≤ m := by
        have hne : m ≠ 2 ^ 52 := fun he => hboundary ⟨he, hleast'⟩
        omega
      have hreal : (2 : ℝ) ^ (52 : ℤ) + 1 ≤ m := by exact_mod_cast hmore
      have hstep := quarters_le m q
      refine le_trans (mul_le_mul_of_nonneg_right ?_ hunit.le) h.low
      linarith

theorem Near.exponent_eq_of_lt (boundary : IsBoundary m q) (less : y < m * 2 ^ q) :
    exponent y = q - 1 := by
  obtain ⟨rfl, hleast⟩ := boundary
  have hunit : (0 : ℝ) < 2 ^ (q - 1) := by positivity
  have hdouble : (2 : ℝ) ^ q = 2 * 2 ^ (q - 1) := by
    rw [← zpow_one_add₀ two_ne_zero]
    congr 1
    omega
  have hsplit (k : ℤ) : (2 : ℝ) ^ (q - 1 + k) = 2 ^ k * 2 ^ (q - 1) := by
    rw [add_comm, zpow_add₀ two_ne_zero]
  have hlow := h.low
  have hstep := quarters_le (2 ^ 52) q
  rw [hdouble] at less hlow
  refine Double.exponent_eq (h.pos hm) (by omega) ?_ (.inl ?_)
  · rw [hsplit]
    norm_num at less ⊢
    linarith
  · rw [hsplit]
    norm_num at hlow hstep ⊢
    nlinarith

/-- Below a power of two steps are half as wide, so half of one is a quarter of the step above. -/
theorem rounded_of_near_of_lt (boundary : IsBoundary m q) (less : y < m * 2 ^ q) :
    rounded y = m * 2 ^ q := by
  have hexp := h.exponent_eq_of_lt hm canonical boundary less
  have hlow := h.low
  rw [quarters, if_pos boundary] at hlow
  obtain ⟨rfl, -⟩ := boundary
  have hdouble : (2 : ℝ) ^ q = 2 * 2 ^ (q - 1) := by
    rw [← zpow_one_add₀ two_ne_zero]
    congr 1
    omega
  have hhalf : (0 : ℝ) < 2 ^ (q - 1) := by positivity
  rw [hdouble] at hlow less ⊢
  rw [rounded_of_exponent (n := 2 ^ 53) hexp ?_ (fun _ => by norm_num)]
  · push_cast
    ring
  · rw [abs_le, le_sub_iff_add_le, sub_le_iff_le_add, le_div_iff₀ hhalf, div_le_iff₀ hhalf]
    push_cast at hlow less ⊢
    constructor <;> nlinarith

/-- What is near a double rounds to it. -/
theorem rounded_of_near : rounded y = m * 2 ^ q := by
  have hunit : (0 : ℝ) < 2 ^ q := by positivity
  by_cases hbelow : IsBoundary m q ∧ y < m * 2 ^ q
  · exact rounded_of_near_of_lt h hm canonical hbelow.1 hbelow.2
  · have habove : IsBoundary m q → (m : ℝ) * 2 ^ q ≤ y :=
      fun hb => not_lt.mp fun hlt => hbelow ⟨hb, hlt⟩
    have hexp := h.exponent_eq hm canonical habove
    have hstep := quarters_le m q
    have hlow : (m : ℝ) - 1 / 2 ≤ y / 2 ^ q := by
      rw [le_div_iff₀ hunit]
      exact le_trans (mul_le_mul_of_nonneg_right (by linarith) hunit.le) h.low
    have hhigh : y / 2 ^ q ≤ m + 1 / 2 := by
      rw [div_le_iff₀ hunit]
      exact h.high
    rw [rounded_of_exponent (n := m) hexp
      (abs_le.mpr ⟨by push_cast; linarith, by push_cast; linarith⟩)]
    · push_cast
      rfl
    · intro htie
      by_contra hodd
      have hodd : m % 2 = 1 := by omega
      have hlow' : (m : ℝ) - 1 / 2 < y / 2 ^ q := by
        rw [lt_div_iff₀ hunit]
        exact lt_of_le_of_lt (mul_le_mul_of_nonneg_right (by linarith) hunit.le) (h.low_odd hodd)
      have hhigh' : y / 2 ^ q < m + 1 / 2 := by
        rw [div_lt_iff₀ hunit]
        exact h.high_odd hodd
      refine absurd htie (ne_of_lt (abs_lt.mpr ⟨?_, ?_⟩))
      · push_cast
        linarith
      · push_cast
        linarith

end

end Placement.Double
