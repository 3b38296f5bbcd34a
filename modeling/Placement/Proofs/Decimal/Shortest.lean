import Mathlib
import Placement.Decimal.Shortest
import Placement.Proofs.Double.Neighbourhood

/-!
# The fewest digits do read back

The digits that are chosen for a positive double make up a number that rounds to it. The grids are
tried in exact arithmetic, and the last one always has a point near the double, since its step is
less than a step between doubles; just above a power of two, where the step below is half as wide,
the point above will do. So there are at most seventeen digits.
-/
namespace Placement.Decimal
open Double

namespace Interval

theorem up_pos (k : ℤ) : 0 < up k := Nat.pow_pos (by norm_num)

theorem cast_step (s : Interval) (k : ℤ) : (s.step k : ℝ) = s.unit * 10 ^ k * up k := by
  have hpow (n : ℕ) : ((Nat.pow 10 n : ℕ) : ℝ) = 10 ^ (n : ℤ) := by
    rw [zpow_natCast]
    exact_mod_cast rfl
  rw [step, up, Nat.cast_mul, hpow, hpow, mul_assoc, ← zpow_add₀ (by norm_num)]
  congr 2
  omega

variable (m : ℕ) (q : ℤ)

theorem unit_pos : 0 < (ofDyadic m q).unit := Nat.pow_pos (by norm_num)

/-- What an interval counts in quarters of the last binary place. -/
theorem cast_quarters (a : ℕ) : ((a * Nat.pow 2 (q - 2).toNat : ℕ) : ℝ) =
    a / 4 * 2 ^ q * (ofDyadic m q).unit := by
  have hpow (n : ℕ) : ((Nat.pow 2 n : ℕ) : ℝ) = 2 ^ (n : ℤ) := by
    rw [zpow_natCast]
    exact_mod_cast rfl
  have hscale : (2 : ℝ) ^ ((q - 2).toNat : ℤ) = 2 ^ (q - 2) * 2 ^ ((2 - q).toNat : ℤ) := by
    rw [← zpow_add₀ two_ne_zero]
    congr 1
    omega
  have hunit : ((ofDyadic m q).unit : ℝ) = 2 ^ ((2 - q).toNat : ℤ) := hpow _
  have hquarter : (2 : ℝ) ^ q = 4 * 2 ^ (q - 2) := by
    rw [zpow_sub₀ two_ne_zero]
    norm_num
    ring
  rw [Nat.cast_mul, hpow, hunit, hscale, hquarter]
  ring

theorem cast_value : ((ofDyadic m q).value : ℝ) = m * 2 ^ q * (ofDyadic m q).unit := by
  refine (cast_quarters m q (4 * m)).trans ?_
  push_cast
  ring

theorem cast_high : ((ofDyadic m q).high : ℝ) = (m + 1 / 2) * 2 ^ q * (ofDyadic m q).unit := by
  refine (cast_quarters m q (4 * m + 2)).trans ?_
  push_cast
  ring

variable {m q}

theorem cast_low (hm : 0 < m) : ((ofDyadic m q).low : ℝ) =
    (m - quarters m q / 4) * 2 ^ q * (ofDyadic m q).unit := by
  have hlow : (ofDyadic m q).low = (4 * m - quarters m q) * Nat.pow 2 (q - 2).toNat := rfl
  have hle : quarters m q ≤ 4 * m := by
    unfold quarters
    split <;> omega
  rw [hlow, cast_quarters, Nat.cast_sub hle]
  push_cast
  ring

/-- A point of a grid passes the test when it is near the double. -/
theorem holds_iff_near (hm : 0 < m) (k : ℤ) (c : ℕ) :
    (ofDyadic m q).holds k c = true ↔ Near m q (c * 10 ^ k) := by
  have hscale : (0 : ℝ) < (ofDyadic m q).unit * up k := by
    exact_mod_cast Nat.mul_pos (unit_pos m q) (up_pos k)
  have hstep : ((c * (ofDyadic m q).step k : ℕ) : ℝ) =
      c * 10 ^ k * ((ofDyadic m q).unit * up k) := by
    rw [Nat.cast_mul, cast_step]
    ring
  have hlow : (((ofDyadic m q).low * up k : ℕ) : ℝ) =
      (m - quarters m q / 4) * 2 ^ q * ((ofDyadic m q).unit * up k) := by
    rw [Nat.cast_mul, cast_low hm]
    ring
  have hhigh : (((ofDyadic m q).high * up k : ℕ) : ℝ) =
      (m + 1 / 2) * 2 ^ q * ((ofDyadic m q).unit * up k) := by
    rw [Nat.cast_mul, cast_high]
    ring
  have lowLe : (ofDyadic m q).low * up k ≤ c * (ofDyadic m q).step k ↔
      (m - quarters m q / 4) * 2 ^ q ≤ (c * 10 ^ k : ℝ) := by
    rw [← @Nat.cast_le ℝ, hlow, hstep, mul_le_mul_iff_of_pos_right hscale]
  have lowLt : (ofDyadic m q).low * up k < c * (ofDyadic m q).step k ↔
      (m - quarters m q / 4) * 2 ^ q < (c * 10 ^ k : ℝ) := by
    rw [← @Nat.cast_lt ℝ, hlow, hstep, mul_lt_mul_iff_of_pos_right hscale]
  have highLe : c * (ofDyadic m q).step k ≤ (ofDyadic m q).high * up k ↔
      (c * 10 ^ k : ℝ) ≤ (m + 1 / 2) * 2 ^ q := by
    rw [← @Nat.cast_le ℝ, hhigh, hstep, mul_le_mul_iff_of_pos_right hscale]
  have highLt : c * (ofDyadic m q).step k < (ofDyadic m q).high * up k ↔
      (c * 10 ^ k : ℝ) < (m + 1 / 2) * 2 ^ q := by
    rw [← @Nat.cast_lt ℝ, hhigh, hstep, mul_lt_mul_iff_of_pos_right hscale]
  have hclosed : (ofDyadic m q).closed = (m % 2 == 0) := rfl
  unfold holds
  simp only [hclosed, beq_iff_eq]
  split_ifs with heven <;> rw [Bool.and_eq_true, decide_eq_true_eq, decide_eq_true_eq]
  · rw [lowLe, highLe]
    exact ⟨fun h => ⟨h.1, h.2, by omega, by omega⟩, fun h => ⟨h.low, h.high⟩⟩
  · rw [lowLt, highLt]
    exact ⟨fun h => ⟨h.1.le, h.2.le, fun _ => h.1, fun _ => h.2⟩,
      fun h => ⟨h.low_odd (by omega), h.high_odd (by omega)⟩⟩

theorem pow_le_of_length_toDigits {n : ℕ} (hn : 0 < n) :
    10 ^ ((Nat.toDigits 10 n).length - 1) ≤ n ∧ n < 10 ^ (Nat.toDigits 10 n).length := by
  have hpos := Nat.length_toDigits_pos (b := 10) (n := n)
  refine ⟨?_, (Nat.length_toDigits_le_iff (by norm_num) hpos).mp le_rfl⟩
  by_contra hlt
  rcases Nat.eq_zero_or_pos ((Nat.toDigits 10 n).length - 1) with hone | hmore
  · rw [hone] at hlt
    omega
  · have hle := (Nat.length_toDigits_le_iff (by norm_num) hmore).mpr (not_le.mp hlt)
    omega

/-- A number of so many digits, as a real number. -/
theorem length_toDigits_bounds {n : ℕ} (hn : 0 < n) :
    (10 : ℝ) ^ ((Nat.toDigits 10 n).length - 1 : ℤ) ≤ n ∧
      (n : ℝ) < 10 ^ ((Nat.toDigits 10 n).length : ℤ) := by
  obtain ⟨hlow, hhigh⟩ := pow_le_of_length_toDigits hn
  have hpos := Nat.length_toDigits_pos (b := 10) (n := n)
  have hpred : ((Nat.toDigits 10 n).length - 1 : ℤ) = ((Nat.toDigits 10 n).length - 1 : ℕ) := by
    omega
  rw [hpred, zpow_natCast, zpow_natCast]
  exact ⟨by exact_mod_cast hlow, by exact_mod_cast hhigh⟩

/-- The magnitude is the number of digits before the point. -/
theorem magnitude_spec (hm : 0 < m) :
    (10 : ℝ) ^ ((ofDyadic m q).magnitude - 1) ≤ m * 2 ^ q ∧
      (m * 2 ^ q : ℝ) < 10 ^ (ofDyadic m q).magnitude := by
  have hunit : (0 : ℝ) < (ofDyadic m q).unit := by exact_mod_cast unit_pos m q
  have hvalue : ((ofDyadic m q).value : ℝ) = m * 2 ^ q * (ofDyadic m q).unit := cast_value m q
  have hpos : 0 < (ofDyadic m q).value := by
    have hreal : (0 : ℝ) < (ofDyadic m q).value := by
      rw [hvalue]
      positivity
    exact_mod_cast hreal
  obtain ⟨hvlow, hvhigh⟩ := length_toDigits_bounds hpos
  obtain ⟨hulow, huhigh⟩ := length_toDigits_bounds (unit_pos m q)
  rw [hvalue] at hvlow hvhigh
  have hguess (k : ℤ) : (ofDyadic m q).step k ≤ (ofDyadic m q).value * up k ↔
      (10 : ℝ) ^ k ≤ m * 2 ^ q := by
    have hup : (0 : ℝ) < up k := by exact_mod_cast up_pos k
    rw [← @Nat.cast_le ℝ, cast_step, Nat.cast_mul, hvalue, mul_le_mul_iff_of_pos_right hup,
      mul_comm, mul_le_mul_iff_of_pos_right hunit]
  unfold magnitude
  simp only [hguess]
  generalize ((Nat.toDigits 10 (ofDyadic m q).value).length : ℤ) = v at hvlow hvhigh ⊢
  generalize ((Nat.toDigits 10 (ofDyadic m q).unit).length : ℤ) = u at hulow huhigh ⊢
  have hten : (0 : ℝ) < 10 := by norm_num
  split_ifs with hle
  · refine ⟨by rwa [add_sub_cancel_right], lt_of_mul_lt_mul_right ?_ hunit.le⟩
    calc (m * 2 ^ q : ℝ) * (ofDyadic m q).unit < 10 ^ v := hvhigh
      _ = 10 ^ (v - u + 1) * 10 ^ (u - 1) := by
        rw [← zpow_add₀ hten.ne']
        congr 1
        omega
      _ ≤ 10 ^ (v - u + 1) * (ofDyadic m q).unit := by gcongr
  · refine ⟨le_of_mul_le_mul_right ?_ hunit, not_le.mp hle⟩
    calc (10 : ℝ) ^ (v - u - 1) * (ofDyadic m q).unit ≤ 10 ^ (v - u - 1) * 10 ^ u := by gcongr
      _ = 10 ^ (v - 1) := by
        rw [← zpow_add₀ hten.ne']
        congr 1
        omega
      _ ≤ m * 2 ^ q * (ofDyadic m q).unit := hvlow

/-- The last point of a grid that is not above the double. -/
def below (s : Interval) (k : ℤ) : ℕ := s.value * up k / s.step k

/-- The double lies between its two neighbours on a grid. -/
theorem below_spec (m : ℕ) (q k : ℤ) :
    ((ofDyadic m q).below k : ℝ) * 10 ^ k ≤ m * 2 ^ q ∧
      (m * 2 ^ q : ℝ) < ((ofDyadic m q).below k + 1) * 10 ^ k := by
  have hscale : (0 : ℝ) < (ofDyadic m q).unit * up k := by
    exact_mod_cast Nat.mul_pos (unit_pos m q) (up_pos k)
  have hstep : 0 < (ofDyadic m q).step k := Nat.mul_pos (unit_pos m q) (Nat.pow_pos (by norm_num))
  have hvalue : (((ofDyadic m q).value * up k : ℕ) : ℝ) =
      m * 2 ^ q * ((ofDyadic m q).unit * up k) := by
    rw [Nat.cast_mul, cast_value]
    ring
  have hlow : (ofDyadic m q).below k * (ofDyadic m q).step k ≤ (ofDyadic m q).value * up k :=
    Nat.div_mul_le_self _ _
  have hhigh : (ofDyadic m q).value * up k <
      ((ofDyadic m q).below k + 1) * (ofDyadic m q).step k := by
    rw [mul_comm (_ + 1)]
    exact Nat.lt_mul_div_succ _ hstep
  rw [← @Nat.cast_le ℝ, hvalue, Nat.cast_mul, cast_step] at hlow
  rw [← @Nat.cast_lt ℝ, hvalue, Nat.cast_mul, cast_step] at hhigh
  constructor
  · refine le_of_mul_le_mul_right ?_ hscale
    linarith
  · refine lt_of_mul_lt_mul_right ?_ hscale.le
    push_cast at hhigh
    linarith

variable {tie : Tie} {n : ℕ} {d : Scientific}

/-- What a grid gives is one of the two neighbours, and passes the test. -/
theorem onGrid_eq_some {s : Interval} (h : s.onGrid tie n = some d) :
    (d.significand = s.below (s.magnitude - n) ∨ d.significand = s.below (s.magnitude - n) + 1) ∧
      d.exponent = s.magnitude - n ∧ s.holds d.exponent d.significand = true := by
  have hbelow (k : ℤ) : s.value * up k / s.step k = s.below k := rfl
  simp only [onGrid, hbelow] at h
  generalize s.magnitude - n = k at h ⊢
  split at h
  next => cases h
  next hb _ => cases h; exact ⟨.inl rfl, rfl, hb⟩
  next _ ha => cases h; exact ⟨.inr rfl, rfl, ha⟩
  next hb ha =>
    split at h
    next => cases h; exact ⟨.inl rfl, rfl, hb⟩
    next => cases h; exact ⟨.inr rfl, rfl, ha⟩
    next =>
      cases tie with
      | up => cases h; exact ⟨.inr rfl, rfl, ha⟩
      | even =>
        cases h
        split_ifs with heven
        · exact ⟨.inl rfl, rfl, hb⟩
        · exact ⟨.inr rfl, rfl, ha⟩

/-- Without a point on a grid neither neighbour passes the test. -/
theorem onGrid_eq_none {s : Interval} (h : s.onGrid tie n = none) :
    s.holds (s.magnitude - n) (s.below (s.magnitude - n)) = false ∧
      s.holds (s.magnitude - n) (s.below (s.magnitude - n) + 1) = false := by
  have hbelow (k : ℤ) : s.value * up k / s.step k = s.below k := rfl
  simp only [onGrid, hbelow] at h
  split at h
  next hb ha => exact ⟨hb, ha⟩
  next => cases h
  next => cases h
  next =>
    split at h
    next => cases h
    next => cases h
    next => cases tie <;> cases h

/-- What a grid gives is near the double and has as many digits as the grid. -/
theorem onGrid_spec (hm : 0 < m) (hn : 0 < n) (h : (ofDyadic m q).onGrid tie n = some d) :
    Near m q (d.significand * 10 ^ d.exponent) ∧ 0 < d.significand ∧ d.significand ≤ 10 ^ n := by
  obtain ⟨hneighbour, hexponent, hholds⟩ := onGrid_eq_some h
  refine ⟨(holds_iff_near hm _ _).mp hholds, ?_⟩
  obtain ⟨hfirst, hlast⟩ := magnitude_spec (q := q) hm
  obtain ⟨hlow, hhigh⟩ := below_spec m q ((ofDyadic m q).magnitude - n)
  have hgrid : (0 : ℝ) < 10 ^ ((ofDyadic m q).magnitude - n) := by positivity
  have hleast : (10 : ℝ) ^ ((ofDyadic m q).magnitude - n) ≤
      10 ^ ((ofDyadic m q).magnitude - 1) := zpow_le_zpow_right₀ (by norm_num) (by omega)
  have hmost : (10 : ℝ) ^ (ofDyadic m q).magnitude =
      10 ^ n * 10 ^ ((ofDyadic m q).magnitude - n) := by
    rw [← zpow_natCast, ← zpow_add₀ (by norm_num)]
    congr 1
    omega
  have hpos : 0 < (ofDyadic m q).below ((ofDyadic m q).magnitude - n) := by
    have hone : (1 : ℝ) * 10 ^ ((ofDyadic m q).magnitude - n) <
        ((ofDyadic m q).below ((ofDyadic m q).magnitude - n) + 1) *
          10 ^ ((ofDyadic m q).magnitude - n) := by linarith
    have hreal := lt_of_mul_lt_mul_right hone hgrid.le
    have hnat : 1 < (ofDyadic m q).below ((ofDyadic m q).magnitude - n) + 1 := by
      exact_mod_cast hreal
    omega
  have hlt : (ofDyadic m q).below ((ofDyadic m q).magnitude - n) < 10 ^ n := by
    have hreal := lt_of_mul_lt_mul_right (hlow.trans_lt (hlast.trans_eq hmost)) hgrid.le
    exact_mod_cast hreal
  omega

/-- With seventeen digits one of the two neighbours reads back. -/
theorem onGrid_ne_none (hm : 0 < m) (canonical : Canonical m q) :
    (ofDyadic m q).onGrid tie mostDigits ≠ none := by
  intro hnone
  obtain ⟨hbelow, habove⟩ := onGrid_eq_none hnone
  rw [← Bool.not_eq_true, holds_iff_near hm] at hbelow habove
  obtain ⟨hfirst, -⟩ := magnitude_spec (q := q) hm
  obtain ⟨hlow, hhigh⟩ := below_spec m q ((ofDyadic m q).magnitude - mostDigits)
  have hsplit : (10 : ℝ) ^ ((ofDyadic m q).magnitude - 1) =
      10 ^ 16 * 10 ^ ((ofDyadic m q).magnitude - mostDigits) := by
    rw [← zpow_natCast, ← zpow_add₀ (by norm_num)]
    congr 1
    unfold mostDigits
    omega
  rw [hsplit] at hfirst
  have hstep : (0 : ℝ) < 10 ^ ((ofDyadic m q).magnitude - mostDigits) := by positivity
  have hunit : (0 : ℝ) < 2 ^ q := by positivity
  generalize (10 : ℝ) ^ ((ofDyadic m q).magnitude - mostDigits) = t at *
  generalize (ofDyadic m q).below ((ofDyadic m q).magnitude - mostDigits) = b at *
  push_cast at habove
  have hgap : (0 : ℝ) < quarters m q / 4 * 2 ^ q := by
    have hpos : (0 : ℝ) < quarters m q := by exact_mod_cast quarters_pos m q
    positivity
  by_cases hboundary : IsBoundary m q
  · -- the step below is half as wide here, so only the point above is sure to be near enough
    have hsmall : t < 2 ^ q / 2 := by
      rw [hboundary.1] at hfirst
      norm_num at hfirst
      linarith
    exact habove (near_of_lt (by linarith) (by linarith))
  · have hsmall : t < 2 ^ q := by
      have hmost : (m : ℝ) ≤ 2 ^ 53 := by exact_mod_cast canonical.below.le
      have hle := mul_le_mul_of_nonneg_right hmost hunit.le
      norm_num at hfirst hle
      linarith
    have hhalf : (quarters m q / 4 : ℝ) = 1 / 2 := by
      rw [quarters, if_neg hboundary]
      norm_num
    rcases le_or_gt ((m : ℝ) * 2 ^ q - t / 2) (b * t) with hnear | hfar
    · exact hbelow (near_of_lt (by rw [hhalf]; linarith) (by linarith))
    · exact habove (near_of_lt (by linarith) (by linarith))

end Interval

theorem strip_spec (fuel : ℕ) (d : Scientific) (h : 0 < d.significand) :
    ((d.strip fuel).significand : ℝ) * 10 ^ (d.strip fuel).exponent =
        d.significand * 10 ^ d.exponent ∧
      0 < (d.strip fuel).significand ∧ (d.strip fuel).significand ≤ d.significand := by
  induction fuel generalizing d with
  | zero => exact ⟨rfl, h, le_rfl⟩
  | succ fuel ih =>
    rw [Scientific.strip]
    split_ifs with hzero
    · obtain ⟨hvalue, hpos, hle⟩ := ih ⟨d.significand / 10, d.exponent + 1⟩ (by simp only; omega)
      refine ⟨hvalue.trans ?_, hpos, hle.trans (Nat.div_le_self _ _)⟩
      have hten : (d.significand : ℝ) = (d.significand / 10 : ℕ) * 10 := by
        exact_mod_cast (Nat.div_mul_cancel (Nat.dvd_of_mod_eq_zero hzero)).symm
      rw [hten, zpow_add_one₀ (by norm_num)]
      ring
    · exact ⟨rfl, h, le_rfl⟩

/-- The shortest digits of a positive double are near it. -/
theorem shortest_spec (tie : Tie) {m : ℕ} {q : ℤ} (hm : 0 < m) (canonical : Canonical m q) :
    Near m q ((shortest tie m q).significand * 10 ^ (shortest tie m q).exponent) ∧
      0 < (shortest tie m q).significand ∧ (shortest tie m q).significand ≤ 10 ^ mostDigits := by
  unfold shortest
  cases hfound : (List.range' 1 mostDigits).findSome? ((Interval.ofDyadic m q).onGrid tie) with
  | none =>
    have hlast := List.findSome?_eq_none_iff.mp hfound mostDigits (by decide)
    exact absurd hlast (Interval.onGrid_ne_none hm canonical)
  | some d =>
    obtain ⟨n, hn, hgrid⟩ := List.exists_of_findSome?_eq_some hfound
    rw [List.mem_range'_1] at hn
    obtain ⟨hnear, hpos, hle⟩ := Interval.onGrid_spec hm (by omega) hgrid
    obtain ⟨hvalue, hpos', hle'⟩ := strip_spec mostDigits d hpos
    have hpow : 10 ^ n ≤ 10 ^ mostDigits := Nat.pow_le_pow_right (by norm_num) (by omega)
    simp only [Option.getD_some, hfound]
    exact ⟨hvalue ▸ hnear, hpos', hle'.trans (hle.trans hpow)⟩

end Placement.Decimal
