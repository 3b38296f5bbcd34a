import Mathlib
import Placement.Decimal.Literal
import Placement.Proofs.Double.Conversion

/-!
# Scaling a significand

Reading a number multiplies or divides a 64-bit significand by powers of ten. Each power is the
double nearest to it, which is the power itself up to 10^22, and each step rounds once more. So a
significand of 53 bits with at most 22 places is rounded once in all and gives the nearest double;
others may miss it, but stay near enough not to pass a whole number of 32 bits.
-/
namespace Placement.Decimal.Literal
open Double

theorem powerOfTen_small : ∀ k < 23, powerOfTen k = Float.ofNat (10 ^ k) := by
  decide +kernel

theorem powerOfTen_large {k : ℕ} (hk : 22 < k) : (powerOfTen k).toModel =
    Float.Model.pack (Float.Model.UnpackedFloat.ofScientific .binary64 1 k) := by
  have hpower : powerOfTen k = Float.ofScientific 1 false k := by
    have hnonneg : ¬ ((k : ℤ) < 0) := by omega
    rw [powerOfTen, nearestTo, Int.natAbs_natCast, decide_eq_false hnonneg]
  rw [hpower]
  unfold Float.ofScientific
  rw [dif_neg (by omega)]
  rfl

theorem representable_ten_pow {k : ℕ} (hk : k ≤ 22) : Representable ((10 : ℝ) ^ k) := by
  refine ⟨5 ^ k, k, ?_, by omega, ?_⟩
  · rw [abs_of_nonneg (by positivity)]
    exact (pow_le_pow_right₀ (by norm_num) hk).trans_lt (by norm_num)
  · push_cast
    rw [zpow_natCast, ← mul_pow]
    norm_num

theorem rounded_ten_pow_lt {k : ℕ} (hk : k ≤ greatestPower) :
    rounded ((10 : ℝ) ^ k) < 2 ^ 1024 := by
  -- the exponent is kept as a variable, because its power is not to be evaluated
  obtain ⟨e, he⟩ : ∃ e, e = 1022 := ⟨_, rfl⟩
  have hgreatest : 10 ^ greatestPower ≤ 3 * 2 ^ e := by
    subst he
    decide +kernel
  have hbound : Representable (3 * 2 ^ e) :=
    ⟨3, e, by norm_num, by omega, by push_cast; rw [zpow_natCast]⟩
  have hle : (10 : ℝ) ^ k ≤ 3 * 2 ^ e := by
    refine (pow_le_pow_right₀ (by norm_num) hk).trans ?_
    exact_mod_cast hgreatest
  have hpos : (0 : ℝ) < 2 ^ e := by positivity
  calc rounded ((10 : ℝ) ^ k) ≤ 3 * 2 ^ e := rounded_le hbound hle
    _ < 4 * 2 ^ e := by linarith
    _ = 2 ^ (e + 2) := by rw [pow_add]; ring
    _ = 2 ^ 1024 := by rw [he]

theorem rounds_powerOfTen {k : ℕ} (hlow : 16 ≤ k) (hk : k ≤ greatestPower) :
    Rounds .positive (10 ^ k) (powerOfTen k).toModel.unpack := by
  rcases Nat.lt_or_ge k 23 with hsmall | hlarge
  · rw [powerOfTen_small k hsmall]
    have hpow : 2 ^ 53 ≤ 10 ^ k := le_trans (by norm_num) (Nat.pow_le_pow_right (by norm_num) hlow)
    exact_mod_cast rounds_ofNat_of_le hpow
  · have hrounds := rounds_ofScientific (n := 1) (k := k) one_pos
      (hk.trans (by unfold greatestPower; norm_num))
    rw [Nat.cast_one, one_mul] at hrounds
    rwa [powerOfTen_large hlarge]

theorem powerOfTen_spec {k : ℕ} (hk : k ≤ greatestPower) :
    Amount (powerOfTen k) ∧ value (powerOfTen k) = rounded (10 ^ k) := by
  rcases Nat.lt_or_ge k 16 with hexact | hlow
  · have hlt : 10 ^ k < 2 ^ 53 :=
      (Nat.pow_le_pow_right (by norm_num) (Nat.le_of_lt_succ hexact)).trans_lt (by norm_num)
    obtain ⟨hamount, hvalue⟩ := amount_ofNat_of_lt hlt
    rw [powerOfTen_small k (by omega), rounded_of_representable (representable_ten_pow (by omega)),
      hvalue]
    exact ⟨hamount, by push_cast; rfl⟩
  · have hrounds := rounds_powerOfTen hlow hk
    have hlt := rounded_ten_pow_lt hk
    exact ⟨⟨isFinite_of_proper (hrounds.proper hlt), hrounds.sign⟩, hrounds.value hlt⟩

theorem value_powerOfTen {k : ℕ} (hk : k ≤ 22) : value (powerOfTen k) = 10 ^ k := by
  rw [(powerOfTen_spec (hk.trans (by decide))).2,
    rounded_of_representable (representable_ten_pow hk)]

theorem le_powerOfTen {j k : ℕ} (hj : j ≤ 22) (hjk : j ≤ k) (hk : k ≤ greatestPower) :
    (10 : ℝ) ^ j ≤ value (powerOfTen k) := by
  rw [(powerOfTen_spec hk).2]
  exact le_rounded (representable_ten_pow hj) (pow_le_pow_right₀ (by norm_num) hjk)

variable {x : Float} {j : ℕ}

theorem below_shrink (count : ℕ) (hx : Below j x) (hj : j < 1024) : Below j (shrink count x) := by
  induction count generalizing x with
  | zero => exact hx
  | succ count ih =>
    rw [shrink]
    split_ifs
    · exact hx
    · have hone : (10 : ℝ) ^ 0 ≤ value (powerOfTen greatestPower) :=
        le_powerOfTen (by norm_num) (Nat.zero_le _) le_rfl
      rw [pow_zero] at hone
      exact ih (hx.div (powerOfTen_spec le_rfl).1 hone hj).1

variable {s k : ℕ}

theorem scale_neg (hk : 0 < k) (x : Float) : scale x (-k) =
    some (shrink ((k - 1) / greatestPower) x / powerOfTen ((k - 1) % greatestPower + 1)) := by
  have hneg : (-k : ℤ) < 0 := by omega
  rw [scale, if_pos hneg, Int.natAbs_neg, Int.natAbs_natCast]

theorem scale_neg_of_le (hk : 0 < k) (hle : k ≤ greatestPower) (x : Float) :
    scale x (-k) = some (x / powerOfTen k) := by
  have hlt : k - 1 < greatestPower := by omega
  rw [scale_neg hk, Nat.div_eq_of_lt hlt, Nat.mod_eq_of_lt hlt, Nat.sub_add_cancel hk]
  rfl

theorem below_significand (hs : s < UInt64.size) :
    Below 64 (UInt64.ofNat s).toFloat ∧ value (UInt64.ofNat s).toFloat = rounded s := by
  have h := below_toFloat_uint64 (UInt64.ofNat s)
  rwa [UInt64.toNat_ofNat_of_lt' hs] at h

theorem div_powerOfTen_spec (hs : s < UInt64.size) (hle : k ≤ greatestPower) :
    Amount ((UInt64.ofNat s).toFloat / powerOfTen k) ∧
      value ((UInt64.ofNat s).toFloat / powerOfTen k) =
        rounded (rounded s / value (powerOfTen k)) := by
  obtain ⟨hbelow, hvalue⟩ := below_significand hs
  have hone : (10 : ℝ) ^ 0 ≤ value (powerOfTen k) :=
    le_powerOfTen (Nat.zero_le _) (Nat.zero_le _) hle
  rw [pow_zero] at hone
  obtain ⟨hquotient, heq⟩ := hbelow.div (powerOfTen_spec hle).1 hone (by norm_num)
  rw [hvalue] at heq
  exact ⟨hquotient.amount, heq⟩

/-- Significand and power are both exact, so the quotient is the only one to be rounded. -/
theorem scale_neg_nearest (hs : s ≤ 2 ^ 53) (hk : 0 < k) (hle : k ≤ 22) :
    ∃ y, scale (UInt64.ofNat s).toFloat (-k) = some y ∧ Amount y ∧
      value y = rounded (s / 10 ^ k) := by
  have hgreatest : k ≤ greatestPower := hle.trans (by decide)
  obtain ⟨hamount, hvalue⟩ := div_powerOfTen_spec (hs.trans_lt (by decide)) hgreatest
  rw [rounded_of_representable (representable_natCast hs), value_powerOfTen hle] at hvalue
  exact ⟨_, scale_neg_of_le hk hgreatest _, hamount, hvalue⟩

/-- A 32-bit number times a small power of ten has 53 bits before its zeros. -/
theorem representable_mul_ten_pow (hk : k < 10) : Representable (4294967295 * 10 ^ k) := by
  refine ⟨4294967295 * 5 ^ k, k, ?_, by omega, ?_⟩
  · rw [abs_of_nonneg (by positivity)]
    calc (4294967295 * 5 ^ k : ℤ) ≤ 4294967295 * 5 ^ 9 := by
          gcongr
          · norm_num
          · omega
      _ < 2 ^ 53 := by norm_num
  · have hten : (10 : ℝ) ^ k = 5 ^ k * 2 ^ k := by
      rw [← mul_pow]
      norm_num
    push_cast
    rw [zpow_natCast, hten, mul_assoc]

theorem rounded_le_ten_pow (hs : s ≤ 10 ^ 17) : rounded s ≤ 10 ^ 17 :=
  rounded_le (representable_ten_pow (by norm_num)) (by exact_mod_cast hs)

/-- The first of several divisions leaves at most one, and the others leave no more. -/
theorem below_shrink_succ (hs : s ≤ 10 ^ 17) (count : ℕ) :
    Below 0 (shrink (count + 1) (UInt64.ofNat s).toFloat) := by
  have hsize : s < UInt64.size := hs.trans_lt (by decide)
  rw [shrink]
  split_ifs with hzero
  · obtain ⟨hbelow, -⟩ := below_significand hsize
    rw [beq_iff_value hbelow.amount.finite amount_zero.finite, value_zero] at hzero
    exact ⟨hbelow.amount, hzero.trans_le (by norm_num)⟩
  · refine below_shrink count ?_ (by norm_num)
    obtain ⟨hamount, hvalue⟩ := div_powerOfTen_spec hsize (k := greatestPower) le_rfl
    have hten : (10 : ℝ) ^ 22 ≤ value (powerOfTen greatestPower) :=
      le_powerOfTen le_rfl (by decide) le_rfl
    have hround := rounded_le_ten_pow hs
    refine ⟨hamount, hvalue.trans_le (rounded_le (representable_two_pow 0) ?_)⟩
    rw [pow_zero, div_le_iff₀ (by linarith)]
    linarith

/-- However often it is rounded, a significand of 17 digits is not scaled past a 32-bit number. -/
theorem scale_neg_le (hs : s ≤ 10 ^ 17) (hk : 0 < k) (h : s ≤ 4294967295 * 10 ^ k) :
    ∃ y, scale (UInt64.ofNat s).toFloat (-k) = some y ∧ Amount y ∧ value y ≤ 4294967295 := by
  rcases Nat.lt_or_ge greatestPower k with hmany | hle
  · obtain ⟨count, hcount⟩ : ∃ count, (k - 1) / greatestPower = count + 1 :=
      Nat.exists_eq_succ_of_ne_zero (Nat.div_pos (by omega) (by decide)).ne'
    have hrest : (k - 1) % greatestPower + 1 ≤ greatestPower := Nat.mod_lt _ (by decide)
    have hone : (10 : ℝ) ^ 0 ≤ value (powerOfTen ((k - 1) % greatestPower + 1)) :=
      le_powerOfTen (Nat.zero_le _) (Nat.zero_le _) hrest
    rw [pow_zero] at hone
    obtain ⟨hlast, -⟩ :=
      (below_shrink_succ hs count).div (powerOfTen_spec hrest).1 hone (by norm_num)
    rw [← hcount] at hlast
    exact ⟨_, scale_neg hk _, hlast.amount, hlast.le.trans (by norm_num)⟩
  · obtain ⟨hamount, hvalue⟩ := div_powerOfTen_spec (hs.trans_lt (by decide)) hle
    refine ⟨_, scale_neg_of_le hk hle _, hamount, ?_⟩
    have hlimit : Representable 4294967295 := by
      exact_mod_cast representable_natCast (n := 4294967295) (by norm_num)
    rw [hvalue]
    refine rounded_le hlimit ?_
    rcases Nat.lt_or_ge k 10 with hfew | hplenty
    · rw [value_powerOfTen (by omega), div_le_iff₀ (by positivity)]
      exact rounded_le (representable_mul_ten_pow hfew) (by exact_mod_cast h)
    · have hten : (10 : ℝ) ^ 10 ≤ value (powerOfTen k) := le_powerOfTen (by norm_num) hplenty hle
      have hround := rounded_le_ten_pow hs
      rw [div_le_iff₀ (by linarith)]
      linarith

end Placement.Decimal.Literal
