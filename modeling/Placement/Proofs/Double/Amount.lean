import Mathlib
import Placement.Proofs.Double.Arithmetic

/-!
# Amounts

An amount is a finite double without a minus sign, not even on zero. What scoring computes are
amounts, and the operations on them keep their size in check: rounding never passes a power of two,
and a sum that is large enough takes in small amounts without a change. So a sum of any number of
small amounts is bounded, however many there are; a sum of large ones may become infinite, and stays
so. Amounts with the same number are the same double.
-/
namespace Placement.Double
open Float.Model (UnpackedFloat)
open Float.Model.UnpackedFloat

/-- A finite double without a minus sign. -/
structure Amount (x : Float) : Prop where
  finite : x.isFinite = true
  positive : signOf x.toModel.unpack = .positive

theorem isFinite_of_proper {x : Float} (h : Proper x.toModel.unpack) : x.isFinite = true := by
  change x.toModel.unpack.isFinite = true
  cases hx : x.toModel.unpack with
  | zero s => rfl
  | finite s m e hm => rfl
  | infinity s => rw [hx] at h; cases h
  | notANumber => rw [hx] at h; cases h

theorem Amount.nonneg {x : Float} (h : Amount x) : 0 ≤ value x := by
  obtain ⟨hfinite, hsign⟩ := h
  unfold value
  cases hx : x.toModel.unpack with
  | finite s m e hm =>
    rw [hx] at hsign
    obtain rfl : s = .positive := hsign
    have : (0 : ℝ) ≤ m * 2 ^ e := by positivity
    exact this
  | _ => exact le_rfl

/-- Amounts with the same number are the same double. -/
theorem Amount.ext {x y : Float} (hx : Amount x) (hy : Amount y) (h : value x = value y) : x = y :=
  eq_of_value_eq hx.finite hy.finite (hx.positive.trans hy.positive.symm) h

theorem signOf_of_nonneg {s : Sign} {m : ℕ} {e : ℤ} {hm : 0 < m}
    (h : 0 ≤ toReal (.finite s m e hm)) : s = .positive := by
  cases s with
  | positive => rfl
  | negative =>
    have : (0 : ℝ) < m * 2 ^ e := by positivity
    exact absurd h (not_le.mpr (neg_neg_of_pos this))

theorem signOf_pack_zero (s : Sign) : signOf (Float.Model.pack (.zero s)).unpack = s := by
  cases s <;> rfl

theorem signOf_normalize {m : ℤ} (hm : 0 ≤ m) (e : ℤ) :
    signOf (Float.Model.pack (UnpackedFloat.normalize .binary64 m e .positive)).unpack =
      .positive := by
  unfold UnpackedFloat.normalize
  rcases hm.lt_or_eq with h | rfl
  · rw [compare_gt_iff_gt.mpr h]
    exact (rounds_round .positive (m := m.toNat) (by omega) e).sign
  · rw [compare_eq_iff_eq.mpr rfl]
    exact signOf_pack_zero .positive

theorem signOf_add {u v : UnpackedFloat} (hu : Proper u) (hv : Proper v)
    (hsign : signOf u = .positive) (hnonneg : 0 ≤ toReal v) :
    signOf (Float.Model.pack (UnpackedFloat.add .binary64 u v)).unpack = .positive := by
  cases u with
  | zero s =>
    obtain rfl : s = .positive := hsign
    cases v with
    | zero t => cases t <;> rfl
    | finite t n d hn =>
      obtain rfl := signOf_of_nonneg hnonneg
      have hunpack := unpack_pack_proper hv
      change signOf (Float.Model.pack (.finite .positive n d hn)).unpack = _
      rw [hunpack]
      rfl
    | _ => cases hv
  | finite s m e hm =>
    obtain rfl : s = .positive := hsign
    cases v with
    | zero t =>
      have hunpack := unpack_pack_proper hu
      change signOf (Float.Model.pack (.finite .positive m e hm)).unpack = _
      rw [hunpack]
      rfl
    | finite t n d hn =>
      obtain rfl := signOf_of_nonneg hnonneg
      exact signOf_normalize (add_nonneg (Int.natCast_nonneg _) (Int.natCast_nonneg _)) _
    | _ => cases hv
  | _ => cases hu

/-- A difference that is not negative has no minus sign, not even where it is zero. -/
theorem signOf_sub {u v : UnpackedFloat} (hu : Proper u) (hv : Proper v)
    (hleft : signOf u = .positive) (hright : signOf v = .positive) (h : toReal v ≤ toReal u) :
    signOf (Float.Model.pack (UnpackedFloat.sub .binary64 u v)).unpack = .positive := by
  cases u with
  | zero s =>
    obtain rfl : s = .positive := hleft
    cases v with
    | zero t =>
      obtain rfl : t = .positive := hright
      rfl
    | finite t n d hn =>
      obtain rfl : t = .positive := hright
      have hpos : (0 : ℝ) < n * 2 ^ d := by positivity
      exact absurd h (not_le.mpr hpos)
    | _ => cases hv
  | finite s m e hm =>
    obtain rfl : s = .positive := hleft
    cases v with
    | zero t =>
      have hunpack := unpack_pack_proper hu
      change signOf (Float.Model.pack (.finite .positive m e hm)).unpack = _
      rw [hunpack]
      rfl
    | finite t n d hn =>
      obtain rfl : t = .positive := hright
      rw [← signed_decreaseExponent .positive hn (min_le_right e d),
        ← signed_decreaseExponent .positive hm (min_le_left e d)] at h
      have hle := le_of_mul_le_mul_right h (by positivity)
      exact signOf_normalize (sub_nonneg.mpr (by exact_mod_cast hle)) _
    | _ => cases hv
  | _ => cases hu

theorem signOf_mul {u v : UnpackedFloat} (hu : Proper u) (hv : Proper v) :
    signOf (Float.Model.pack (UnpackedFloat.mul .binary64 u v)).unpack = signOf u * signOf v := by
  cases u with
  | zero s =>
    cases v with
    | zero t => exact signOf_pack_zero (s * t)
    | finite t n d hn => exact signOf_pack_zero (s * t)
    | _ => cases hv
  | finite s m e hm =>
    cases v with
    | zero t => exact signOf_pack_zero (s * t)
    | finite t n d hn =>
      exact (rounds_exact (s * t) (Nat.mul_pos hm hn) (le_exponent_mul hm hn hu.1 hv.1)).sign
    | _ => cases hv
  | _ => cases hu

theorem signOf_div {u v : UnpackedFloat} (hu : Proper u) (hv : Proper v) (hne : toReal v ≠ 0) :
    signOf (Float.Model.pack (UnpackedFloat.div .binary64 u v)).unpack = signOf u / signOf v := by
  cases v with
  | zero t => exact absurd rfl hne
  | finite t n d hn =>
    cases u with
    | zero s => exact signOf_pack_zero (s / t)
    | finite s m e hm => exact (rounds_div (s / t) hm hn).sign
    | _ => cases hu
  | _ => cases hv

theorem signOf_sqrt {u : UnpackedFloat} (hu : Proper u) (hsign : signOf u = .positive) :
    signOf (Float.Model.pack (UnpackedFloat.sqrt .binary64 u)).unpack = .positive := by
  cases u with
  | zero s =>
    obtain rfl : s = .positive := hsign
    rfl
  | finite s m e hm =>
    obtain rfl : s = .positive := hsign
    exact (rounds_sqrt hm e).sign
  | _ => cases hu

theorem unpack_neg (x : Float) : (-x).toModel.unpack = x.toModel.unpack.neg := by
  change (Float.Model.pack x.toModel.unpack.neg).unpack = _
  cases hx : x.toModel.unpack with
  | zero s => cases s <;> rfl
  | finite s m e hm => exact unpack_pack hm (canonical_unpack hx).1 (canonical_unpack hx).2
  | infinity s => cases s <;> rfl
  | notANumber => rfl

theorem unpack_abs (x : Float) : x.abs.toModel.unpack = x.toModel.unpack.abs := by
  change (Float.Model.pack x.toModel.unpack.abs).unpack = _
  cases hx : x.toModel.unpack with
  | zero s => cases s <;> rfl
  | finite s m e hm => exact unpack_pack hm (canonical_unpack hx).1 (canonical_unpack hx).2
  | infinity s => cases s <;> rfl
  | notANumber => rfl

theorem amount_abs {x : Float} (h : x.abs.isFinite = true) : Amount x.abs := by
  refine ⟨h, ?_⟩
  rw [unpack_abs]
  cases x.toModel.unpack <;> rfl

theorem rounded_lt_of_le {q : ℝ} {k : ℕ} (hk : k < 1024) (h : q ≤ 2 ^ k) :
    rounded q < 2 ^ 1024 := by
  have hpow : Representable ((2 : ℝ) ^ k) := by
    rw [← zpow_natCast]
    exact representable_two_zpow (by omega)
  exact (rounded_le hpow h).trans_lt (pow_lt_pow_right₀ one_lt_two hk)

theorem amount_of_approximates {x : Float} {q : ℝ} (h : Approximates q x.toModel.unpack)
    (hq : 0 ≤ q) (hlt : rounded q < 2 ^ 1024) (hsign : signOf x.toModel.unpack = .positive) :
    Amount x ∧ value x = rounded q := by
  have habs : |rounded q| < 2 ^ 1024 := by
    rw [abs_of_nonneg (rounded_nonneg hq)]
    exact hlt
  exact ⟨⟨isFinite_of_proper (h.proper habs), hsign⟩, h.value habs⟩

variable {x y : Float}

theorem Amount.add (hx : Amount x) (hy : y.isFinite = true) (hnonneg : 0 ≤ value y)
    (hlt : rounded (value x + value y) < 2 ^ 1024) :
    Amount (x + y) ∧ value (x + y) = rounded (value x + value y) :=
  amount_of_approximates (approximates_add (proper_unpack hx.finite) (proper_unpack hy))
    (add_nonneg hx.nonneg hnonneg) hlt
    (signOf_add (proper_unpack hx.finite) (proper_unpack hy) hx.positive hnonneg)

theorem Amount.mul (hx : Amount x) (hy : Amount y) (hlt : rounded (value x * value y) < 2 ^ 1024) :
    Amount (x * y) ∧ value (x * y) = rounded (value x * value y) := by
  refine amount_of_approximates
    (approximates_mul (proper_unpack hx.finite) (proper_unpack hy.finite))
    (mul_nonneg hx.nonneg hy.nonneg) hlt ?_
  apply (signOf_mul (proper_unpack hx.finite) (proper_unpack hy.finite)).trans
  rw [hx.positive, hy.positive]
  rfl

theorem Amount.div (hx : Amount x) (hy : Amount y) (hpos : 0 < value y)
    (hlt : rounded (value x / value y) < 2 ^ 1024) :
    Amount (x / y) ∧ value (x / y) = rounded (value x / value y) := by
  refine amount_of_approximates
    (approximates_div (proper_unpack hx.finite) (proper_unpack hy.finite) hpos.ne')
    (div_nonneg hx.nonneg hy.nonneg) hlt ?_
  apply (signOf_div (proper_unpack hx.finite) (proper_unpack hy.finite) hpos.ne').trans
  rw [hx.positive, hy.positive]
  rfl

theorem Amount.sqrt (hx : Amount x) (hlt : rounded (Real.sqrt (value x)) < 2 ^ 1024) :
    Amount x.sqrt ∧ value x.sqrt = rounded (Real.sqrt (value x)) :=
  amount_of_approximates (approximates_sqrt (proper_unpack hx.finite) hx.nonneg)
    (Real.sqrt_nonneg _) hlt (signOf_sqrt (proper_unpack hx.finite) hx.positive)

/-- A difference may be negative, but its square is an amount. -/
theorem amount_mul_self (hx : x.isFinite = true) (hlt : rounded (value x * value x) < 2 ^ 1024) :
    Amount (x * x) ∧ value (x * x) = rounded (value x * value x) := by
  refine amount_of_approximates (approximates_mul (proper_unpack hx) (proper_unpack hx))
    (mul_self_nonneg _) hlt ?_
  apply (signOf_mul (proper_unpack hx) (proper_unpack hx)).trans
  cases signOf x.toModel.unpack <;> rfl

theorem isFinite_sub (hx : x.isFinite = true) (hy : y.isFinite = true)
    (hlt : |rounded (value x - value y)| < 2 ^ 1024) :
    (x - y).isFinite = true ∧ value (x - y) = rounded (value x - value y) := by
  have happrox := approximates_sub (proper_unpack hx) (proper_unpack hy)
  exact ⟨isFinite_of_proper (happrox.proper hlt), happrox.value hlt⟩

theorem isFinite_mul (hx : x.isFinite = true) (hy : y.isFinite = true)
    (hlt : |rounded (value x * value y)| < 2 ^ 1024) :
    (x * y).isFinite = true ∧ value (x * y) = rounded (value x * value y) := by
  have happrox := approximates_mul (proper_unpack hx) (proper_unpack hy)
  exact ⟨isFinite_of_proper (happrox.proper hlt), happrox.value hlt⟩

theorem isFinite_div (hx : x.isFinite = true) (hy : y.isFinite = true) (hne : value y ≠ 0)
    (hlt : |rounded (value x / value y)| < 2 ^ 1024) :
    (x / y).isFinite = true ∧ value (x / y) = rounded (value x / value y) := by
  have happrox := approximates_div (proper_unpack hx) (proper_unpack hy) hne
  exact ⟨isFinite_of_proper (happrox.proper hlt), happrox.value hlt⟩

/-- An amount up to a power of two. -/
structure Below (k : ℕ) (x : Float) : Prop where
  amount : Amount x
  le : value x ≤ 2 ^ k

/-- A finite double up to a power of two in size. -/
structure Within (k : ℕ) (x : Float) : Prop where
  finite : x.isFinite = true
  le : |value x| ≤ 2 ^ k

variable {j k : ℕ}

theorem Below.within (h : Below k x) : Within k x :=
  ⟨h.amount.finite, (abs_of_nonneg h.amount.nonneg).trans_le h.le⟩

theorem representable_value (hx : x.isFinite = true) : Representable (value x) :=
  representable_toReal (proper_unpack hx)

theorem representable_two_pow (k : ℕ) : Representable ((2 : ℝ) ^ k) := by
  rw [← zpow_natCast]
  exact representable_two_zpow (by omega)

theorem Below.mono (hx : Below j x) (h : j ≤ k) : Below k x :=
  ⟨hx.amount, hx.le.trans (pow_le_pow_right₀ one_le_two h)⟩

theorem Below.add (hx : Below k x) (hy : Below k y) (hk : k + 1 < 1024) :
    Below (k + 1) (x + y) ∧ value (x + y) = rounded (value x + value y) := by
  have hle : value x + value y ≤ 2 ^ (k + 1) := by
    rw [pow_succ]
    linarith [hx.le, hy.le]
  obtain ⟨hsum, hvalue⟩ := hx.amount.add hy.amount.finite hy.amount.nonneg (rounded_lt_of_le hk hle)
  exact ⟨⟨hsum, hvalue ▸ rounded_le (representable_two_pow _) hle⟩, hvalue⟩

/-- A sum never grows past the size at which it no longer takes in what is added. -/
theorem Below.add_small (hx : Below (k + 54) x) (hy : y.isFinite = true) (hnonneg : 0 ≤ value y)
    (hle : value y ≤ 2 ^ k) (hk : k + 54 < 1023) :
    Below (k + 54) (x + y) ∧ value (x + y) = rounded (value x + value y) := by
  have hsum : value x + value y ≤ 2 ^ (k + 54) + 2 ^ k := add_le_add hx.le hle
  have hstay : rounded ((2 : ℝ) ^ (k + 54) + 2 ^ k) = 2 ^ (k + 54) := by
    refine rounded_add_of_le (representable_two_pow _) (by positivity) (by positivity) (le_of_eq ?_)
    rw [pow_add]
    norm_num
    ring
  have hbound : rounded (value x + value y) ≤ 2 ^ (k + 54) := hstay ▸ rounded_mono hsum
  have hlt : rounded (value x + value y) < 2 ^ 1024 :=
    hbound.trans_lt (pow_lt_pow_right₀ one_lt_two (by omega))
  obtain ⟨hamount, hvalue⟩ := hx.amount.add hy hnonneg hlt
  exact ⟨⟨hamount, hvalue ▸ hbound⟩, hvalue⟩

theorem Below.mul (hx : Below j x) (hy : Below k y) (hk : j + k < 1024) :
    Below (j + k) (x * y) ∧ value (x * y) = rounded (value x * value y) := by
  have hle : value x * value y ≤ 2 ^ (j + k) := by
    rw [pow_add]
    exact mul_le_mul hx.le hy.le hy.amount.nonneg (by positivity)
  obtain ⟨hproduct, hvalue⟩ := hx.amount.mul hy.amount (rounded_lt_of_le hk hle)
  exact ⟨⟨hproduct, hvalue ▸ rounded_le (representable_two_pow _) hle⟩, hvalue⟩

/-- Dividing by at least one makes nothing larger. -/
theorem Below.div (hx : Below k x) (hy : Amount y) (hone : 1 ≤ value y) (hk : k < 1024) :
    Below k (x / y) ∧ value (x / y) = rounded (value x / value y) := by
  have hle : value x / value y ≤ 2 ^ k := (div_le_self hx.amount.nonneg hone).trans hx.le
  obtain ⟨hquotient, hvalue⟩ := hx.amount.div hy (by linarith) (rounded_lt_of_le hk hle)
  exact ⟨⟨hquotient, hvalue ▸ rounded_le (representable_two_pow _) hle⟩, hvalue⟩

theorem Below.sqrt (hx : Below (k + k) x) (hk : k < 1024) :
    Below k x.sqrt ∧ value x.sqrt = rounded (Real.sqrt (value x)) := by
  have hle : Real.sqrt (value x) ≤ 2 ^ k := by
    refine Real.sqrt_le_iff.mpr ⟨by positivity, hx.le.trans_eq ?_⟩
    rw [pow_add, sq]
  obtain ⟨hroot, hvalue⟩ := hx.amount.sqrt (rounded_lt_of_le hk hle)
  exact ⟨⟨hroot, hvalue ▸ rounded_le (representable_two_pow _) hle⟩, hvalue⟩

theorem Below.sub (hx : Below k x) (hy : Below k y) (hk : k < 1024) :
    Within k (x - y) ∧ value (x - y) = rounded (value x - value y) := by
  have hle : |value x - value y| ≤ 2 ^ k :=
    abs_le.mpr ⟨by linarith [hx.amount.nonneg, hy.le], by linarith [hx.le, hy.amount.nonneg]⟩
  have hround := abs_rounded_le (representable_two_pow k) hle
  obtain ⟨hfinite, hvalue⟩ := isFinite_sub hx.amount.finite hy.amount.finite
    (hround.trans_lt (pow_lt_pow_right₀ one_lt_two hk))
  exact ⟨⟨hfinite, hvalue ▸ hround⟩, hvalue⟩

theorem Below.sub_of_le (hx : Below k x) (hy : Below k y) (hk : k < 1024)
    (h : value y ≤ value x) : Below k (x - y) := by
  obtain ⟨hwithin, -⟩ := hx.sub hy hk
  refine ⟨⟨hwithin.finite, ?_⟩, (le_abs_self _).trans hwithin.le⟩
  exact signOf_sub (proper_unpack hx.amount.finite) (proper_unpack hy.amount.finite)
    hx.amount.positive hy.amount.positive h

theorem Within.sub (hx : Within k x) (hy : Within k y) (hk : k + 1 < 1024) :
    Within (k + 1) (x - y) ∧ value (x - y) = rounded (value x - value y) := by
  have hle : |value x - value y| ≤ 2 ^ (k + 1) := by
    rw [pow_succ]
    linarith [abs_sub (value x) (value y), hx.le, hy.le]
  have hround := abs_rounded_le (representable_two_pow (k + 1)) hle
  obtain ⟨hfinite, hvalue⟩ := isFinite_sub hx.finite hy.finite
    (hround.trans_lt (pow_lt_pow_right₀ one_lt_two hk))
  exact ⟨⟨hfinite, hvalue ▸ hround⟩, hvalue⟩

theorem Within.mul (hx : Within j x) (hy : Within k y) (hk : j + k < 1024) :
    Within (j + k) (x * y) ∧ value (x * y) = rounded (value x * value y) := by
  have hle : |value x * value y| ≤ 2 ^ (j + k) := by
    rw [abs_mul, pow_add]
    exact mul_le_mul hx.le hy.le (abs_nonneg _) (by positivity)
  have hround := abs_rounded_le (representable_two_pow (j + k)) hle
  obtain ⟨hfinite, hvalue⟩ := isFinite_mul hx.finite hy.finite
    (hround.trans_lt (pow_lt_pow_right₀ one_lt_two hk))
  exact ⟨⟨hfinite, hvalue ▸ hround⟩, hvalue⟩

/-- A quotient is bounded where the dividend is at most that many times the divisor. -/
theorem Within.div (hx : x.isFinite = true) (hy : Amount y) (hpos : 0 < value y)
    (hle : |value x| ≤ 2 ^ k * value y) (hk : k < 1024) :
    Within k (x / y) ∧ value (x / y) = rounded (value x / value y) := by
  have hquotient : |value x / value y| ≤ 2 ^ k := by
    rwa [abs_div, abs_of_pos hpos, div_le_iff₀ hpos]
  have hround := abs_rounded_le (representable_two_pow k) hquotient
  obtain ⟨hfinite, hvalue⟩ := isFinite_div hx hy.finite hpos.ne'
    (hround.trans_lt (pow_lt_pow_right₀ one_lt_two hk))
  exact ⟨⟨hfinite, hvalue ▸ hround⟩, hvalue⟩

/-- Differences of amounts are in the order of the differences of their numbers. -/
theorem Below.sub_le_sub {u v : Float} (hx : Below k x) (hy : Below k y) (hu : Below k u)
    (hv : Below k v) (hk : k < 1024) (h : value x - value y ≤ value u - value v) :
    x - y ≤ u - v := by
  obtain ⟨⟨hleft, -⟩, hvalue⟩ := hx.sub hy hk
  obtain ⟨⟨hright, -⟩, hvalue'⟩ := hu.sub hv hk
  rw [le_iff_value hleft hright, hvalue, hvalue']
  exact rounded_mono h

theorem Below.self_sub_le_iff {u : Float} (hu : Below k u) (hx : Below k x) (hy : Below k y)
    (hk : k < 1024) : u - u ≤ x - y ↔ y ≤ x := by
  obtain ⟨⟨hleft, -⟩, hvalue⟩ := hu.sub hu hk
  obtain ⟨⟨hright, -⟩, hvalue'⟩ := hx.sub hy hk
  rw [sub_self, rounded_of_representable representable_zero] at hvalue
  rw [le_iff_value hleft hright, hvalue, hvalue', le_iff_value hy.amount.finite hx.amount.finite]
  exact rounded_sub_nonneg_iff (representable_value hx.amount.finite)
    (representable_value hy.amount.finite)

theorem Below.sub_le_self_iff {u : Float} (hu : Below k u) (hx : Below k x) (hy : Below k y)
    (hk : k < 1024) : x - y ≤ u - u ↔ x ≤ y := by
  obtain ⟨⟨hleft, -⟩, hvalue⟩ := hx.sub hy hk
  obtain ⟨⟨hright, -⟩, hvalue'⟩ := hu.sub hu hk
  rw [sub_self, rounded_of_representable representable_zero] at hvalue'
  rw [le_iff_value hleft hright, hvalue, hvalue', le_iff_value hx.amount.finite hy.amount.finite]
  exact rounded_sub_nonpos_iff (representable_value hx.amount.finite)
    (representable_value hy.amount.finite)

theorem below_mul_self (hx : Within k x) (hk : k + k < 1024) :
    Below (k + k) (x * x) ∧ value (x * x) = rounded (value x * value x) := by
  have hsquare : value x * value x ≤ 2 ^ (k + k) := by
    rw [← abs_mul_abs_self, pow_add]
    exact mul_le_mul hx.le hx.le (abs_nonneg _) (by positivity)
  obtain ⟨hamount, hvalue⟩ := amount_mul_self hx.finite (rounded_lt_of_le hk hsquare)
  exact ⟨⟨hamount, hvalue ▸ rounded_le (representable_two_pow _) hsquare⟩, hvalue⟩

/-- A sum of small amounts is bounded however many there are, and is no less than each of them. -/
theorem below_foldl_add {α : Type} (g : α → Float) {l : List α} {s : Float} (hk : k + 54 < 1023)
    (h : ∀ a ∈ l, (g a).isFinite = true ∧ 0 ≤ value (g a) ∧ value (g a) ≤ 2 ^ k)
    (hs : Below (k + 54) s) :
    Below (k + 54) (l.foldl (fun s a => s + g a) s) ∧
      value s ≤ value (l.foldl (fun s a => s + g a) s) ∧
      ∀ a ∈ l, value (g a) ≤ value (l.foldl (fun s a => s + g a) s) := by
  induction l generalizing s with
  | nil => exact ⟨hs, le_rfl, fun a ha => nomatch ha⟩
  | cons a l ih =>
    obtain ⟨hfinite, hnonneg, hle⟩ := h a List.mem_cons_self
    obtain ⟨hsum, hvalue⟩ := hs.add_small hfinite hnonneg hle hk
    have hstart : value s ≤ value (s + g a) := by
      rw [hvalue]
      exact le_rounded (representable_value hs.amount.finite) (by linarith)
    have hadded : value (g a) ≤ value (s + g a) := by
      rw [hvalue]
      exact le_rounded (representable_value hfinite) (by linarith [hs.amount.nonneg])
    obtain ⟨hbelow, hfrom, hall⟩ := ih (fun b hb => h b (List.mem_cons_of_mem a hb)) hsum
    refine ⟨hbelow, hstart.trans hfrom, fun b hb => ?_⟩
    rcases List.mem_cons.mp hb with rfl | hb
    · exact hadded.trans hfrom
    · exact hall b hb

theorem Amount.add_or_infinity (hx : Amount x) (hy : Amount y) :
    (Amount (x + y) ∧ value x ≤ value (x + y) ∧ value y ≤ value (x + y)) ∨
      (x + y).toModel.unpack = .infinity .positive := by
  by_cases hlt : rounded (value x + value y) < 2 ^ 1024
  · left
    obtain ⟨hsum, hvalue⟩ := hx.add hy.finite hy.nonneg hlt
    rw [hvalue]
    exact ⟨hsum, le_rounded (representable_value hx.finite) (by linarith [hy.nonneg]),
      le_rounded (representable_value hy.finite) (by linarith [hx.nonneg])⟩
  · right
    exact (approximates_add (proper_unpack hx.finite) (proper_unpack hy.finite)).large
      (not_lt.mp hlt)

theorem Amount.infinity_add (hy : Amount y) (hx : x.toModel.unpack = .infinity .positive) :
    (x + y).toModel.unpack = .infinity .positive := by
  have hpack : (Float.Model.pack (.infinity .positive)).unpack = .infinity .positive := rfl
  have hproper := proper_unpack hy.finite
  change (Float.Model.pack (UnpackedFloat.add .binary64 x.toModel.unpack y.toModel.unpack)).unpack
    = _
  rw [hx]
  cases hu : y.toModel.unpack with
  | zero s => exact hpack
  | finite s m e hm => exact hpack
  | _ => rw [hu] at hproper; cases hproper

theorem foldl_add_infinity {xs : List Float} (h : ∀ x ∈ xs, Amount x) {s : Float}
    (hs : s.toModel.unpack = .infinity .positive) :
    (xs.foldl (· + ·) s).toModel.unpack = .infinity .positive := by
  induction xs generalizing s with
  | nil => exact hs
  | cons y xs ih =>
    obtain ⟨hy, hxs⟩ := List.forall_mem_cons.mp h
    exact ih hxs (hy.infinity_add hs)

/-- A sum of amounts is no less than each of them, unless it is too large for a double. -/
theorem foldl_add_or_infinity {xs : List Float} (h : ∀ x ∈ xs, Amount x) {s : Float}
    (hs : Amount s) :
    (Amount (xs.foldl (· + ·) s) ∧ ∀ x ∈ s :: xs, value x ≤ value (xs.foldl (· + ·) s)) ∨
      (xs.foldl (· + ·) s).toModel.unpack = .infinity .positive := by
  induction xs generalizing s with
  | nil => exact .inl ⟨hs, by simp⟩
  | cons y xs ih =>
    obtain ⟨hy, hxs⟩ := List.forall_mem_cons.mp h
    rw [List.foldl_cons]
    rcases hs.add_or_infinity hy with ⟨hsum, hstart, hadded⟩ | hinfinity
    · rcases ih hxs hsum with ⟨htotal, hall⟩ | hinfinity
      · obtain ⟨hfrom, hrest⟩ := List.forall_mem_cons.mp hall
        refine .inl ⟨htotal, ?_⟩
        simp only [List.forall_mem_cons]
        exact ⟨hstart.trans hfrom, hadded.trans hfrom, hrest⟩
      · exact .inr hinfinity
    · exact .inr (foldl_add_infinity hxs hinfinity)

end Placement.Double
