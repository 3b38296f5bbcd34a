import Mathlib
import Placement.Proofs.Double.Amount

/-!
# Whole numbers as amounts

A whole number becomes the nearest double, an infinity from `2 ^ 1024` on. Words never come near
this; how many nodes there are is not bounded, so dividing by their number covers both.
-/
namespace Placement.Double
open Float.Model (UnpackedFloat Format)
open Float.Model.UnpackedFloat

theorem approximates_ofNat_model (n : ℕ) :
    Approximates n (Float.Model.pack (UnpackedFloat.ofNat .binary64 n)).unpack := by
  have hnorm := approximates_normalize n 0 .positive
  rwa [zpow_zero, mul_one, Int.cast_natCast] at hnorm

theorem amount_of_ofNat_model {x : Float} {n k : ℕ}
    (hx : x.toModel = Float.Model.pack (UnpackedFloat.ofNat .binary64 n)) (hn : n ≤ 2 ^ k)
    (hk : k < 1024) : Below k x ∧ value x = rounded n := by
  have hle : (n : ℝ) ≤ 2 ^ k := by exact_mod_cast hn
  have hsign : signOf x.toModel.unpack = .positive := by
    rw [hx]
    exact signOf_normalize (Int.natCast_nonneg n) 0
  have happrox := approximates_ofNat_model n
  rw [← hx] at happrox
  obtain ⟨hamount, hvalue⟩ := amount_of_approximates happrox (Nat.cast_nonneg n)
    (rounded_lt_of_le hk hle) hsign
  exact ⟨⟨hamount, hvalue ▸ rounded_le (representable_two_pow k) hle⟩, hvalue⟩

theorem below_toFloat_uint32 (n : UInt32) :
    Below 32 n.toFloat ∧ value n.toFloat = rounded n.toNat :=
  amount_of_ofNat_model rfl n.toNat_lt.le (by norm_num)

theorem below_toFloat_uint64 (n : UInt64) :
    Below 64 n.toFloat ∧ value n.toFloat = rounded n.toNat :=
  amount_of_ofNat_model rfl n.toNat_lt.le (by norm_num)

theorem representable_one : Representable 1 := by
  simpa using representable_two_zpow (e := 0) (by norm_num)

theorem one_le_rounded_natCast {n : ℕ} (hn : 0 < n) : 1 ≤ rounded n :=
  le_rounded representable_one (by exact_mod_cast hn)

theorem one_le_toFloat_uint32 {n : UInt32} (h : n ≠ 0) : 1 ≤ value n.toFloat := by
  have hn : n.toNat ≠ 0 := fun he => h (UInt32.toNat_inj.mp he)
  rw [(below_toFloat_uint32 n).2]
  exact one_le_rounded_natCast (Nat.pos_of_ne_zero hn)

theorem one_le_toFloat_uint64 {n : UInt64} (h : n ≠ 0) : 1 ≤ value n.toFloat := by
  have hn : n.toNat ≠ 0 := fun he => h (UInt64.toNat_inj.mp he)
  rw [(below_toFloat_uint64 n).2]
  exact one_le_rounded_natCast (Nat.pos_of_ne_zero hn)

theorem unpack_one : (1.0 : Float).toModel.unpack =
    .finite .positive 4503599627370496 (-52) (by decide) := rfl

theorem unpack_zero : (0.0 : Float).toModel.unpack = .zero .positive := rfl

theorem amount_one : Amount 1.0 := ⟨rfl, rfl⟩

theorem amount_zero : Amount 0.0 := ⟨rfl, rfl⟩

theorem value_one : value 1.0 = 1 := by
  rw [value, unpack_one]
  norm_num [toReal, signed]

theorem value_zero : value 0.0 = 0 := by
  rw [value, unpack_zero]
  rfl

theorem below_zero (k : ℕ) : Below k 0.0 := ⟨amount_zero, by rw [value_zero]; positivity⟩

theorem below_one : Below 0 1.0 := ⟨amount_one, by rw [value_one, pow_zero]⟩

theorem Amount.ne_zero {x : Float} (hx : Amount x) (hpos : 0 < value x) : (x == 0.0) = false := by
  refine Bool.eq_false_iff.mpr fun h => ?_
  rw [beq_iff_value hx.finite amount_zero.finite, value_zero] at h
  exact hpos.ne' h

theorem ne_infinity {x : Float} (hx : x.isFinite = true) : (x == 1.0 / 0.0) = false := by
  have hproper := proper_unpack hx
  change (x.toModel.unpack.compare (.infinity .positive) == some .eq) = false
  cases hu : x.toModel.unpack with
  | zero s => rfl
  | finite s m e hm => cases s <;> rfl
  | infinity s => rw [hu] at hproper; cases hproper
  | notANumber => rfl

theorem zero_lt_neg_iff {x : Float} : 0.0 < -x ↔ x < 0.0 := by
  rw [lt_iff, lt_iff, unpack_neg, unpack_zero]
  cases x.toModel.unpack with
  | zero s => cases s <;> rfl
  | finite s m e hm => cases s <;> simp [UnpackedFloat.neg, UnpackedFloat.compare]
  | infinity s => cases s <;> decide
  | notANumber => decide

theorem amount_ofNat_of_lt {n : ℕ} (hn : n < 2 ^ 53) :
    Amount (Float.ofNat n) ∧ value (Float.ofNat n) = n := by
  have hpower : Float.ofBits 0x3FF0000000000000 = 1.0 := by decide +kernel
  have hofNat : Float.ofNat n = n.toUInt64.toFloat * 1.0 := by
    change Float.ofScientific n false 0 = _
    unfold Float.ofScientific
    rw [dif_pos ⟨hn, by omega⟩, ← hpower]
    rfl
  have hword : n.toUInt64.toNat = n := UInt64.toNat_ofNat_of_lt' (by
    change n < 2 ^ 64
    omega)
  obtain ⟨hbelow, hvalue⟩ := below_toFloat_uint64 n.toUInt64
  rw [hword, rounded_of_representable (representable_natCast hn.le)] at hvalue
  have hproduct : value n.toUInt64.toFloat * value 1.0 = n := by rw [value_one, mul_one, hvalue]
  have hround : rounded (value n.toUInt64.toFloat * value 1.0) = n := by
    rw [hproduct, rounded_of_representable (representable_natCast hn.le)]
  have hle : (n : ℝ) ≤ 2 ^ 53 := by exact_mod_cast hn.le
  obtain ⟨hamount, hvalue'⟩ := hbelow.amount.mul amount_one
    (hround ▸ hle.trans_lt (pow_lt_pow_right₀ one_lt_two (by norm_num)))
  rw [hofNat]
  exact ⟨hamount, hvalue'.trans hround⟩

/-- A whole number times a power of ten that is not beyond all doubles by far. -/
theorem rounds_ofScientific {n k : ℕ} (hn : 0 < n) (hk : k ≤ 2 ^ 11) :
    Rounds .positive (n * 10 ^ k)
      (Float.Model.pack (UnpackedFloat.ofScientific .binary64 n k)).unpack := by
  have hscale : (((n <<< 53) * 10 ^ (k : ℤ).toNat : ℕ) : ℝ) * 2 ^ (-(53 : ℕ) + 0 : ℤ) =
      n * 10 ^ k := by
    rw [Nat.shiftLeft_eq, Int.toNat_natCast]
    push_cast
    norm_num
    ring
  have hpos : 0 < (n <<< 53) * 10 ^ (k : ℤ).toNat :=
    Nat.mul_pos (Nat.shiftLeft_pos_iff.mpr hn) (by positivity)
  have hexp : (-(53 : ℕ) + 0 : ℤ) ≤ exponent (n * 10 ^ k) := by
    have hone : (1 : ℝ) ≤ n * 10 ^ k := by exact_mod_cast Nat.mul_pos hn (by positivity)
    apply le_exponent_of_two_zpow_le
    rw [abs_of_nonneg (by positivity)]
    exact (by norm_num : (2 : ℝ) ^ (-(53 : ℕ) + 0 + 52 : ℤ) ≤ 1).trans hone
  have hrounds := rounds_exact .positive hpos (by rw [hscale]; exact hexp)
  rw [hscale] at hrounds
  have hbits : (2 : ℤ) ^ Format.binary64.exponentBits = 2 ^ 11 := rfl
  unfold UnpackedFloat.ofScientific
  rw [dif_neg hn.ne', if_neg (by rw [hbits]; norm_num at hk ⊢; omega),
    if_neg (by rw [hbits]; omega), if_pos (Int.natCast_nonneg k)]
  exact hrounds

theorem rounds_ofNat_of_le {n : ℕ} (hn : 2 ^ 53 ≤ n) :
    Rounds .positive n (Float.ofNat n).toModel.unpack := by
  have hofNat : (Float.ofNat n).toModel =
      Float.Model.pack (UnpackedFloat.ofScientific .binary64 n (0 : ℕ)) := by
    change (Float.ofScientific n false 0).toModel = _
    unfold Float.ofScientific
    rw [dif_neg (by omega)]
    rfl
  have hrounds := rounds_ofScientific (n := n) (k := 0) (by omega) (by norm_num)
  rw [pow_zero, mul_one] at hrounds
  rwa [hofNat]

theorem value_infinity {x : Float} (h : x.toModel.unpack = .infinity .positive) : value x = 0 := by
  rw [value, h]
  rfl

theorem unpack_div_infinity {x y : Float} (hx : x.isFinite = true)
    (hy : y.toModel.unpack = .infinity .positive) :
    (x / y).toModel.unpack = .zero (signOf x.toModel.unpack) := by
  have hproper := proper_unpack hx
  have hpack (s : Sign) : (Float.Model.pack (.zero s)).unpack = .zero s :=
    unpack_pack_proper (u := .zero s) trivial
  change (Float.Model.pack (UnpackedFloat.div .binary64 x.toModel.unpack y.toModel.unpack)).unpack
    = _
  rw [hy]
  cases hu : x.toModel.unpack with
  | zero s => cases s <;> exact hpack _
  | finite s m e hm => cases s <;> exact hpack _
  | _ => rw [hu] at hproper; cases hproper

theorem isFinite_div_infinity {x y : Float} (hx : x.isFinite = true)
    (hy : y.toModel.unpack = .infinity .positive) :
    (x / y).isFinite = true ∧ value (x / y) = 0 := by
  have hzero := unpack_div_infinity hx hy
  constructor
  · apply isFinite_of_proper
    rw [hzero]
    trivial
  · rw [value, hzero]
    rfl

theorem Amount.div_infinity {x y : Float} (hx : Amount x)
    (hy : y.toModel.unpack = .infinity .positive) : Amount (x / y) ∧ value (x / y) = 0 := by
  obtain ⟨hfinite, hvalue⟩ := isFinite_div_infinity hx.finite hy
  refine ⟨⟨hfinite, ?_⟩, hvalue⟩
  rw [unpack_div_infinity hx.finite hy]
  exact hx.positive

theorem ofNat_spec {n : ℕ} (hn : 0 < n) :
    (Amount (Float.ofNat n) ∧ 1 ≤ value (Float.ofNat n)) ∨
      (Float.ofNat n).toModel.unpack = .infinity .positive := by
  by_cases hsmall : n < 2 ^ 53
  · obtain ⟨hamount, hvalue⟩ := amount_ofNat_of_lt hsmall
    refine .inl ⟨hamount, ?_⟩
    rw [hvalue]
    exact_mod_cast hn
  · have hrounds := rounds_ofNat_of_le (not_lt.mp hsmall)
    by_cases hlt : rounded n < 2 ^ 1024
    · refine .inl ⟨⟨isFinite_of_proper (hrounds.proper hlt), hrounds.sign⟩, ?_⟩
      exact (one_le_rounded_natCast hn).trans_eq (hrounds.value hlt).symm
    · exact .inr (hrounds.large (not_lt.mp hlt))

theorem ofNat_ne_zero {n : ℕ} (hn : 0 < n) : (Float.ofNat n == 0.0) = false := by
  rcases ofNat_spec hn with ⟨hamount, hone⟩ | hinfinity
  · exact hamount.ne_zero (by linarith)
  · change ((Float.ofNat n).toModel.unpack.compare (0.0 : Float).toModel.unpack == some .eq) = false
    rw [hinfinity]
    rfl

/-- Dividing by how many there are, be they too many for a double. -/
theorem Below.div_ofNat {k n : ℕ} {x : Float} (hx : Below k x) (hn : 0 < n) (hk : k < 1024) :
    Below k (x / Float.ofNat n) := by
  rcases ofNat_spec hn with ⟨hamount, hone⟩ | hinfinity
  · exact (hx.div hamount hone hk).1
  · obtain ⟨hamount, hvalue⟩ := hx.amount.div_infinity hinfinity
    exact ⟨hamount, by rw [hvalue]; positivity⟩

theorem Below.div_ofNat_mono {k n : ℕ} {x y : Float} (hx : Below k x) (hy : Below k y)
    (hn : 0 < n) (hk : k < 1024) (h : value x ≤ value y) :
    value (x / Float.ofNat n) ≤ value (y / Float.ofNat n) := by
  rcases ofNat_spec hn with ⟨hamount, hone⟩ | hinfinity
  · rw [(hx.div hamount hone hk).2, (hy.div hamount hone hk).2]
    exact rounded_mono (div_le_div_of_nonneg_right h hamount.nonneg)
  · rw [(hx.amount.div_infinity hinfinity).2, (hy.amount.div_infinity hinfinity).2]

/-- A part of a total is a share of it, and none of it where the total is too large for a double. -/
theorem Amount.div_total {x t : Float} (hx : Amount x) (hne : (t == 0.0) = false)
    (h : (Amount t ∧ value x ≤ value t) ∨ t.toModel.unpack = .infinity .positive) :
    Below 0 (x / t) ∧ value (x / t) = rounded (value x / value t) := by
  rcases h with ⟨ht, hle⟩ | hinfinity
  · have hpos : 0 < value t := by
      refine lt_of_le_of_ne ht.nonneg fun hzero => Bool.eq_false_iff.mp hne ?_
      exact (beq_iff_value ht.finite amount_zero.finite).mpr (hzero.symm.trans value_zero.symm)
    have hone : rounded (value x / value t) ≤ 1 :=
      rounded_le representable_one ((div_le_one hpos).mpr hle)
    obtain ⟨hshare, hvalue⟩ :=
      hx.div ht hpos (hone.trans_lt (one_lt_pow₀ one_lt_two (by norm_num)))
    exact ⟨⟨hshare, by rwa [hvalue, pow_zero]⟩, hvalue⟩
  · obtain ⟨hshare, hvalue⟩ := hx.div_infinity hinfinity
    refine ⟨⟨hshare, by rw [hvalue]; positivity⟩, ?_⟩
    rw [hvalue, value_infinity hinfinity, div_zero, rounded_of_representable representable_zero]

end Placement.Double
