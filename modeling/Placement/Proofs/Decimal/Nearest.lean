import Mathlib
import Placement.Proofs.Decimal.Literal
import Placement.Proofs.Decimal.Scaling
import Placement.Proofs.Double.Neighbourhood

/-!
# The double nearest to a literal

Reading a literal to the nearest double rounds its exact value once, whatever the size of the
significand and of the exponent: what is beyond the largest double is infinite, and what is too
small for the least one is zero.
-/
namespace Placement.Decimal.Literal
open Double
open Float.Model (UnpackedFloat Format)
open Float.Model.UnpackedFloat

variable {n k : ℕ} {x : Float} {l : Literal}

theorem rounds_of_amount {q : ℝ} (hx : Amount x) (hlt : rounded q < 2 ^ 1024)
    (hvalue : Double.value x = rounded q) : Rounds .positive q x.toModel.unpack :=
  ⟨hx.positive, fun _ => proper_unpack hx.finite, fun _ => hvalue,
    fun hlarge => absurd hlt (not_lt.mpr hlarge)⟩

theorem powersOfTen_get? :
    ∀ k < 23, Float.exactlyRepresentablePowersOfTen[k]? = some (powerOfTen k) := by
  decide +kernel

theorem ofScientific_of_small (hn : n < 2 ^ 53) (hk : k ≤ 22) (negative : Bool) :
    Float.ofScientific n negative k =
      if negative then n.toUInt64.toFloat / powerOfTen k
      else n.toUInt64.toFloat * powerOfTen k := by
  obtain ⟨hbound, hpower⟩ := Array.getElem?_eq_some_iff.mp (powersOfTen_get? k (by omega))
  unfold Float.ofScientific
  rw [dif_pos ⟨hn, hk⟩]
  simp only [hpower]

theorem ofScientific_of_large (h : ¬ (n < 2 ^ 53 ∧ k ≤ 22)) (negative : Bool) :
    (Float.ofScientific n negative k).toModel = Float.Model.pack
      (UnpackedFloat.ofScientific .binary64 n (if negative then -k else k)) := by
  unfold Float.ofScientific
  rw [dif_neg h]
  have hneg : Int.negOfNat k = -(k : ℤ) := Int.negOfNat_eq
  cases negative
  · rfl
  · simp only [if_true, hneg]
    rfl

theorem below_toUInt64 (hn : n < 2 ^ 53) :
    Below 64 n.toUInt64.toFloat ∧ Double.value n.toUInt64.toFloat = n := by
  have hword : n.toUInt64.toNat = n := UInt64.toNat_ofNat_of_lt' (by
    change n < 2 ^ 64
    omega)
  obtain ⟨hbelow, hvalue⟩ := below_toFloat_uint64 n.toUInt64
  rw [hword, rounded_of_representable (representable_natCast hn.le)] at hvalue
  exact ⟨hbelow, hvalue⟩

theorem below_powerOfTen (hk : k ≤ 22) :
    Below 88 (powerOfTen k) ∧ Double.value (powerOfTen k) = 10 ^ k := by
  have hvalue := value_powerOfTen hk
  refine ⟨⟨(powerOfTen_spec (hk.trans (by decide))).1, ?_⟩, hvalue⟩
  calc Double.value (powerOfTen k) = 10 ^ k := hvalue
    _ ≤ 10 ^ 22 := pow_le_pow_right₀ (by norm_num) hk
    _ ≤ 2 ^ 88 := by norm_num

/-- Significand and power are both exact, so their product is the only number to be rounded. -/
theorem rounds_mul_powerOfTen (hn : n < 2 ^ 53) (hk : k ≤ 22) :
    Rounds .positive (n * 10 ^ k) (n.toUInt64.toFloat * powerOfTen k).toModel.unpack := by
  obtain ⟨hbelow, hvalue⟩ := below_toUInt64 hn
  obtain ⟨hpower, hvalue'⟩ := below_powerOfTen hk
  obtain ⟨hproduct, heq⟩ := hbelow.mul hpower (by norm_num)
  rw [hvalue, hvalue'] at heq
  exact rounds_of_amount hproduct.amount
    (heq ▸ hproduct.le.trans_lt (pow_lt_pow_right₀ one_lt_two (by norm_num))) heq

@[inherit_doc rounds_mul_powerOfTen]
theorem rounds_div_powerOfTen (hn : n < 2 ^ 53) (hk : k ≤ 22) :
    Rounds .positive (n / 10 ^ k) (n.toUInt64.toFloat / powerOfTen k).toModel.unpack := by
  obtain ⟨hbelow, hvalue⟩ := below_toUInt64 hn
  obtain ⟨hpower, hvalue'⟩ := below_powerOfTen hk
  have hone : 1 ≤ Double.value (powerOfTen k) := by
    rw [hvalue']
    exact one_le_pow₀ (by norm_num)
  obtain ⟨hquotient, heq⟩ := hbelow.div hpower.amount hone (by norm_num)
  rw [hvalue, hvalue'] at heq
  exact rounds_of_amount hquotient.amount
    (heq ▸ hquotient.le.trans_lt (pow_lt_pow_right₀ one_lt_two (by norm_num))) heq

/-- So far beyond the largest double that it is not computed any more. -/
theorem le_rounded_of_large (hn : 0 < n) {e : ℤ} (he : 2 ^ 11 < e) :
    (2 : ℝ) ^ 1024 ≤ rounded (n * 10 ^ e) := by
  refine le_rounded (representable_two_pow 1024) ?_
  calc (2 : ℝ) ^ 1024 = 2 ^ ((1024 : ℕ) : ℤ) := (zpow_natCast 2 1024).symm
    _ ≤ 2 ^ e := zpow_le_zpow_right₀ one_le_two (by norm_num at he ⊢; omega)
    _ ≤ 10 ^ e := zpow_le_zpow_left₀ (by norm_num at he; omega) (by norm_num) (by norm_num)
    _ ≤ n * 10 ^ e := le_mul_of_one_le_left (by positivity) (by exact_mod_cast hn)

theorem rounded_of_tiny {q : ℝ} (hq : 0 ≤ q) (hlt : q < 2 ^ (-1075 : ℤ)) : rounded q = 0 := by
  rcases hq.eq_or_lt with rfl | hpos
  · exact rounded_of_representable representable_zero
  have hexponent : Double.exponent q = -1074 := by
    refine le_antisymm (exponent_le_of_lt_two_zpow hpos.ne' le_rfl ?_) (le_exponent q)
    rw [abs_of_pos hpos]
    exact hlt.trans_le (zpow_le_zpow_right₀ one_le_two (by norm_num))
  have hhalf : q / 2 ^ (-1074 : ℤ) < 1 / 2 := by
    rw [div_lt_iff₀ (by positivity)]
    refine hlt.trans_eq ?_
    rw [show (-1075 : ℤ) = -1 + -1074 by norm_num, zpow_add₀ two_ne_zero]
    norm_num
  have hfloor : ⌊q / 2 ^ (-1074 : ℤ)⌋ = 0 :=
    Int.floor_eq_zero_iff.mpr ⟨by positivity, by linarith⟩
  have hfract : Int.fract (q / 2 ^ (-1074 : ℤ)) = q / 2 ^ (-1074 : ℤ) := by
    rw [Int.fract, hfloor, Int.cast_zero, sub_zero]
  rw [rounded, hexponent, nearest_of_lt (by rwa [hfract]), hfloor, Int.cast_zero, zero_mul]

/-- So small that it is not computed any more. -/
theorem rounded_of_small (n : ℕ) {e : ℤ} (he : e < -(2 ^ 11 + n.log2)) :
    rounded (n * 10 ^ e) = 0 := by
  refine rounded_of_tiny (by positivity) ?_
  have hn : (n : ℝ) < 2 ^ ((n.log2 : ℤ) + 1) := by
    have hlt : n < 2 ^ (n.log2 + 1) := Nat.lt_log2_self
    exact_mod_cast hlt
  have hpower : (10 : ℝ) ^ e ≤ 2 ^ e := by
    have hinv : (2 : ℝ) ^ (-e) ≤ 10 ^ (-e) :=
      zpow_le_zpow_left₀ (by omega) (by norm_num) (by norm_num)
    rw [zpow_neg, zpow_neg] at hinv
    exact (inv_le_inv₀ (by positivity) (by positivity)).mp hinv
  calc (n : ℝ) * 10 ^ e ≤ n * 2 ^ e := by gcongr
    _ < 2 ^ ((n.log2 : ℤ) + 1) * 2 ^ e := by gcongr
    _ = 2 ^ ((n.log2 : ℤ) + 1 + e) := (zpow_add₀ two_ne_zero _ _).symm
    _ ≤ 2 ^ (-1075 : ℤ) := zpow_le_zpow_right₀ one_le_two (by norm_num at he ⊢; omega)

theorem rounds_ofScientific_neg (hn : 0 < n) (hk : 0 < k) :
    Rounds .positive (n * 10 ^ (-k : ℤ))
      (Float.Model.pack (UnpackedFloat.ofScientific .binary64 n (-k))).unpack := by
  have hbits : (2 : ℤ) ^ Format.binary64.exponentBits = 2 ^ 11 := rfl
  unfold UnpackedFloat.ofScientific
  rw [dif_neg hn.ne', if_neg (by rw [hbits]; norm_num), hbits]
  split_ifs with hsmall hnonneg
  · exact rounds_pack_zero (rounded_of_small n hsmall)
  · omega
  · have hpower : 0 < 10 ^ k := Nat.pow_pos (by norm_num)
    have hrounds := rounds_div (d := 0) (e := 0) .positive hn hpower
    have hquotient : (n : ℝ) * 2 ^ (0 : ℤ) / ((10 ^ k : ℕ) * 2 ^ (0 : ℤ)) = n * 10 ^ (-k : ℤ) := by
      rw [zpow_zero, mul_one, mul_one, zpow_neg, zpow_natCast, div_eq_mul_inv]
      push_cast
      rfl
    rw [hquotient] at hrounds
    have hnat : (-(-k : ℤ)).toNat = k := by omega
    simp only [hnat]
    exact hrounds

theorem rounds_ofScientific_nonneg (hn : 0 < n) (k : ℕ) :
    Rounds .positive (n * 10 ^ (k : ℤ))
      (Float.Model.pack (UnpackedFloat.ofScientific .binary64 n k)).unpack := by
  rcases Nat.lt_or_ge (2 ^ 11) k with hlarge | hle
  · have hlarge' : (2 : ℤ) ^ 11 < k := by exact_mod_cast hlarge
    have hrange := le_rounded_of_large hn hlarge'
    have hbits : (2 : ℤ) ^ Format.binary64.exponentBits = 2 ^ 11 := rfl
    unfold UnpackedFloat.ofScientific
    rw [dif_neg hn.ne', if_pos (by rw [hbits]; exact hlarge')]
    exact ⟨rfl, fun hlt => absurd hrange (not_le.mpr hlt),
      fun hlt => absurd hrange (not_le.mpr hlt), fun _ => rfl⟩
  · rw [zpow_natCast]
    exact rounds_ofScientific hn hle

/-- Whatever the significand and the exponent, their number is rounded once. -/
theorem rounds_nearestTo (hn : 0 < n) (e : ℤ) :
    Rounds .positive (n * 10 ^ e) (nearestTo n e).toModel.unpack := by
  unfold nearestTo
  rcases lt_or_ge e 0 with hneg | hnonneg
  · obtain ⟨k, rfl⟩ : ∃ k : ℕ, e = -k := ⟨e.natAbs, by omega⟩
    rw [decide_eq_true hneg, Int.natAbs_neg, Int.natAbs_natCast]
    by_cases hsmall : n < 2 ^ 53 ∧ k ≤ 22
    · rw [ofScientific_of_small hsmall.1 hsmall.2, if_pos rfl, zpow_neg, zpow_natCast,
        ← div_eq_mul_inv]
      exact rounds_div_powerOfTen hsmall.1 hsmall.2
    · rw [ofScientific_of_large hsmall, if_pos rfl]
      exact rounds_ofScientific_neg hn (by omega)
  · obtain ⟨k, rfl⟩ := Int.eq_ofNat_of_zero_le hnonneg
    rw [decide_eq_false (not_lt.mpr hnonneg), Int.natAbs_natCast]
    by_cases hsmall : n < 2 ^ 53 ∧ k ≤ 22
    · rw [ofScientific_of_small hsmall.1 hsmall.2, if_neg Bool.false_ne_true, zpow_natCast]
      exact rounds_mul_powerOfTen hsmall.1 hsmall.2
    · rw [ofScientific_of_large hsmall, if_neg Bool.false_ne_true]
      exact rounds_ofScientific_nonneg hn k

theorem nearestTo_zero (e : ℤ) : nearestTo 0 e = 0.0 := by
  have hzero : ∀ k < 23, (0 : ℕ).toUInt64.toFloat / powerOfTen k = 0.0 ∧
      (0 : ℕ).toUInt64.toFloat * powerOfTen k = 0.0 := by decide +kernel
  unfold nearestTo
  generalize e.natAbs = k
  by_cases hsmall : k ≤ 22
  · rw [ofScientific_of_small (by norm_num) hsmall]
    split_ifs
    · exact (hzero k (by omega)).1
    · exact (hzero k (by omega)).2
  · apply congrArg Float.ofModel (ofScientific_of_large (n := 0) (fun h => hsmall h.2) _)

/-- The significand of a literal, with the digits after the point. -/
def significand (l : Literal) : ℕ := ofDigits (l.whole ++ l.fractionDigits)

/-- The power of ten that goes with the significand of a literal. -/
def scaleExponent (l : Literal) : ℤ := l.exponentValue - l.fractionDigits.length

theorem nearest_eq (l : Literal) :
    l.nearest = signed l.negative (nearestTo l.significand l.scaleExponent) := rfl

theorem nearest_of_zero (h : l.significand = 0) : l.nearest = signed l.negative 0.0 := by
  rw [nearest_eq, h, nearestTo_zero]

variable {m : ℕ} {q e : ℤ} {s : Sign} {hm : 0 < m}

theorem unpack_nearestTo (hm : 0 < m) (hn : 0 < n) (canonical : Canonical m q) (high : q ≤ 971)
    (near : Near m q (n * 10 ^ e)) :
    (nearestTo n e).toModel.unpack = .finite .positive m q hm := by
  have hrounds := rounds_nearestTo hn e
  have hvalue := rounded_of_near near hm canonical
  have hlt : rounded (n * 10 ^ e) < 2 ^ 1024 := by
    rw [hvalue]
    exact (canonical_lt_iff canonical).mpr high
  exact eq_of_toReal_eq (hrounds.proper hlt) ⟨canonical, high⟩ hrounds.sign
    ((hrounds.value hlt).trans hvalue)

/-- Whether a sign is a minus sign. -/
def isMinus : Sign → Bool
  | .negative => true
  | .positive => false

theorem unpack_signed {y : Float} (s : Sign) (hy : y.toModel.unpack = .finite .positive m q hm) :
    (signed (isMinus s) y).toModel.unpack = .finite s m q hm := by
  cases s
  · change (-y).toModel.unpack = _
    rw [unpack_neg, hy]
    rfl
  · exact hy

/-- A literal whose number is near a double is read as that double. -/
theorem nearest_of_near (hx : x.toModel.unpack = .finite s m q hm)
    (sign : l.negative = isMinus s) (hpos : 0 < l.significand)
    (near : Near m q (l.significand * 10 ^ l.scaleExponent)) : l.nearest = x := by
  obtain ⟨canonical, high⟩ := canonical_unpack hx
  have hunpack := unpack_signed s (unpack_nearestTo hm hpos canonical high near)
  rw [nearest_eq, sign]
  exact congrArg Float.ofModel (unpack_injective (hunpack.trans hx.symm))

end Placement.Decimal.Literal
