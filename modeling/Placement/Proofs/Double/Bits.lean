import Mathlib
import Placement.Proofs.Double.Amount

/-!
# Bits of amounts

The bits of an amount are its exponent field followed by its fraction, without a sign bit. A larger
field stands for a larger number whatever the fractions are, so amounts are in the order of their
bits read as whole numbers. Bits with a sign and bits of what is not finite are not treated.
-/
namespace Placement.Double
open Float.Model (UnpackedFloat)
open Float.Model.UnpackedFloat

theorem signOf_ofFields {s : Sign} {field fraction : ℕ} (h : field < 2047) :
    signOf (ofFields s field fraction) = s := by
  unfold ofFields
  rw [if_neg (by omega)]
  split
  · split <;> rfl
  · rfl

theorem field_lt_of_isFinite {s : Sign} {field fraction : ℕ} (hfield : field < 2 ^ 11)
    (h : (ofFields s field fraction).isFinite = true) : field < 2047 := by
  by_contra hlast
  obtain rfl : field = 2047 := by omega
  unfold ofFields at h
  rw [if_pos rfl] at h
  split at h <;> cases h

theorem toReal_ofFields {field fraction : ℕ} (h : field < 2047) :
    toReal (ofFields .positive field fraction) =
      ((if field = 0 then fraction else 2 ^ 52 + fraction : ℕ) : ℝ) *
        2 ^ ((max 1 field : ℕ) - 1075 : ℤ) := by
  unfold ofFields
  rw [if_neg (by omega)]
  by_cases hfirst : field = 0
  · subst hfirst
    by_cases hzero : fraction = 0
    · simp [hzero, toReal]
    · simp [hzero, toReal, signed]
  · have hmax : max 1 field = field := by omega
    simp [hfirst, toReal, signed, hmax]

theorem toReal_ofFields_lt {f g m n : ℕ} (hm : m < 2 ^ 52) (hn : n < 2 ^ 52) (hg : g < 2047)
    (h : f * 2 ^ 52 + m < g * 2 ^ 52 + n) :
    toReal (ofFields .positive f m) < toReal (ofFields .positive g n) := by
  rw [toReal_ofFields (by omega), toReal_ofFields hg]
  by_cases hexp : max 1 f = max 1 g
  · have hlt : (if f = 0 then m else 2 ^ 52 + m) < (if g = 0 then n else 2 ^ 52 + n) := by
      split <;> split <;> omega
    rw [hexp]
    gcongr
  · -- the smaller exponent is made up for by no significand, since that has at most 53 bits
    have hle : ((max 1 f : ℕ) - 1075 + 1 : ℤ) ≤ (max 1 g : ℕ) - 1075 := by omega
    have hupper : (if f = 0 then m else 2 ^ 52 + m) < 2 ^ 53 := by split <;> omega
    have hlower : 2 ^ 52 ≤ (if g = 0 then n else 2 ^ 52 + n) := by split <;> omega
    calc ((if f = 0 then m else 2 ^ 52 + m : ℕ) : ℝ) * 2 ^ ((max 1 f : ℕ) - 1075 : ℤ)
        < (2 ^ 53 : ℕ) * 2 ^ ((max 1 f : ℕ) - 1075 : ℤ) := by gcongr
      _ = (2 ^ 52 : ℕ) * 2 ^ ((max 1 f : ℕ) - 1075 + 1 : ℤ) := by
        rw [zpow_add₀ two_ne_zero]
        push_cast
        ring
      _ ≤ (if g = 0 then n else 2 ^ 52 + n : ℕ) * 2 ^ ((max 1 g : ℕ) - 1075 : ℤ) := by
        gcongr
        exact one_le_two

variable {x y : Float}

theorem Amount.toBits_eq (hx : Amount x) :
    ∃ field fraction, field < 2047 ∧ fraction < 2 ^ 52 ∧
      x.toBits.toNat = field * 2 ^ 52 + fraction ∧
      value x = toReal (ofFields .positive field fraction) := by
  have hfinite : x.toModel.unpack.isFinite = true := hx.finite
  have hsign := hx.positive
  have hunpack : x.toModel.unpack = _ := unpack_eq_ofFields x.toModel.toBits.toBitVec
  rw [hunpack] at hfinite hsign
  have hfield := field_lt_of_isFinite (BitVec.isLt _) hfinite
  rw [signOf_ofFields hfield] at hsign
  have hzero : (@unpackSign .binary64 x.toModel.toBits.toBitVec).toNat = 0 := by
    rcases BitVec.eq_zero_or_eq_one (@unpackSign .binary64 x.toModel.toBits.toBitVec) with h | h
    · rw [h]
      rfl
    · rw [h] at hsign
      cases hsign
  refine ⟨_, _, hfield, (@unpackMantissa .binary64 x.toModel.toBits.toBitVec).isLt, ?_, ?_⟩
  · have hlt := x.toModel.toBits.toBitVec.isLt
    change x.toModel.toBits.toBitVec.toNat = _
    rw [toNat_unpackSign] at hzero
    rw [toNat_unpackExponent, toNat_unpackMantissa]
    omega
  · rw [value, hunpack, hsign]

/-- The sign bit of an amount is not set. -/
theorem Amount.toBits_lt (hx : Amount x) : x.toBits < 0x8000000000000000 := by
  obtain ⟨field, fraction, hfield, hfraction, hbits, -⟩ := hx.toBits_eq
  rw [UInt64.lt_iff_toNat_lt, hbits]
  change _ < 0x8000000000000000
  omega

theorem Amount.value_le_of_toBits_le (hx : Amount x) (hy : Amount y) (h : x.toBits ≤ y.toBits) :
    value x ≤ value y := by
  obtain ⟨f, m, -, hm, hxbits, hxvalue⟩ := hx.toBits_eq
  obtain ⟨g, n, hg, hn, hybits, hyvalue⟩ := hy.toBits_eq
  rw [UInt64.le_iff_toNat_le, hxbits, hybits] at h
  rw [hxvalue, hyvalue]
  rcases h.lt_or_eq with hlt | heq
  · exact (toReal_ofFields_lt hm hn hg hlt).le
  · obtain ⟨rfl, rfl⟩ : f = g ∧ m = n := by omega
    exact le_rfl

end Placement.Double
