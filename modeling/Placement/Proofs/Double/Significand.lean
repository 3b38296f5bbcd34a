import Mathlib
import Placement.Proofs.Double.Value

/-!
# How results are rounded

An operation computes a significand and keeps of the rest whether it is nothing, less than a half,
a half, or more. Shifting a significand to the right keeps this true, so what comes out is the
number next to the exact result. The result is packed, and unpacks to infinity when it is too large.
-/
namespace Placement.Double
open Float.Model (UnpackedFloat Format totalExponent)
open Float.Model.UnpackedFloat

theorem describes_ofMantissaAndAccuracy {m : ℕ} {acc : Accuracy} {x : ℝ} (h : Describes m acc x) :
    Describes (ExtendedMantissa.ofMantissaAndAccuracy m acc).mantissa
      (ExtendedMantissa.ofMantissaAndAccuracy m acc).accuracy x := by
  match acc, h with
  | .exact, h => exact h
  | .inexact .lt, h => exact h
  | .inexact .eq, h => exact h
  | .inexact .gt, h => exact h

/-- Half of a number is described by the significand without its last bit, which becomes the bit
after the point. -/
theorem describes_shiftRightOne {em : ExtendedMantissa} {x : ℝ}
    (h : Describes em.mantissa em.accuracy x) :
    Describes em.shiftRightOne.mantissa em.shiftRightOne.accuracy (x / 2) := by
  obtain ⟨m, guard, sticky⟩ := em
  have hm : (m : ℝ) = 2 * (m / 2 : ℕ) + (m % 2 : ℕ) := by exact_mod_cast (Nat.div_add_mod m 2).symm
  rcases Nat.mod_two_eq_zero_or_one m with hmod | hmod
  · have hbit : (m % 2 != 0) = false := by rw [hmod]; rfl
    rw [hmod, Nat.cast_zero] at hm
    cases guard <;> cases sticky <;>
      simp only [Describes, ExtendedMantissa.accuracy, ExtendedMantissa.shiftRightOne, hbit,
        Bool.or_false, Bool.or_true] at h ⊢
    · linarith
    · constructor <;> linarith
    · constructor <;> linarith
    · constructor <;> linarith
  · have hbit : (m % 2 != 0) = true := by rw [hmod]; rfl
    rw [hmod, Nat.cast_one] at hm
    cases guard <;> cases sticky <;>
      simp only [Describes, ExtendedMantissa.accuracy, ExtendedMantissa.shiftRightOne, hbit,
        Bool.or_false, Bool.or_true] at h ⊢
    · linarith
    · constructor <;> linarith
    · constructor <;> linarith
    · constructor <;> linarith

theorem describes_shiftRight {em : ExtendedMantissa} {x : ℝ}
    (h : Describes em.mantissa em.accuracy x) (n : ℕ) :
    Describes (em >>> n).mantissa (em >>> n).accuracy (x / 2 ^ n) := by
  induction n with
  | zero =>
    change Describes em.mantissa em.accuracy _
    simpa using h
  | succ n ih =>
    have hhalf := describes_shiftRightOne ih
    rw [div_div, ← pow_succ] at hhalf
    exact hhalf

/-- A significand has as many bits as the number it stands for has before the point. -/
theorem log_of_describes {m : ℕ} {acc : Accuracy} {x : ℝ} (h : Describes m acc x) (hm : 0 < m)
    (e : ℤ) : Int.log 2 (x * 2 ^ e) = m.log2 + e := by
  obtain ⟨hlo, hhi⟩ := h.bounds
  have hlower : (2 : ℝ) ^ m.log2 ≤ m := by exact_mod_cast Nat.log2_self_le hm.ne'
  have hupper : (m : ℝ) + 1 ≤ 2 ^ (m.log2 + 1) := by exact_mod_cast Nat.lt_log2_self
  have hunit : (0 : ℝ) < 2 ^ e := by positivity
  have hpos : 0 < x * 2 ^ e := by
    have : (0 : ℝ) < m := by exact_mod_cast hm
    nlinarith
  apply le_antisymm
  · rw [← Int.lt_add_one_iff, ← Int.lt_zpow_iff_log_lt (by norm_num) hpos, add_right_comm]
    push_cast
    rw [zpow_add₀ two_ne_zero]
    exact mul_lt_mul_of_pos_right (by exact_mod_cast hhi.trans_le hupper) hunit
  · rw [← Int.zpow_le_iff_le_log (by norm_num) hpos]
    push_cast
    rw [zpow_add₀ two_ne_zero]
    exact mul_le_mul_of_nonneg_right (by exact_mod_cast hlower.trans hlo) hunit.le

theorem targetExponent_eq_max (m : ℕ) (e : ℤ) :
    Format.binary64.targetExponent (totalExponent m e) = max (m.log2 + e - 52) (-1074) := by
  have hbits : ((Format.binary64.mantissaBits : ℕ) : ℤ) = 53 := rfl
  have hleast : Format.binary64.minExponent = -1074 := by decide
  unfold Format.targetExponent totalExponent
  rw [hbits, hleast]
  congr 1
  omega

theorem targetExponent_of_pos {m : ℕ} {acc : Accuracy} {x : ℝ} (h : Describes m acc x)
    (hm : 0 < m) (e : ℤ) :
    Format.binary64.targetExponent (totalExponent m e) = exponent (x * 2 ^ e) := by
  have hx : 0 ≤ x * 2 ^ e := by
    have := (Nat.cast_nonneg m).trans h.bounds.1
    positivity
  rw [targetExponent_eq_max, exponent, abs_of_nonneg hx, log_of_describes h hm]

/-- The exponent that a significand is shifted to is the one of the doubles around the number, also
when nothing is left of the significand. -/
theorem targetExponent_eq {m : ℕ} {acc : Accuracy} {x : ℝ} {e : ℤ} (h : Describes m acc x)
    (hx : 0 < x) (he : e ≤ exponent (x * 2 ^ e)) :
    Format.binary64.targetExponent (totalExponent m e) = exponent (x * 2 ^ e) := by
  rcases Nat.eq_zero_or_pos m with rfl | hm
  · have hpos : 0 < x * 2 ^ e := by positivity
    have hlog : Int.log 2 (x * 2 ^ e) < e := by
      have hhi := h.bounds.2
      rw [← Int.lt_zpow_iff_log_lt (by norm_num) hpos]
      push_cast
      rw [Nat.cast_zero, zero_add] at hhi
      nlinarith [show (0 : ℝ) < 2 ^ e by positivity]
    have hzero : Nat.log2 0 = 0 := rfl
    rw [targetExponent_eq_max]
    unfold exponent at he ⊢
    rw [abs_of_pos hpos] at he ⊢
    omega
  · exact targetExponent_of_pos h hm e

theorem shiftToTargetExponent_describes {m : ℕ} {acc : Accuracy} {x : ℝ} {e : ℤ}
    (h : Describes m acc x) (hx : 0 < x) (he : e ≤ exponent (x * 2 ^ e)) :
    ∃ em, shiftToTargetExponent .binary64 m e acc = (em, exponent (x * 2 ^ e)) ∧
      Describes em.mantissa em.accuracy (x * 2 ^ e / 2 ^ exponent (x * 2 ^ e)) := by
  generalize hE : exponent (x * 2 ^ e) = E at he ⊢
  have hnat : ((E - e).toNat : ℤ) = E - e := Int.toNat_of_nonneg (by omega)
  refine ⟨ExtendedMantissa.ofMantissaAndAccuracy m acc >>> (E - e).toNat, ?_, ?_⟩
  · unfold shiftToTargetExponent shiftToExponent
    rw [targetExponent_eq h hx (by rw [hE]; exact he), hE]
    dsimp only
    rw [hnat, add_sub_cancel]
  · have hquotient : x * 2 ^ e / 2 ^ E = x / 2 ^ (E - e).toNat := by
      rw [← zpow_natCast, hnat, zpow_sub₀ two_ne_zero]
      field_simp
    rw [hquotient]
    exact describes_shiftRight (describes_ofMantissaAndAccuracy h) _

/-- A significand that has been rounded up to one bit more loses its last bit, which is zero. -/
theorem shiftToTargetExponent_exact {k : ℕ} {e : ℤ} (hk : k ≤ 2 ^ 53) (he : -1074 ≤ e) :
    shiftToTargetExponent .binary64 k e .exact =
      if k < 2 ^ 53 then (⟨k, false, false⟩, e) else (⟨2 ^ 52, false, false⟩, e + 1) := by
  unfold shiftToTargetExponent shiftToExponent
  rw [targetExponent_eq_max]
  dsimp only
  split_ifs with hlt
  · have hlog : k.log2 ≤ 52 := by
      rcases Nat.eq_zero_or_pos k with rfl | hpos
      · decide
      · exact Nat.le_of_lt_succ ((Nat.log2_lt hpos.ne').mpr hlt)
    have hshift : (max (k.log2 + e - 52) (-1074) - e).toNat = 0 := by omega
    rw [hshift]
    exact Prod.ext rfl (add_zero e)
  · obtain rfl : k = 2 ^ 53 := by omega
    have hlog : (2 ^ 53 : ℕ).log2 = 53 := Nat.log2_two_pow
    have hshift : (max ((2 ^ 53 : ℕ).log2 + e - 52) (-1074) - e).toNat = 1 := by
      rw [hlog]
      omega
    rw [hshift]
    rfl

theorem nearest_le_two_pow {q : ℝ} {k : ℕ} (hk : nearest (q / 2 ^ exponent q) = k) :
    k ≤ 2 ^ 53 := by
  have hle := (le_abs_self _).trans (abs_nearest_le (n := 2 ^ 53)
    (by exact_mod_cast (abs_div_two_zpow_exponent_lt q).le))
  rw [hk] at hle
  exact_mod_cast hle

/-- Rounding to a double, with the exact result given as a real number. -/
theorem roundWithAccuracy_eq {m k : ℕ} {acc : Accuracy} {x : ℝ} {e : ℤ} (s : Sign)
    (h : Describes m acc x) (hx : 0 < x) (he : e ≤ exponent (x * 2 ^ e))
    (hk : nearest (x * 2 ^ e / 2 ^ exponent (x * 2 ^ e)) = k) :
    roundWithAccuracy .binary64 s m e acc =
      if hzero : k = 0 then .zero s
      else if k < 2 ^ 53 then
        .finite s k (exponent (x * 2 ^ e)) (Nat.pos_of_ne_zero hzero)
      else .finite s (2 ^ 52) (exponent (x * 2 ^ e) + 1) (by decide) := by
  obtain ⟨em, hshift, hem⟩ := shiftToTargetExponent_describes h hx he
  have hround : em.roundedMantissa = k := by
    have hnearest := nearest_of_describes hem
    rw [hk] at hnearest
    exact_mod_cast hnearest.symm
  unfold roundWithAccuracy
  rw [hshift]
  dsimp only
  rw [hround, shiftToTargetExponent_exact (nearest_le_two_pow hk) (le_exponent _)]
  by_cases hzero : k = 0
  · rw [dif_pos hzero, if_pos (by omega), dif_pos hzero]
  rw [dif_neg hzero]
  by_cases hlt : k < 2 ^ 53
  · rw [if_pos hlt, if_pos hlt, dif_neg hzero]
  · rw [if_neg hlt, if_neg hlt]
    rfl

/-- What unpacks from the result of an operation whose exact result is a sign and a number. -/
structure Rounds (s : Sign) (q : ℝ) (u : UnpackedFloat) : Prop where
  sign : signOf u = s
  proper : rounded q < 2 ^ 1024 → Proper u
  value : rounded q < 2 ^ 1024 → toReal u = signed s (rounded q)
  large : 2 ^ 1024 ≤ rounded q → u = .infinity s

/-- A power of two may be counted with the significand or with the exponent. -/
theorem two_pow_mul_two_zpow (e : ℤ) : (2 : ℝ) ^ 53 * 2 ^ e = 2 ^ 52 * 2 ^ (e + 1) := by
  rw [zpow_add₀ two_ne_zero]
  ring

theorem canonical_lt_iff {m : ℕ} {e : ℤ} (h : Canonical m e) :
    (m : ℝ) * 2 ^ e < 2 ^ 1024 ↔ e ≤ 971 := by
  have hmost : (2 : ℝ) ^ 1024 = 2 ^ 53 * 2 ^ (971 : ℤ) := by
    rw [← zpow_natCast, ← zpow_natCast, ← zpow_add₀ two_ne_zero]
    norm_num
  rw [hmost]
  constructor
  · intro hlt
    by_contra he
    have hfull : (2 : ℝ) ^ 52 ≤ m := by exact_mod_cast h.full.resolve_right (by omega)
    have hle : (2 : ℝ) ^ 53 * 2 ^ (971 : ℤ) ≤ m * 2 ^ e := by
      calc (2 : ℝ) ^ 53 * 2 ^ (971 : ℤ) = 2 ^ 52 * 2 ^ ((971 : ℤ) + 1) :=
            two_pow_mul_two_zpow 971
        _ ≤ m * 2 ^ e := by
          gcongr
          · exact one_le_two
          · omega
    exact absurd hlt (not_lt.mpr hle)
  · intro he
    have hupper : (m : ℝ) < 2 ^ 53 := by exact_mod_cast h.below
    calc (m : ℝ) * 2 ^ e < 2 ^ 53 * 2 ^ e := by gcongr
      _ ≤ 2 ^ 53 * 2 ^ (971 : ℤ) := by
        gcongr
        exact one_le_two

theorem rounds_pack_finite {s : Sign} {q : ℝ} {m : ℕ} {e : ℤ} (hm : 0 < m) (h : Canonical m e)
    (hq : rounded q = m * 2 ^ e) : Rounds s q (Float.Model.pack (.finite s m e hm)).unpack := by
  have hlt : rounded q < 2 ^ 1024 ↔ e ≤ 971 := by
    rw [hq]
    exact canonical_lt_iff h
  by_cases he : e ≤ 971
  · rw [unpack_pack hm h he]
    exact ⟨rfl, fun _ => ⟨h, he⟩, fun _ => congrArg (signed s) hq.symm,
      fun hlarge => absurd (hlt.mpr he) (not_lt.mpr hlarge)⟩
  · rw [unpack_pack_large hm (not_le.mp he)]
    exact ⟨rfl, fun hsmall => absurd (hlt.mp hsmall) he, fun hsmall => absurd (hlt.mp hsmall) he,
      fun _ => rfl⟩

theorem rounds_pack_zero {s : Sign} {q : ℝ} (hq : rounded q = 0) :
    Rounds s q (Float.Model.pack (.zero s)).unpack := by
  have hunpack : (Float.Model.pack (.zero s)).unpack = .zero s := by cases s <;> rfl
  have hsmall : rounded q < 2 ^ 1024 := by
    rw [hq]
    positivity
  rw [hunpack]
  refine ⟨rfl, fun _ => trivial, fun _ => ?_, fun hlarge => absurd hsmall (not_lt.mpr hlarge)⟩
  rw [hq]
  cases s
  · exact neg_zero.symm
  · rfl

/-- The significand and the exponent that a number is rounded to. -/
theorem canonical_nearest {q : ℝ} {k : ℕ} (hq : 0 < q) (hk : nearest (q / 2 ^ exponent q) = k)
    (hlt : k < 2 ^ 53) : Canonical k (exponent q) := by
  refine ⟨hlt, le_exponent q, ?_⟩
  rcases (le_exponent q).eq_or_lt with heq | hgt
  · exact Or.inr heq.symm
  · have hle := two_zpow_le_of_exponent hq.ne' hgt
    rw [abs_of_pos hq] at hle
    have hdiv : ((2 ^ 52 : ℤ) : ℝ) ≤ q / 2 ^ exponent q := by
      rw [le_div_iff₀ (by positivity)]
      rw [add_comm, zpow_add₀ two_ne_zero] at hle
      exact_mod_cast hle
    have hnear := nearest_mono hdiv
    rw [nearest_intCast, hk] at hnear
    left
    exact_mod_cast hnear

theorem rounds_roundWithAccuracy {m : ℕ} {acc : Accuracy} {x : ℝ} {e : ℤ} (s : Sign)
    (h : Describes m acc x) (hx : 0 < x) (he : e ≤ exponent (x * 2 ^ e)) :
    Rounds s (x * 2 ^ e) (Float.Model.pack (roundWithAccuracy .binary64 s m e acc)).unpack := by
  have hpos : 0 < x * 2 ^ e := by positivity
  obtain ⟨k, hk⟩ : ∃ k : ℕ, nearest (x * 2 ^ e / 2 ^ exponent (x * 2 ^ e)) = k := by
    apply Int.eq_ofNat_of_zero_le
    rw [← nearest_intCast 0]
    exact nearest_mono (by push_cast; positivity)
  have hround : rounded (x * 2 ^ e) = k * 2 ^ exponent (x * 2 ^ e) := by
    rw [rounded, hk]
    rfl
  rw [roundWithAccuracy_eq s h hx he hk]
  split_ifs with hzero hlt
  · subst hzero
    exact rounds_pack_zero (by rw [hround, Nat.cast_zero, zero_mul])
  · exact rounds_pack_finite _ (canonical_nearest hpos hk hlt) hround
  · have hbound := nearest_le_two_pow hk
    refine rounds_pack_finite _ ⟨by norm_num, by have := le_exponent (x * 2 ^ e); omega,
      Or.inl le_rfl⟩ ?_
    rw [hround, show k = 2 ^ 53 by omega]
    exact_mod_cast two_pow_mul_two_zpow _

end Placement.Double
