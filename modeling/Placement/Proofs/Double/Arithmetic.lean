import Mathlib
import Placement.Proofs.Double.Significand

/-!
# Arithmetic of doubles

Each operation on finite doubles gives the double nearest to the exact result, or an infinity where
that is too large. The sign of a result that is zero is a matter of its own: sums, products,
quotients and roots of numbers without a minus sign have none. Operations on infinities are treated
only where a number is divided by one.
-/
namespace Placement.Double
open Float.Model (UnpackedFloat Format totalExponent)
open Float.Model.UnpackedFloat

/-- What unpacks from a result that is a real number when it is exact. -/
structure Approximates (q : ℝ) (u : UnpackedFloat) : Prop where
  proper : |rounded q| < 2 ^ 1024 → Proper u
  value : |rounded q| < 2 ^ 1024 → toReal u = rounded q
  large : 2 ^ 1024 ≤ rounded q → u = .infinity .positive

theorem Rounds.approximates {s : Sign} {q : ℝ} {u : UnpackedFloat} (h : Rounds s q u)
    (hq : 0 ≤ q) : Approximates (signed s q) u := by
  have hnonneg := rounded_nonneg hq
  cases s with
  | positive =>
    refine ⟨fun hlt => h.proper ?_, fun hlt => h.value ?_, h.large⟩
    · exact (le_abs_self _).trans_lt hlt
    · exact (le_abs_self _).trans_lt hlt
  | negative =>
    have habs : |rounded (-q)| = rounded q := by
      rw [rounded_neg, abs_neg, abs_of_nonneg hnonneg]
    change Approximates (-q) u
    refine ⟨fun hlt => h.proper (habs ▸ hlt), fun hlt => ?_, fun hlarge => ?_⟩
    · rw [h.value (habs ▸ hlt), rounded_neg]
      rfl
    · rw [rounded_neg] at hlarge
      exact absurd (hlarge.trans (neg_nonpos.mpr hnonneg)) (not_le.mpr (by positivity))

theorem representable_toReal {u : UnpackedFloat} (h : Proper u) : Representable (toReal u) := by
  cases u with
  | zero s => exact representable_zero
  | finite s m e hm =>
    have hm : Representable (m * 2 ^ e) := by
      refine ⟨m, e, ?_, h.1.least, by push_cast; rfl⟩
      rw [Nat.abs_cast]
      exact_mod_cast h.1.below
    cases s
    · exact representable_neg hm
    · exact hm
  | _ => cases h

theorem abs_toReal_lt {u : UnpackedFloat} (h : Proper u) : |toReal u| < 2 ^ 1024 := by
  cases u with
  | zero s =>
    change |(0 : ℝ)| < _
    rw [abs_zero]
    positivity
  | finite s m e hm =>
    have hlt := (canonical_lt_iff h.1).mpr h.2
    have hnonneg : (0 : ℝ) ≤ m * 2 ^ e := by positivity
    have habs : |toReal (.finite s m e hm)| = m * 2 ^ e := by
      cases s
      · exact (abs_neg _).trans (abs_of_nonneg hnonneg)
      · exact abs_of_nonneg hnonneg
    rw [habs]
    exact hlt
  | _ => cases h

theorem unpack_pack_proper {u : UnpackedFloat} (h : Proper u) :
    (Float.Model.pack u).unpack = u := by
  cases u with
  | zero s => cases s <;> rfl
  | finite s m e hm => exact unpack_pack hm h.1 h.2
  | _ => cases h

theorem approximates_of_proper {u : UnpackedFloat} (h : Proper u) :
    Approximates (toReal u) (Float.Model.pack u).unpack := by
  have hround := rounded_of_representable (representable_toReal h)
  rw [unpack_pack_proper h]
  refine ⟨fun _ => h, fun _ => hround.symm, fun hlarge => ?_⟩
  rw [hround] at hlarge
  exact absurd ((le_abs_self _).trans_lt (abs_toReal_lt h)) (not_lt.mpr hlarge)

theorem decreaseExponent_value (m : ℕ) (e t : ℤ) :
    ((decreaseExponent m e t).1 : ℝ) * 2 ^ (decreaseExponent m e t).2 = m * 2 ^ e := by
  have hsplit : e = (e - t).toNat + (e - (e - t).toNat) := by omega
  unfold decreaseExponent
  dsimp only
  rw [Nat.shiftLeft_eq]
  push_cast
  conv_rhs => rw [hsplit, zpow_add₀ two_ne_zero, zpow_natCast]
  ring

theorem rounds_exact {m : ℕ} {e : ℤ} (s : Sign) (hm : 0 < m) (he : e ≤ exponent (m * 2 ^ e)) :
    Rounds s (m * 2 ^ e)
      (Float.Model.pack (roundWithAccuracy .binary64 s m e .exact)).unpack :=
  rounds_roundWithAccuracy s rfl (by exact_mod_cast hm) he

theorem rounds_round {m : ℕ} (s : Sign) (hm : 0 < m) (e : ℤ) :
    Rounds s (m * 2 ^ e) (Float.Model.pack (UnpackedFloat.round .binary64 s m e)).unpack := by
  have htarget := targetExponent_of_pos (show Describes m .exact m from rfl) hm e
  unfold UnpackedFloat.round
  rw [htarget]
  generalize hE : exponent (m * 2 ^ e) = E
  have hvalue := decreaseExponent_value m e E
  have hle : (decreaseExponent m e E).2 ≤
      exponent ((decreaseExponent m e E).1 * 2 ^ (decreaseExponent m e E).2) := by
    rw [hvalue, hE]
    unfold decreaseExponent
    dsimp only
    omega
  have hpos : 0 < (decreaseExponent m e E).1 := by
    unfold decreaseExponent
    exact Nat.shiftLeft_pos_iff.mpr hm
  rw [← hvalue]
  exact rounds_exact s hpos hle

theorem approximates_normalize (m : ℤ) (e : ℤ) (s : Sign) :
    Approximates (m * 2 ^ e)
      (Float.Model.pack (UnpackedFloat.normalize .binary64 m e s)).unpack := by
  unfold UnpackedFloat.normalize
  rcases lt_trichotomy m 0 with h | rfl | h
  · rw [compare_lt_iff_lt.mpr h]
    have hround := (rounds_round .negative (m := (-m).toNat) (by omega) e).approximates
      (by positivity)
    have hcast : (((-m).toNat : ℕ) : ℝ) = -m := by
      have hint : (((-m).toNat : ℕ) : ℤ) = -m := Int.toNat_of_nonneg (by omega)
      exact_mod_cast congrArg (Int.cast : ℤ → ℝ) hint
    rw [hcast] at hround
    simpa only [signed, neg_mul, neg_neg] using hround
  · rw [compare_eq_iff_eq.mpr rfl, Int.cast_zero, zero_mul]
    exact approximates_of_proper (u := .zero s) trivial
  · rw [compare_gt_iff_gt.mpr h]
    have hround := (rounds_round .positive (m := m.toNat) (by omega) e).approximates
      (by positivity)
    have hcast : ((m.toNat : ℕ) : ℝ) = m := by
      have hint : ((m.toNat : ℕ) : ℤ) = m := Int.toNat_of_nonneg (by omega)
      exact_mod_cast congrArg (Int.cast : ℤ → ℝ) hint
    rw [hcast] at hround
    exact hround

/-- Significands of one exponent are added as whole numbers. -/
theorem signed_decreaseExponent (s : Sign) {m : ℕ} (hm : 0 < m) {e t : ℤ} (ht : t ≤ e) :
    ((s.apply (decreaseExponent m e t).1 : ℤ) : ℝ) * 2 ^ t = toReal (.finite s m e hm) := by
  have hexp : (decreaseExponent m e t).2 = t := by
    unfold decreaseExponent
    dsimp only
    omega
  have hvalue := decreaseExponent_value m e t
  rw [hexp] at hvalue
  change _ = signed s (m * 2 ^ e)
  rw [← hvalue]
  cases s with
  | positive => rfl
  | negative =>
    change ((-((decreaseExponent m e t).1 : ℤ) : ℤ) : ℝ) * 2 ^ t = -_
    push_cast
    ring

section
variable {u v : UnpackedFloat} (hu : Proper u) (hv : Proper v)
include hu hv

theorem approximates_add :
    Approximates (toReal u + toReal v)
      (Float.Model.pack (UnpackedFloat.add .binary64 u v)).unpack := by
  cases u with
  | zero s =>
    cases v with
    | zero t =>
      have hzero : toReal (.zero s) + toReal (.zero t) = 0 := add_zero 0
      rw [hzero]
      cases s <;> cases t <;> exact approximates_of_proper (u := .zero _) trivial
    | finite t n d hn =>
      have hsum : toReal (.zero s) + toReal (.finite t n d hn) = toReal (.finite t n d hn) :=
        zero_add _
      rw [hsum]
      exact approximates_of_proper hv
    | _ => cases hv
  | finite s m e hm =>
    cases v with
    | zero t =>
      have hsum : toReal (.finite s m e hm) + toReal (.zero t) = toReal (.finite s m e hm) :=
        add_zero _
      rw [hsum]
      exact approximates_of_proper hu
    | finite t n d hn =>
      have hnorm := approximates_normalize (s.apply (decreaseExponent m e (min e d)).1 +
        t.apply (decreaseExponent n d (min e d)).1) (min e d) .positive
      have hleft := signed_decreaseExponent s hm (min_le_left e d)
      have hright := signed_decreaseExponent t hn (min_le_right e d)
      push_cast at hnorm
      rw [add_mul, hleft, hright] at hnorm
      exact hnorm
    | _ => cases hv
  | _ => cases hu

theorem approximates_sub :
    Approximates (toReal u - toReal v)
      (Float.Model.pack (UnpackedFloat.sub .binary64 u v)).unpack := by
  cases u with
  | zero s =>
    cases v with
    | zero t =>
      have hzero : toReal (.zero s) - toReal (.zero t) = 0 := sub_zero 0
      rw [hzero]
      cases s <;> cases t <;> exact approximates_of_proper (u := .zero _) trivial
    | finite t n d hn =>
      have hneg : toReal (.zero s) - toReal (.finite t n d hn) = toReal (.finite (-t) n d hn) := by
        cases t
        · exact (zero_sub _).trans (neg_neg _)
        · exact zero_sub _
      rw [hneg]
      exact approximates_of_proper (u := .finite (-t) n d hn) hv
    | _ => cases hv
  | finite s m e hm =>
    cases v with
    | zero t =>
      have hdiff : toReal (.finite s m e hm) - toReal (.zero t) = toReal (.finite s m e hm) :=
        sub_zero _
      rw [hdiff]
      exact approximates_of_proper hu
    | finite t n d hn =>
      have hnorm := approximates_normalize (s.apply (decreaseExponent m e (min e d)).1 -
        t.apply (decreaseExponent n d (min e d)).1) (min e d) .positive
      have hleft := signed_decreaseExponent s hm (min_le_left e d)
      have hright := signed_decreaseExponent t hn (min_le_right e d)
      push_cast at hnorm
      rw [sub_mul, hleft, hright] at hnorm
      exact hnorm
    | _ => cases hv
  | _ => cases hu

end

theorem signed_mul (s t : Sign) (x y : ℝ) : signed s x * signed t y = signed (s * t) (x * y) := by
  cases s <;> cases t
  · exact neg_mul_neg x y
  · exact neg_mul x y
  · exact mul_neg x y
  · rfl

theorem le_exponent_mul {m n : ℕ} {d e : ℤ} (hm : 0 < m) (hn : 0 < n) (hc : Canonical m e)
    (hd : Canonical n d) : e + d ≤ exponent ((m * n : ℕ) * 2 ^ (e + d)) := by
  by_cases hbits : 2 ^ 52 ≤ m * n
  · apply le_exponent_of_two_zpow_le
    have hreal : (2 : ℝ) ^ 52 ≤ (m * n : ℕ) := by exact_mod_cast hbits
    rw [abs_of_nonneg (by positivity), add_comm, zpow_add₀ two_ne_zero]
    exact mul_le_mul_of_nonneg_right hreal (by positivity)
  · -- neither factor has 53 bits, so both exponents are the least
    have hleft : e = -1074 := hc.full.resolve_left fun h =>
      hbits (h.trans (Nat.le_mul_of_pos_right m hn))
    have hright : d = -1074 := hd.full.resolve_left fun h =>
      hbits (h.trans (Nat.le_mul_of_pos_left n hm))
    have := le_exponent ((m * n : ℕ) * 2 ^ (e + d))
    omega

theorem approximates_mul {u v : UnpackedFloat} (hu : Proper u) (hv : Proper v) :
    Approximates (toReal u * toReal v)
      (Float.Model.pack (UnpackedFloat.mul .binary64 u v)).unpack := by
  cases u with
  | zero s =>
    have hzero : toReal (.zero s) * toReal v = 0 := zero_mul _
    rw [hzero]
    cases v with
    | zero t => exact approximates_of_proper (u := .zero (s * t)) trivial
    | finite t n d hn => exact approximates_of_proper (u := .zero (s * t)) trivial
    | _ => cases hv
  | finite s m e hm =>
    cases v with
    | zero t =>
      have hzero : toReal (.finite s m e hm) * toReal (.zero t) = 0 := mul_zero _
      rw [hzero]
      exact approximates_of_proper (u := .zero (s * t)) trivial
    | finite t n d hn =>
      have hproduct : toReal (.finite s m e hm) * toReal (.finite t n d hn) =
          signed (s * t) ((m * n : ℕ) * 2 ^ (e + d)) := by
        rw [zpow_add₀ two_ne_zero]
        push_cast
        exact (signed_mul s t _ _).trans (congrArg (signed (s * t)) (by ring))
      rw [hproduct]
      exact (rounds_exact (s * t) (Nat.mul_pos hm hn)
        (le_exponent_mul hm hn hu.1 hv.1)).approximates (by positivity)
    | _ => cases hv
  | _ => cases hu

/-- A remainder tells on which side of a half the rest of a quotient lies. -/
theorem describes_div (a : ℕ) {n : ℕ} (hn : 0 < n) :
    Describes (a / n) (accuracyOfFraction (a % n) n) ((a : ℝ) / n) := by
  have hpos : (0 : ℝ) < n := by exact_mod_cast hn
  have hsplit : (a : ℝ) = n * (a / n : ℕ) + (a % n : ℕ) := by
    exact_mod_cast (Nat.div_add_mod a n).symm
  have hquotient : (a : ℝ) / n = (a / n : ℕ) + (a % n : ℕ) / n := by
    rw [div_eq_iff hpos.ne', add_mul, div_mul_cancel₀ _ hpos.ne', mul_comm]
    exact hsplit
  have hrest : ((a % n : ℕ) : ℝ) < n := by exact_mod_cast Nat.mod_lt a hn
  rw [hquotient]
  generalize a / n = k
  generalize a % n = r at hrest
  unfold accuracyOfFraction
  by_cases hr : r = 0
  · rw [if_pos hr, hr]
    simp [Describes]
  rw [if_neg hr]
  have hrpos : (0 : ℝ) < r := by exact_mod_cast Nat.pos_of_ne_zero hr
  have hfraction : (0 : ℝ) < r / n := by positivity
  have hone : (r : ℝ) / n < 1 := (div_lt_one hpos).mpr hrest
  rcases lt_trichotomy (2 * r) n with h | h | h
  · rw [compare_lt_iff_lt.mpr h]
    have hhalf : (r : ℝ) / n < 1 / 2 := by
      rw [div_lt_iff₀ hpos]
      have : (2 * r : ℝ) < n := by exact_mod_cast h
      linarith
    exact ⟨by linarith, by linarith⟩
  · rw [compare_eq_iff_eq.mpr h]
    have hhalf : (r : ℝ) / n = 1 / 2 := by
      rw [div_eq_iff hpos.ne']
      have : (2 * r : ℝ) = n := by exact_mod_cast h
      linarith
    exact congrArg ((k : ℝ) + ·) hhalf
  · rw [compare_gt_iff_gt.mpr h]
    have hhalf : 1 / 2 < (r : ℝ) / n := by
      rw [lt_div_iff₀ hpos]
      have : (n : ℝ) < 2 * r := by exact_mod_cast h
      linarith
    exact ⟨by linarith, by linarith⟩

/-- The exponent of a significand in terms of its first bit. -/
theorem two_zpow_le_value {m : ℕ} (hm : 0 < m) (e : ℤ) :
    (2 : ℝ) ^ (totalExponent m e - 1) ≤ m * 2 ^ e ∧ (m : ℝ) * 2 ^ e < 2 ^ totalExponent m e := by
  have hlower : (2 : ℝ) ^ m.log2 ≤ m := by exact_mod_cast Nat.log2_self_le hm.ne'
  have hupper : (m : ℝ) < 2 ^ (m.log2 + 1) := by exact_mod_cast Nat.lt_log2_self
  have hunit : (0 : ℝ) < 2 ^ e := by positivity
  have hlog : totalExponent m e - 1 = m.log2 + e := by
    unfold totalExponent
    omega
  have hlog' : totalExponent m e = (m.log2 + 1 : ℕ) + e := by
    unfold totalExponent
    push_cast
    rfl
  rw [hlog, hlog', zpow_add₀ two_ne_zero, zpow_add₀ two_ne_zero, zpow_natCast, zpow_natCast]
  exact ⟨mul_le_mul_of_nonneg_right hlower hunit.le, mul_lt_mul_of_pos_right hupper hunit⟩

theorem targetExponent_le_exponent {q : ℝ} {t : ℤ} (h : 2 ^ (t - 1) ≤ q) :
    Format.binary64.targetExponent t ≤ exponent q := by
  have hbits : ((Format.binary64.mantissaBits : ℕ) : ℤ) = 53 := rfl
  have hleast : Format.binary64.minExponent = -1074 := by decide
  have hq : 0 ≤ q := le_trans (by positivity) h
  have hexp : t - 53 ≤ exponent q := by
    apply le_exponent_of_two_zpow_le
    have hshift : t - 53 + 52 = t - 1 := by omega
    rw [hshift, abs_of_nonneg hq]
    exact h
  unfold Format.targetExponent
  rw [hbits, hleast]
  exact max_le hexp (le_exponent q)

theorem signed_div (s t : Sign) (x y : ℝ) : signed s x / signed t y = signed (s / t) (x / y) := by
  cases s <;> cases t
  · exact neg_div_neg_eq x y
  · exact neg_div y x
  · exact div_neg x
  · rfl

theorem rounds_div {m n : ℕ} {d e : ℤ} (s : Sign) (hm : 0 < m) (hn : 0 < n) :
    Rounds s (m * 2 ^ e / (n * 2 ^ d)) (Float.Model.pack (roundWithAccuracy .binary64 s
      (divCore .binary64 m e n d).1 (divCore .binary64 m e n d).2.1
      (divCore .binary64 m e n d).2.2)).unpack := by
  unfold divCore
  dsimp only
  generalize ht : min (e - d) (Format.binary64.targetExponent (totalExponent m e -
    totalExponent n d)) = t
  have hshift : (((e - d - t).toNat : ℕ) : ℤ) = e - d - t := Int.toNat_of_nonneg (by omega)
  generalize hk : (e - d - t).toNat = k at hshift
  have hnpos : (0 : ℝ) < n := by exact_mod_cast hn
  have hmpos : (0 : ℝ) < m := by exact_mod_cast hm
  have hvalue : ((m <<< k : ℕ) : ℝ) / n * 2 ^ t = m * 2 ^ e / (n * 2 ^ d) := by
    have hexp : e = k + t + d := by omega
    rw [Nat.shiftLeft_eq, hexp, zpow_add₀ two_ne_zero, zpow_add₀ two_ne_zero, zpow_natCast]
    push_cast
    field_simp
  have hleast : (2 : ℝ) ^ (totalExponent m e - totalExponent n d - 1) ≤
      m * 2 ^ e / (n * 2 ^ d) := by
    have hsplit : totalExponent m e - totalExponent n d - 1 =
        totalExponent m e - 1 - totalExponent n d := by omega
    rw [hsplit, zpow_sub₀ two_ne_zero]
    exact div_le_div₀ (by positivity) (two_zpow_le_value hm e).1 (by positivity)
      (two_zpow_le_value hn d).2.le
  have hle : t ≤ exponent (m * 2 ^ e / (n * 2 ^ d)) := by
    rw [← ht]
    exact (min_le_right _ _).trans (targetExponent_le_exponent hleast)
  rw [← hvalue] at hle ⊢
  refine rounds_roundWithAccuracy s (describes_div _ hn) ?_ hle
  have : (0 : ℝ) < (m <<< k : ℕ) := by exact_mod_cast Nat.shiftLeft_pos_iff.mpr hm
  positivity

theorem approximates_div {u v : UnpackedFloat} (hu : Proper u) (hv : Proper v)
    (hne : toReal v ≠ 0) :
    Approximates (toReal u / toReal v)
      (Float.Model.pack (UnpackedFloat.div .binary64 u v)).unpack := by
  cases v with
  | zero t => exact absurd rfl hne
  | finite t n d hn =>
    cases u with
    | zero s =>
      have hzero : toReal (.zero s) / toReal (.finite t n d hn) = 0 := zero_div _
      rw [hzero]
      exact approximates_of_proper (u := .zero (s / t)) trivial
    | finite s m e hm =>
      have hquotient : toReal (.finite s m e hm) / toReal (.finite t n d hn) =
          signed (s / t) (m * 2 ^ e / (n * 2 ^ d)) := signed_div s t _ _
      rw [hquotient]
      exact (rounds_div (s / t) hm hn).approximates (by positivity)
    | _ => cases hu
  | _ => cases hv

/-- The rest under a root tells on which side of a half the rest of the root lies; it is never half
way. -/
theorem describes_sqrt (a : ℕ) :
    Describes (Nat.sqrt a)
      (if a - Nat.sqrt a * Nat.sqrt a = 0 then .exact
        else .inexact (if a - Nat.sqrt a * Nat.sqrt a ≤ Nat.sqrt a then .lt else .gt))
      (Real.sqrt a) := by
  have hle := Nat.sqrt_le a
  have hlt := Nat.lt_succ_sqrt a
  generalize Nat.sqrt a = r at hle hlt
  have ha : (0 : ℝ) ≤ a := Nat.cast_nonneg a
  have hr : (0 : ℝ) ≤ r := Nat.cast_nonneg r
  by_cases hexact : a - r * r = 0
  · rw [if_pos hexact]
    have heq : a = r * r := by omega
    change Real.sqrt a = r
    rw [heq, Nat.cast_mul, Real.sqrt_mul_self hr]
  rw [if_neg hexact]
  by_cases hhalf : a - r * r ≤ r
  · rw [if_pos hhalf]
    have hlower : (r : ℝ) * r + 1 ≤ a := by exact_mod_cast (show r * r + 1 ≤ a by omega)
    have hupper : (a : ℝ) ≤ r * r + r := by exact_mod_cast (show a ≤ r * r + r by omega)
    constructor
    · exact (Real.lt_sqrt hr).mpr (by nlinarith)
    · exact (Real.sqrt_lt' (by positivity)).mpr (by nlinarith)
  · rw [if_neg hhalf]
    have hlower : (r : ℝ) * r + r + 1 ≤ a := by exact_mod_cast (show r * r + r + 1 ≤ a by omega)
    have hupper : (a : ℝ) < (r + 1) * (r + 1) := by exact_mod_cast hlt
    constructor
    · exact (Real.lt_sqrt (by positivity)).mpr (by nlinarith)
    · exact (Real.sqrt_lt' (by positivity)).mpr (by nlinarith)

theorem rounds_sqrt {m : ℕ} (hm : 0 < m) (e : ℤ) :
    Rounds .positive (Real.sqrt (m * 2 ^ e)) (Float.Model.pack (roundWithAccuracy .binary64
      .positive (sqrtCore .binary64 m e).1 (sqrtCore .binary64 m e).2.1
      (sqrtCore .binary64 m e).2.2)).unpack := by
  unfold sqrtCore
  dsimp only
  generalize ht : min (e.ediv 2) (Format.binary64.targetExponent
    ((totalExponent m e + 1).ediv 2)) = t
  have hediv : e.ediv 2 = e / 2 := rfl
  have hshift : (((e - 2 * t).toNat : ℕ) : ℤ) = e - 2 * t := Int.toNat_of_nonneg (by omega)
  generalize (e - 2 * t).toNat = k at hshift
  have hmpos : (0 : ℝ) < m := by exact_mod_cast hm
  have hvalue : Real.sqrt ((m <<< k : ℕ) : ℝ) * 2 ^ t = Real.sqrt (m * 2 ^ e) := by
    have hexp : e = k + (t + t) := by omega
    have hsquare : (m : ℝ) * 2 ^ e = (m <<< k : ℕ) * (2 ^ t * 2 ^ t) := by
      rw [Nat.shiftLeft_eq, hexp, zpow_add₀ two_ne_zero, zpow_add₀ two_ne_zero, zpow_natCast]
      push_cast
      ring
    rw [hsquare, Real.sqrt_mul (Nat.cast_nonneg _), Real.sqrt_mul_self (by positivity)]
  have hleast : (2 : ℝ) ^ ((totalExponent m e + 1).ediv 2 - 1) ≤ Real.sqrt (m * 2 ^ e) := by
    have hhalf : (totalExponent m e + 1).ediv 2 = (totalExponent m e + 1) / 2 := rfl
    apply Real.le_sqrt_of_sq_le
    rw [← zpow_natCast, ← zpow_mul]
    exact (zpow_le_zpow_right₀ one_le_two (by push_cast; omega)).trans (two_zpow_le_value hm e).1
  have hle : t ≤ exponent (Real.sqrt (m * 2 ^ e)) := by
    rw [← ht]
    exact (min_le_right _ _).trans (targetExponent_le_exponent hleast)
  rw [← hvalue] at hle ⊢
  refine rounds_roundWithAccuracy .positive (describes_sqrt _) ?_ hle
  have : (0 : ℝ) < (m <<< k : ℕ) := by exact_mod_cast Nat.shiftLeft_pos_iff.mpr hm
  exact Real.sqrt_pos.mpr this

theorem approximates_sqrt {u : UnpackedFloat} (hu : Proper u) (hnonneg : 0 ≤ toReal u) :
    Approximates (Real.sqrt (toReal u))
      (Float.Model.pack (UnpackedFloat.sqrt .binary64 u)).unpack := by
  cases u with
  | zero s =>
    have hzero : Real.sqrt (toReal (.zero s)) = 0 := Real.sqrt_zero
    rw [hzero]
    exact approximates_of_proper (u := .zero s) trivial
  | finite s m e hm =>
    have hpos : (0 : ℝ) < m * 2 ^ e := by positivity
    cases s with
    | positive => exact (rounds_sqrt hm e).approximates (Real.sqrt_nonneg _)
    | negative => exact absurd hnonneg (not_le.mpr (neg_neg_of_pos hpos))
  | _ => cases hu

end Placement.Double
