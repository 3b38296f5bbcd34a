import Mathlib

/-!
# Rounding real numbers

The numbers that doubles stand for are whole multiples of powers of two with at most 53 bits, where
the power is at least the one of exponent -1074. Rounding takes a real number to the nearest of
them, and to the one with the even multiple where two are equally near. Two facts are nearly all
that is used of it: rounding keeps the order, and it keeps the numbers that need no rounding. A
significand that has been cut off says enough about a number to round it. There is no greatest
exponent here; whether a number is too large for a double is for the reader to ask.
-/
namespace Placement.Double
open Float.Model (UnpackedFloat)
open Float.Model.UnpackedFloat

/-- A real number with the sign of a double. -/
def signed (s : Sign) (x : ℝ) : ℝ :=
  match s with
  | .positive => x
  | .negative => -x

/-- The number that an unpacked double stands for. Infinities stand for none, which is zero here. -/
noncomputable def toReal : UnpackedFloat → ℝ
  | .finite s m e _ => signed s (m * 2 ^ e)
  | _ => 0

/-- The whole number nearest to a real one, the even one of two. -/
noncomputable def nearest (x : ℝ) : ℤ :=
  if Int.fract x < 1 / 2 then ⌊x⌋
  else if Int.fract x = 1 / 2 then ⌊x⌋ + ⌊x⌋ % 2
  else ⌊x⌋ + 1

theorem nearest_of_lt {x : ℝ} (h : Int.fract x < 1 / 2) : nearest x = ⌊x⌋ := if_pos h

theorem nearest_of_eq {x : ℝ} (h : Int.fract x = 1 / 2) : nearest x = ⌊x⌋ + ⌊x⌋ % 2 := by
  rw [nearest, if_neg (not_lt.mpr h.ge), if_pos h]

theorem nearest_of_gt {x : ℝ} (h : 1 / 2 < Int.fract x) : nearest x = ⌊x⌋ + 1 := by
  rw [nearest, if_neg (not_lt.mpr h.le), if_neg h.ne']

@[simp] theorem nearest_intCast (n : ℤ) : nearest n = n := by
  rw [nearest_of_lt (by norm_num), Int.floor_intCast]

theorem floor_le_nearest (x : ℝ) : ⌊x⌋ ≤ nearest x := by
  unfold nearest
  have := Int.emod_two_eq_zero_or_one ⌊x⌋
  split_ifs <;> omega

theorem nearest_le_floor_add_one (x : ℝ) : nearest x ≤ ⌊x⌋ + 1 := by
  unfold nearest
  have := Int.emod_two_eq_zero_or_one ⌊x⌋
  split_ifs <;> omega

theorem nearest_mono {x y : ℝ} (h : x ≤ y) : nearest x ≤ nearest y := by
  rcases (Int.floor_mono h).lt_or_eq with hlt | heq
  · have hx := nearest_le_floor_add_one x
    have hy := floor_le_nearest y
    omega
  · have hfract : Int.fract x ≤ Int.fract y := by
      unfold Int.fract
      rw [heq]
      linarith
    have hmod := Int.emod_two_eq_zero_or_one ⌊y⌋
    unfold nearest
    rw [heq]
    split_ifs <;> first | omega | linarith | (exfalso; grind)

theorem nearest_neg (x : ℝ) : nearest (-x) = -nearest x := by
  by_cases hx : Int.fract x = 0
  · obtain ⟨n, rfl⟩ := Int.fract_eq_zero_iff.mp hx
    rw [← Int.cast_neg, nearest_intCast, nearest_intCast]
  · have hfract : Int.fract (-x) = 1 - Int.fract x := Int.fract_neg hx
    have hfloor : ⌊-x⌋ = -⌊x⌋ - 1 := by
      have hreal : (⌊-x⌋ : ℝ) = -⌊x⌋ - 1 := by
        have h₁ := Int.floor_add_fract x
        have h₂ := Int.floor_add_fract (-x)
        linarith
      exact_mod_cast hreal
    have hmod := Int.emod_two_eq_zero_or_one ⌊x⌋
    rcases lt_trichotomy (Int.fract x) (1 / 2) with h | h | h
    · rw [nearest_of_lt h, nearest_of_gt (by linarith), hfloor]
      omega
    · rw [nearest_of_eq h, nearest_of_eq (by linarith), hfloor]
      omega
    · rw [nearest_of_gt h, nearest_of_lt (by linarith), hfloor]
      omega

/-- A significand and the accuracy it has been cut off with stand for a real number. -/
def Describes (m : ℕ) : Accuracy → ℝ → Prop
  | .exact, x => x = m
  | .inexact .lt, x => m < x ∧ x < m + 1 / 2
  | .inexact .eq, x => x = m + 1 / 2
  | .inexact .gt, x => m + 1 / 2 < x ∧ x < m + 1

theorem Describes.bounds {m : ℕ} {acc : Accuracy} {x : ℝ} (h : Describes m acc x) :
    (m : ℝ) ≤ x ∧ x < m + 1 := by
  match acc, h with
  | .exact, h => exact ⟨h.ge, by rw [h]; linarith⟩
  | .inexact .lt, ⟨hlo, hhi⟩ => exact ⟨hlo.le, by linarith⟩
  | .inexact .eq, h => exact ⟨by rw [h]; linarith, by rw [h]; linarith⟩
  | .inexact .gt, ⟨hlo, hhi⟩ => exact ⟨by linarith, hhi⟩

/-- Rounding a significand rounds the number it stands for. -/
theorem nearest_of_describes {m : ℕ} {acc : Accuracy} {x : ℝ} (h : Describes m acc x) :
    nearest x = acc.roundToNearestEven m := by
  have hfloor : ⌊x⌋ = m := Int.floor_eq_iff.mpr (by exact_mod_cast h.bounds)
  have hfract : Int.fract x = x - m := by
    rw [Int.fract, hfloor]
    rfl
  match acc, h with
  | .exact, h =>
    rw [nearest_of_lt (by rw [hfract, h]; norm_num), hfloor]
    rfl
  | .inexact .lt, ⟨hlo, hhi⟩ =>
    rw [nearest_of_lt (by rw [hfract]; linarith), hfloor]
    rfl
  | .inexact .eq, h =>
    rw [nearest_of_eq (by rw [hfract, h]; ring), hfloor]
    rfl
  | .inexact .gt, ⟨hlo, hhi⟩ =>
    rw [nearest_of_gt (by rw [hfract]; linarith), hfloor]
    rfl

/-- The exponent of the doubles around a real number. -/
noncomputable def exponent (x : ℝ) : ℤ := max (Int.log 2 |x| - 52) (-1074)

/-- The nearest of the numbers with at most 53 bits and no exponent below -1074. -/
noncomputable def rounded (x : ℝ) : ℝ := nearest (x / 2 ^ exponent x) * 2 ^ exponent x

/-- The numbers that need no rounding. -/
def Representable (x : ℝ) : Prop :=
  ∃ (m e : ℤ), |m| < 2 ^ 53 ∧ -1074 ≤ e ∧ x = m * 2 ^ e

theorem le_exponent (x : ℝ) : -1074 ≤ exponent x := le_max_right _ _

@[simp] theorem exponent_neg (x : ℝ) : exponent (-x) = exponent x := by
  unfold exponent
  rw [abs_neg]

@[simp] theorem rounded_neg (x : ℝ) : rounded (-x) = -rounded x := by
  unfold rounded
  rw [exponent_neg, neg_div, nearest_neg]
  push_cast
  ring

/-- Where the exponent is above the least one, it leaves 53 bits before the point. -/
theorem two_zpow_le_of_exponent {x : ℝ} (hx : x ≠ 0) (h : -1074 < exponent x) :
    2 ^ (exponent x + 52) ≤ |x| := by
  have hlog : exponent x = Int.log 2 |x| - 52 := by
    rcases max_choice (Int.log 2 |x| - 52) (-1074) with hm | hm
    · exact hm
    · exact absurd hm h.ne'
  rw [hlog, sub_add_cancel]
  exact Int.zpow_log_le_self (by norm_num) (abs_pos.mpr hx)

theorem abs_lt_two_zpow_exponent (x : ℝ) : |x| < 2 ^ (exponent x + 53) := by
  have hlog : Int.log 2 |x| + 1 ≤ exponent x + 53 := by
    have hmax : Int.log 2 |x| - 52 ≤ exponent x := le_max_left _ _
    omega
  have hlt : |x| < 2 ^ (Int.log 2 |x| + 1) := Int.lt_zpow_succ_log_self (by norm_num) |x|
  exact hlt.trans_le (zpow_le_zpow_right₀ one_le_two hlog)

/-- A number with 53 bits before the point has at least this exponent. -/
theorem le_exponent_of_two_zpow_le {x : ℝ} {e : ℤ} (h : 2 ^ (e + 52) ≤ |x|) : e ≤ exponent x := by
  have hlt := h.trans_lt (abs_lt_two_zpow_exponent x)
  have hexp := (zpow_lt_zpow_iff_right₀ one_lt_two).mp hlt
  omega

theorem exponent_le_of_lt_two_zpow {x : ℝ} {e : ℤ} (hx : x ≠ 0) (he : -1074 ≤ e)
    (h : |x| < 2 ^ (e + 53)) : exponent x ≤ e := by
  by_contra hlt
  have hle := two_zpow_le_of_exponent hx (he.trans_lt (not_le.mp hlt))
  have hexp := (zpow_lt_zpow_iff_right₀ one_lt_two).mp (hle.trans_lt h)
  omega

theorem exponent_mono {x y : ℝ} (hx : 0 < x) (h : x ≤ y) : exponent x ≤ exponent y := by
  apply exponent_le_of_lt_two_zpow hx.ne' (le_exponent y)
  rw [abs_of_pos hx]
  exact (h.trans (le_abs_self y)).trans_lt (abs_lt_two_zpow_exponent y)

theorem rounded_of_representable {x : ℝ} (h : Representable x) : rounded x = x := by
  obtain ⟨m, e, hm, he, hx⟩ := h
  rcases eq_or_ne x 0 with h0 | h0
  · rw [h0]
    simp [rounded, nearest]
  have hexp : exponent x ≤ e := by
    apply exponent_le_of_lt_two_zpow h0 he
    have hm' : |(m : ℝ)| < 2 ^ (53 : ℤ) := by exact_mod_cast hm
    rw [hx, abs_mul, abs_of_pos (by positivity : (0 : ℝ) < 2 ^ e), zpow_add₀ two_ne_zero, mul_comm]
    exact mul_lt_mul_of_pos_left hm' (by positivity)
  have hdiv : x / 2 ^ exponent x = ((m * 2 ^ (e - exponent x).toNat : ℤ) : ℝ) := by
    have hnat : ((e - exponent x).toNat : ℤ) = e - exponent x := Int.toNat_of_nonneg (by omega)
    rw [div_eq_iff (by positivity)]
    push_cast
    rw [← zpow_natCast, hnat, mul_assoc, ← zpow_add₀ two_ne_zero, sub_add_cancel]
    exact hx
  rw [rounded, hdiv, nearest_intCast, ← hdiv, div_mul_cancel₀ _ (by positivity)]

theorem representable_neg {x : ℝ} (h : Representable x) : Representable (-x) := by
  obtain ⟨m, e, hm, he, rfl⟩ := h
  refine ⟨-m, e, by rwa [abs_neg], he, ?_⟩
  push_cast
  ring

theorem representable_zero : Representable 0 := ⟨0, 0, by norm_num, by norm_num, by norm_num⟩

theorem representable_two_zpow {e : ℤ} (he : -1074 ≤ e) : Representable (2 ^ e) :=
  ⟨1, e, by norm_num, he, by norm_num⟩

/-- A multiple may have one bit more when this bit is the only one. -/
theorem representable_of_le {m e : ℤ} (hm : |m| ≤ 2 ^ 53) (he : -1074 ≤ e) :
    Representable (m * 2 ^ e) := by
  rcases hm.lt_or_eq with hlt | heq
  · exact ⟨m, e, hlt, he, rfl⟩
  · have hpow : (2 : ℝ) ^ 53 * 2 ^ e = 2 ^ (53 + e) := by
      rw [zpow_add₀ two_ne_zero]
      norm_num
    have hbig : Representable ((2 : ℝ) ^ 53 * 2 ^ e) := by
      rw [hpow]
      exact representable_two_zpow (by omega)
    rcases abs_eq (by norm_num) |>.mp heq with rfl | rfl
    · exact_mod_cast hbig
    · have hneg := representable_neg hbig
      rw [← neg_mul] at hneg
      exact_mod_cast hneg

theorem representable_natCast {n : ℕ} (h : n ≤ 2 ^ 53) : Representable n := by
  have hrep := representable_of_le (m := n) (e := 0) (by rw [Nat.abs_cast]; exact_mod_cast h)
    (by norm_num)
  simpa using hrep

theorem abs_div_two_zpow_exponent_lt (x : ℝ) : |x / 2 ^ exponent x| < 2 ^ 53 := by
  have hpos : (0 : ℝ) < 2 ^ exponent x := by positivity
  rw [abs_div, abs_of_pos hpos, div_lt_iff₀ hpos]
  have hlt := abs_lt_two_zpow_exponent x
  rw [add_comm, zpow_add₀ two_ne_zero] at hlt
  exact_mod_cast hlt

theorem abs_nearest_le {x : ℝ} {n : ℤ} (h : |x| ≤ n) : |nearest x| ≤ n := by
  obtain ⟨hlo, hhi⟩ := abs_le.mp h
  refine abs_le.mpr ⟨?_, ?_⟩
  · rw [← nearest_intCast (-n)]
    exact nearest_mono (by push_cast; exact hlo)
  · rw [← nearest_intCast n]
    exact nearest_mono hhi

theorem representable_rounded (x : ℝ) : Representable (rounded x) := by
  refine representable_of_le (abs_nearest_le ?_) (le_exponent x)
  exact_mod_cast (abs_div_two_zpow_exponent_lt x).le

theorem rounded_nonneg {x : ℝ} (h : 0 ≤ x) : 0 ≤ rounded x := by
  have hnear : (0 : ℤ) ≤ nearest (x / 2 ^ exponent x) := by
    rw [← nearest_intCast 0]
    exact nearest_mono (by push_cast; positivity)
  unfold rounded
  have : (0 : ℝ) ≤ nearest (x / 2 ^ exponent x) := by exact_mod_cast hnear
  positivity

theorem rounded_le_two_zpow (x : ℝ) : rounded x ≤ 2 ^ (exponent x + 53) := by
  have hnear : |nearest (x / 2 ^ exponent x)| ≤ 2 ^ 53 :=
    abs_nearest_le (by exact_mod_cast (abs_div_two_zpow_exponent_lt x).le)
  have hle : (nearest (x / 2 ^ exponent x) : ℝ) ≤ 2 ^ 53 := by
    exact_mod_cast (le_abs_self _).trans hnear
  calc rounded x ≤ 2 ^ 53 * 2 ^ exponent x := mul_le_mul_of_nonneg_right hle (by positivity)
    _ = 2 ^ (exponent x + 53) := by
      rw [add_comm, zpow_add₀ two_ne_zero]
      norm_num

theorem two_zpow_le_rounded {x : ℝ} {e : ℤ} (he : e = exponent x) (h : 2 ^ (e + 52) ≤ x) :
    2 ^ (e + 52) ≤ rounded x := by
  have hdiv : ((2 ^ 52 : ℤ) : ℝ) ≤ x / 2 ^ e := by
    rw [le_div_iff₀ (by positivity)]
    calc ((2 ^ 52 : ℤ) : ℝ) * 2 ^ e = 2 ^ (e + 52) := by
          rw [add_comm e, zpow_add₀ two_ne_zero]
          norm_num
      _ ≤ x := h
  have hnear : ((2 ^ 52 : ℤ) : ℝ) ≤ nearest (x / 2 ^ e) := by
    exact_mod_cast (nearest_intCast (2 ^ 52)).ge.trans (nearest_mono hdiv)
  rw [rounded, ← he]
  calc (2 : ℝ) ^ (e + 52) = ((2 ^ 52 : ℤ) : ℝ) * 2 ^ e := by
        rw [add_comm e, zpow_add₀ two_ne_zero]
        norm_num
    _ ≤ nearest (x / 2 ^ e) * 2 ^ e := mul_le_mul_of_nonneg_right hnear (by positivity)

/-- Among the positive numbers rounding keeps the order: numbers with equal exponents are rounded on
one grid, and a number with a smaller exponent stays below the power of two between the two. -/
theorem rounded_le_of_pos {x y : ℝ} (hx : 0 < x) (h : x ≤ y) : rounded x ≤ rounded y := by
  rcases (exponent_mono hx h).lt_or_eq with hlt | heq
  · have hy : 0 < y := hx.trans_le h
    have hle := two_zpow_le_of_exponent hy.ne' ((le_exponent x).trans_lt hlt)
    rw [abs_of_pos hy] at hle
    calc rounded x ≤ 2 ^ (exponent x + 53) := rounded_le_two_zpow x
      _ ≤ 2 ^ (exponent y + 52) := zpow_le_zpow_right₀ one_le_two (by omega)
      _ ≤ rounded y := two_zpow_le_rounded rfl hle
  · unfold rounded
    rw [heq]
    have hdiv : x / 2 ^ exponent y ≤ y / 2 ^ exponent y := by gcongr
    have hnear : (nearest (x / 2 ^ exponent y) : ℝ) ≤ nearest (y / 2 ^ exponent y) := by
      exact_mod_cast nearest_mono hdiv
    gcongr

theorem rounded_mono {x y : ℝ} (h : x ≤ y) : rounded x ≤ rounded y := by
  rcases lt_or_ge 0 x with hx | hx
  · exact rounded_le_of_pos hx h
  rcases le_or_gt 0 y with hy | hy
  · have hneg := rounded_nonneg (neg_nonneg.mpr hx)
    rw [rounded_neg] at hneg
    exact (neg_nonneg.mp hneg).trans (rounded_nonneg hy)
  · have hneg := rounded_le_of_pos (neg_pos.mpr hy) (neg_le_neg h)
    rw [rounded_neg, rounded_neg] at hneg
    exact neg_le_neg_iff.mp hneg

theorem rounded_le {x b : ℝ} (hb : Representable b) (h : x ≤ b) : rounded x ≤ b :=
  (rounded_mono h).trans (rounded_of_representable hb).le

theorem le_rounded {x b : ℝ} (hb : Representable b) (h : b ≤ x) : b ≤ rounded x :=
  (rounded_of_representable hb).ge.trans (rounded_mono h)

theorem abs_rounded_le {x b : ℝ} (hb : Representable b) (h : |x| ≤ b) : |rounded x| ≤ b := by
  obtain ⟨hlo, hhi⟩ := abs_le.mp h
  exact abs_le.mpr ⟨le_rounded (representable_neg hb) hlo, rounded_le hb hhi⟩

/-- A number takes in less than half of the step to the next one without a change. -/
theorem rounded_add_of_le {x t : ℝ} (hx : Representable x) (hpos : 0 < x) (ht : 0 ≤ t)
    (h : t ≤ 2 ^ (-54 : ℤ) * x) : rounded (x + t) = x := by
  have hunit : (0 : ℝ) < 2 ^ exponent x := by positivity
  obtain ⟨n, hn⟩ : ∃ n : ℤ, x = n * 2 ^ exponent x := ⟨_, (rounded_of_representable hx).symm⟩
  have hquotient : x / 2 ^ exponent x = n := (div_eq_iff hunit.ne').mpr hn
  have hbelow := abs_lt_two_zpow_exponent x
  rw [abs_of_pos hpos, add_comm, zpow_add₀ two_ne_zero] at hbelow
  have hsmall : t / 2 ^ exponent x < 1 / 2 := by
    rw [div_lt_iff₀ hunit]
    norm_num at h hbelow ⊢
    linarith
  have hstep : (n : ℝ) + 1 ≤ 2 ^ (53 : ℤ) := by
    have hlt : (n : ℝ) < 2 ^ (53 : ℤ) := by rwa [← hquotient, div_lt_iff₀ hunit]
    exact_mod_cast hlt
  have hdiv : (x + t) / 2 ^ exponent x = n + t / 2 ^ exponent x := by rw [add_div, hquotient]
  have hexp : exponent (x + t) = exponent x := by
    refine le_antisymm (exponent_le_of_lt_two_zpow (by positivity) (le_exponent x) ?_)
      (exponent_mono hpos (le_add_of_nonneg_right ht))
    rw [abs_of_pos (by positivity), add_comm (exponent x), zpow_add₀ two_ne_zero,
      ← div_lt_iff₀ hunit, hdiv]
    linarith
  have hnonneg : 0 ≤ t / 2 ^ exponent x := by positivity
  have hfract : Int.fract ((n : ℝ) + t / 2 ^ exponent x) = t / 2 ^ exponent x := by
    rw [Int.fract_intCast_add, Int.fract_eq_self.mpr ⟨hnonneg, by linarith⟩]
  have hfloor : ⌊(n : ℝ) + t / 2 ^ exponent x⌋ = n := by
    rw [Int.floor_intCast_add, Int.floor_eq_zero_iff.mpr ⟨hnonneg, by linarith⟩, add_zero]
  rw [rounded, hexp, hdiv, nearest_of_lt (by rwa [hfract]), hfloor]
  exact hn.symm

/-- Every number that needs no rounding is a whole multiple of the least positive one. -/
theorem Representable.exists_multiple {x : ℝ} (h : Representable x) :
    ∃ n : ℤ, x = n * 2 ^ (-1074 : ℤ) := by
  obtain ⟨m, e, -, he, rfl⟩ := h
  have hnat : ((e + 1074).toNat : ℤ) = e + 1074 := Int.toNat_of_nonneg (by omega)
  have hsplit : (2 : ℝ) ^ e = 2 ^ (e + 1074).toNat * 2 ^ (-1074 : ℤ) := by
    rw [← zpow_natCast, hnat, ← zpow_add₀ two_ne_zero, add_neg_cancel_right]
  refine ⟨m * 2 ^ (e + 1074).toNat, ?_⟩
  rw [hsplit]
  push_cast
  ring

theorem Representable.two_zpow_le {x : ℝ} (h : Representable x) (hpos : 0 < x) :
    2 ^ (-1074 : ℤ) ≤ x := by
  obtain ⟨n, rfl⟩ := h.exists_multiple
  have hunit : (0 : ℝ) < 2 ^ (-1074 : ℤ) := by positivity
  have hn : (1 : ℝ) ≤ n := by exact_mod_cast (mul_pos_iff_of_pos_right hunit).mp hpos
  exact le_mul_of_one_le_left hunit.le hn

/-- The difference of two numbers may be rounded, but not to zero unless they are equal. -/
theorem rounded_sub_nonneg_iff {x y : ℝ} (hx : Representable x) (hy : Representable y) :
    0 ≤ rounded (x - y) ↔ y ≤ x := by
  constructor
  · intro hround
    by_contra hlt
    obtain ⟨m, rfl⟩ := hx.exists_multiple
    obtain ⟨n, rfl⟩ := hy.exists_multiple
    have hunit : (0 : ℝ) < 2 ^ (-1074 : ℤ) := by positivity
    have hmn : m < n := by exact_mod_cast lt_of_mul_lt_mul_right (not_le.mp hlt) hunit.le
    have hstep : (m : ℝ) + 1 ≤ n := by exact_mod_cast hmn
    have hle : (m : ℝ) * 2 ^ (-1074 : ℤ) - n * 2 ^ (-1074 : ℤ) ≤ -2 ^ (-1074 : ℤ) := by nlinarith
    have hneg := rounded_le (representable_neg (representable_two_zpow le_rfl)) hle
    linarith
  · intro hle
    exact rounded_nonneg (sub_nonneg.mpr hle)

theorem rounded_sub_nonpos_iff {x y : ℝ} (hx : Representable x) (hy : Representable y) :
    rounded (x - y) ≤ 0 ↔ x ≤ y := by
  rw [← rounded_sub_nonneg_iff hy hx, ← neg_sub y x, rounded_neg, neg_nonpos]

end Placement.Double
