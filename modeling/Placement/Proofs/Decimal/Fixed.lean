import Mathlib
import Placement.Decimal.Fixed
import Placement.Proofs.Decimal.Written
import Placement.Proofs.Json.Double

/-!
# Numbers shown with a fixed number of places

An amount is shown as the decimal that is nearest to its exact value among those with so many
places, the even one of two that are equally near. So a larger amount is not shown as a smaller one,
although different amounts may be shown alike. Only digits and a point are written.
-/
namespace Placement.Decimal
open Double

/-- The whole number `n` is nearest to `x`, and even if another one is as near. -/
structure NearestEven (x : ℝ) (n : ℕ) : Prop where
  near : |x - n| ≤ 1 / 2
  even_of_tie : |x - n| = 1 / 2 → Even n

theorem NearestEven.mono {x y : ℝ} {m n : ℕ} (hx : NearestEven x m) (hy : NearestEven y n)
    (h : x ≤ y) : m ≤ n := by
  by_contra hlt
  -- only two ties between the same two numbers could be turned around, and both go to the even one
  have hsucc : (n : ℝ) + 1 ≤ m := by exact_mod_cast not_le.mp hlt
  obtain ⟨hlow, -⟩ := abs_le.mp hx.near
  obtain ⟨-, hhigh⟩ := abs_le.mp hy.near
  have hm : Even m := hx.even_of_tie (by rw [abs_of_neg] <;> linarith)
  have hn : Even n := hy.even_of_tie (by rw [abs_of_pos] <;> linarith)
  have heq : m = n + 1 := by
    have hle : (m : ℝ) ≤ n + 1 := by linarith
    exact_mod_cast le_antisymm hle hsucc
  rw [heq, Nat.even_add_one] at hm
  exact hm hn

section
variable {r : ℝ} (n : ℕ)

theorem nearestEven_of_lt_half (hnonneg : 0 ≤ r) (hlt : r < 1 / 2) : NearestEven (n + r) n := by
  have habs : |(n : ℝ) + r - n| = r := by rw [add_sub_cancel_left, abs_of_nonneg hnonneg]
  exact ⟨habs.trans_le hlt.le, fun htie => absurd (habs.symm.trans htie) hlt.ne⟩

theorem nearestEven_of_half_lt (hgt : 1 / 2 < r) (hlt : r < 1) :
    NearestEven (n + r) (n + 1) := by
  have habs : |(n : ℝ) + r - (n + 1 : ℕ)| = 1 - r := by
    rw [Nat.cast_add_one, abs_of_neg (by linarith)]
    ring
  exact ⟨by rw [habs]; linarith, fun htie => by rw [habs] at htie; linarith⟩

theorem nearestEven_half : NearestEven (n + 1 / 2) (if n % 2 = 0 then n else n + 1) := by
  split_ifs with heven
  · refine ⟨?_, fun _ => Nat.even_iff.mpr heven⟩
    rw [add_sub_cancel_left, abs_of_pos one_half_pos]
  · refine ⟨?_, fun _ => Nat.even_add_one.mpr (mt Nat.even_iff.mp heven)⟩
    have hdiff : (n : ℝ) + 1 / 2 - (n + 1 : ℕ) = -(1 / 2) := by
      push_cast
      ring
    rw [hdiff, abs_neg, abs_of_pos one_half_pos]

end

theorem nearestEven_roundHalfEven (num : ℕ) {den : ℕ} (hden : 0 < den) :
    NearestEven (num / den) (roundHalfEven num den) := by
  have hpos : (0 : ℝ) < den := by exact_mod_cast hden
  have hsplit : (num : ℝ) / den = (num / den : ℕ) + (num % den : ℕ) / den := by
    have hmod : (den : ℝ) * (num / den : ℕ) + (num % den : ℕ) = num := by
      exact_mod_cast Nat.div_add_mod num den
    rw [← hmod]
    field_simp
  rw [hsplit, roundHalfEven]
  cases hrest : compare (2 * (num % den)) den with
  | lt =>
    apply nearestEven_of_lt_half _ (by positivity)
    rw [div_lt_div_iff₀ hpos two_pos, one_mul, mul_comm]
    exact_mod_cast compare_lt_iff_lt.mp hrest
  | gt =>
    apply nearestEven_of_half_lt
    · rw [div_lt_div_iff₀ two_pos hpos, one_mul, mul_comm _ (2 : ℝ)]
      exact_mod_cast compare_gt_iff_gt.mp hrest
    · rw [div_lt_one hpos]
      exact_mod_cast Nat.mod_lt num hden
  | eq =>
    have hhalf : ((num % den : ℕ) : ℝ) / den = 1 / 2 := by
      rw [div_eq_div_iff hpos.ne' two_ne_zero, one_mul, mul_comm]
      exact_mod_cast compare_eq_iff_eq.mp hrest
    rw [hhalf]
    exact nearestEven_half _

theorem two_zpow_eq_div (q : ℤ) : (2 : ℝ) ^ q = 2 ^ q.toNat / 2 ^ (-q).toNat := by
  rw [← zpow_natCast, ← zpow_natCast, ← zpow_sub₀ two_ne_zero]
  congr 1
  omega

theorem nearestEven_unitsOf (places m : ℕ) (q : ℤ) :
    NearestEven (m * 2 ^ q * 10 ^ places) (unitsOf places m q) := by
  have hden : 0 < Nat.pow 2 (-q).toNat := Nat.pow_pos two_pos
  have h := nearestEven_roundHalfEven (m * Nat.pow 10 places * Nat.pow 2 q.toNat) hden
  have hvalue : ((m * Nat.pow 10 places * Nat.pow 2 q.toNat : ℕ) : ℝ) / (Nat.pow 2 (-q).toNat : ℕ) =
      m * 2 ^ q * 10 ^ places := by
    rw [two_zpow_eq_div]
    push_cast [Nat.pow_eq]
    ring
  rwa [hvalue] at h

/-- A decimal without a sign: the digits before its point, at least one, and those after it. -/
structure Figure where
  whole : List Char
  fraction : List Char
  nonempty : whole ≠ []
  digit : ∀ c ∈ whole ++ fraction, c.isDigit = true

namespace Figure

def text (p : Figure) : String := String.ofList (p.whole ++ '.' :: p.fraction)

/-- The number of units of the last place. It is even if the last digit is. -/
def units (p : Figure) : ℕ := ofDigits (p.whole ++ p.fraction)

noncomputable def value (p : Figure) : ℝ := p.units / 10 ^ p.fraction.length

theorem value_nonneg (p : Figure) : 0 ≤ p.value := by
  unfold value
  positivity

theorem isDigit_of_mem_text {p : Figure} {c : Char} (h : c ∈ p.text.toList) :
    c = '.' ∨ c.isDigit = true := by
  rw [text, String.toList_ofList] at h
  rcases List.mem_append.mp h with hwhole | hrest
  · exact .inr (p.digit c (List.mem_append_left _ hwhole))
  rcases List.mem_cons.mp hrest with rfl | hfraction
  · exact .inl rfl
  · exact .inr (p.digit c (List.mem_append_right _ hfraction))

/-- The decimal shows a double with so many places: it is at most half a unit of its last place away
from the exact value, and an exact half goes to the even digit. -/
structure Shows (p : Figure) (places : ℕ) (x : Float) : Prop where
  finite : x.isFinite = true
  length : p.fraction.length = places
  near : |Double.value x - p.value| ≤ 1 / 2 / 10 ^ places
  even_of_tie : |Double.value x - p.value| = 1 / 2 / 10 ^ places → Even p.units

variable {p : Figure} {places : ℕ} {x : Float}

theorem shows_iff : p.Shows places x ↔ x.isFinite = true ∧ p.fraction.length = places ∧
    NearestEven (Double.value x * 10 ^ places) p.units := by
  have hpos : (0 : ℝ) < 10 ^ places := by positivity
  have hscale (h : p.fraction.length = places) : |Double.value x - p.value| =
      |Double.value x * 10 ^ places - p.units| / 10 ^ places := by
    rw [value, h, ← abs_of_pos hpos, ← abs_div, abs_of_pos hpos]
    congr 1
    field_simp
  constructor
  · rintro ⟨finite, hplaces, near, even_of_tie⟩
    rw [hscale hplaces] at near even_of_tie
    rw [div_le_div_iff_of_pos_right hpos] at near
    rw [div_left_inj' hpos.ne'] at even_of_tie
    exact ⟨finite, hplaces, near, even_of_tie⟩
  · rintro ⟨finite, hplaces, near, even_of_tie⟩
    refine ⟨finite, hplaces, ?_, ?_⟩
    · rwa [hscale hplaces, div_le_div_iff_of_pos_right hpos]
    · rwa [hscale hplaces, div_left_inj' hpos.ne']

/-- What is larger is not shown as smaller. -/
theorem Shows.value_le {p' : Figure} {x' : Float} (h : p.Shows places x)
    (h' : p'.Shows places x') (hle : Double.value x ≤ Double.value x') : p.value ≤ p'.value := by
  obtain ⟨-, hplaces, hnearest⟩ := shows_iff.mp h
  obtain ⟨-, hplaces', hnearest'⟩ := shows_iff.mp h'
  have hunits := hnearest.mono hnearest' (mul_le_mul_of_nonneg_right hle (by positivity))
  rw [value, value, hplaces, hplaces']
  gcongr

end Figure

variable {places : ℕ}

theorem exists_pointed (hplaces : 0 < places) (n : ℕ) : ∃ p : Figure,
    pointed places n = p.whole ++ '.' :: p.fraction ∧ p.fraction.length = places ∧ p.units = n := by
  let digits := Nat.toDigits 10 n
  let padded := List.replicate (places + 1 - digits.length) '0' ++ digits
  have hlength : places < padded.length := by
    simp only [padded, List.length_append, List.length_replicate]
    omega
  have hdigit : ∀ c ∈ padded, c.isDigit = true := by
    intro c hc
    rcases List.mem_append.mp hc with hzero | hdigit
    · rw [List.eq_of_mem_replicate hzero]
      rfl
    · exact isDigit_of_mem_toDigits hdigit
  have hjoin := List.take_append_drop (padded.length - places) padded
  refine ⟨⟨padded.take (padded.length - places), padded.drop (padded.length - places), ?_, ?_⟩,
    ?_, ?_, ?_⟩
  · rw [ne_eq, List.take_eq_nil_iff]
    have hne : padded ≠ [] := List.ne_nil_of_length_pos (by omega)
    rintro (hzero | hnil)
    · omega
    · exact hne hnil
  · rwa [hjoin]
  · exact if_neg hplaces.ne'
  · rw [List.length_drop]
    omega
  · change ofDigits (padded.take _ ++ padded.drop _) = n
    rw [hjoin, ofDigits_zeros_append, ofDigits_toDigits]

/-- An amount is shown as a decimal, never as infinity or as no number. -/
theorem exists_shows (hplaces : 0 < places) {x : Float} (hx : Amount x) :
    ∃ p : Figure, fixed places x = p.text ∧ p.Shows places x := by
  obtain ⟨m, q, hdyadic, -, hvalue⟩ := Json.dyadic_of_amount hx
  obtain ⟨p, htext, hlength, hunits⟩ := exists_pointed hplaces (unitsOf places m q)
  refine ⟨p, ?_, Figure.shows_iff.mpr ⟨hx.finite, hlength, ?_⟩⟩
  · rw [fixed, hdyadic, fixedDyadic, htext]
    rfl
  · rw [hvalue, hunits]
    exact nearestEven_unitsOf places m q

end Placement.Decimal
