import Mathlib
import Placement.Json.Printer
import Placement.Json.Reader
import Placement.Proofs.Decimal.Literal

/-!
# The literals of doubles

A positive double is written as a literal whose significand and exponent say the same as its digits,
except that a whole number gets a zero after its point, which collecting takes for a further digit.
-/
namespace Placement.Json
open Decimal

variable {n : ℕ} {d : Scientific} {negative : Bool}

theorem head?_toDigits (h : 0 < n) : (Nat.toDigits 10 n).head? ≠ some '0' := by
  induction n using Nat.strongRecOn with
  | ind n ih =>
    rw [Nat.toDigits_eq_if (by norm_num)]
    split_ifs with hlt
    · interval_cases n <;> decide
    · have hrest := ih (n / 10) (by omega) (by omega)
      obtain ⟨c, cs, hcs⟩ :=
        List.exists_cons_of_ne_nil (Nat.toDigits_ne_nil (b := 10) (n := n / 10))
      rw [hcs] at hrest ⊢
      exact hrest

/-- Digits and zeros around a point after the first `before` digits. -/
def plainNumeral (negative : Bool) (digits : List Char) (before : ℤ) : Literal :=
  if digits.length ≤ before then
    ⟨negative, digits ++ List.replicate (before - digits.length).toNat '0', some ['0'], none⟩
  else if 0 < before then
    ⟨negative, digits.take before.toNat, some (digits.drop before.toNat), none⟩
  else ⟨negative, ['0'], some (List.replicate (-before).toNat '0' ++ digits), none⟩

/-- One digit, the others after a point, and an exponent. -/
def scientificNumeral (negative : Bool) (digits : List Char) (before : ℤ) : Literal :=
  ⟨negative, digits.take 1, if digits.length ≤ 1 then none else some (digits.drop 1),
    some (before - 1)⟩

/-- The literal that stands for a double with the given sign and digits. -/
def numeral (negative : Bool) (d : Scientific) : Literal :=
  let digits := Nat.toDigits 10 d.significand
  let before := digits.length + d.exponent
  if doubles.positional before then plainNumeral negative digits before
  else scientificNumeral negative digits before

section
variable {digits : List Char} (before : ℤ)

theorem written_plainNumeral {l : Layout} (point : l.wholeWithPoint = true) :
    (plainNumeral negative digits before).written =
      Layout.sign negative (l.plain digits before) := by
  unfold plainNumeral Layout.plain
  cases negative <;> split_ifs <;>
    simp [Literal.written, Layout.sign, Layout.wholeEnd, point]

theorem written_scientificNumeral : (scientificNumeral negative digits before).written =
    Layout.sign negative (Layout.scientific digits before) := by
  unfold scientificNumeral Layout.scientific
  cases negative <;> split_ifs <;>
    simp [Literal.written, Literal.writtenExponent, Layout.sign, *]

variable (nonempty : digits ≠ []) (digit : ∀ c ∈ digits, c.isDigit = true)
  (leading : digits.head? ≠ some '0')
include nonempty digit

include leading in
theorem regular_plainNumeral : (plainNumeral negative digits before).Regular := by
  have hzeros (k : ℕ) : ∀ c ∈ List.replicate k '0', c.isDigit = true := by
    intro c hc
    rw [List.eq_of_mem_replicate hc]
    rfl
  have hhead : ∀ rest, (digits ++ rest).head? ≠ some '0' := by
    intro rest
    rwa [List.head?_append_of_ne_nil _ nonempty]
  unfold plainNumeral
  split_ifs with hlong hinside
  · refine ⟨by simp [nonempty], ?_, fun h => absurd h (hhead _), by simp⟩
    intro c hc
    rcases List.mem_append.mp hc with hc | hc
    · exact digit c hc
    · exact hzeros _ c hc
  · refine ⟨?_, fun c hc => digit c (List.mem_of_mem_take hc), fun h => ?_, ?_⟩
    · simp only [ne_eq, List.take_eq_nil_iff, nonempty, or_false]
      omega
    · rw [List.head?_take] at h
      split_ifs at h
      · exact absurd h leading
    · intro ds hds
      obtain rfl := Option.mem_some_iff.mp hds
      refine ⟨?_, fun c hc => digit c (List.mem_of_mem_drop hc)⟩
      simp only [ne_eq, List.drop_eq_nil_iff]
      omega
  · refine ⟨by simp, by simp, fun _ => rfl, ?_⟩
    intro ds hds
    obtain rfl := Option.mem_some_iff.mp hds
    refine ⟨by simp [nonempty], fun c hc => ?_⟩
    rcases List.mem_append.mp hc with hc | hc
    · exact hzeros _ c hc
    · exact digit c hc

theorem regular_scientificNumeral : (scientificNumeral negative digits before).Regular := by
  refine ⟨by simp [scientificNumeral, nonempty], fun c hc => digit c (List.mem_of_mem_take hc),
    fun _ => ?_, ?_⟩
  · have hpos := List.length_pos_of_ne_nil nonempty
    simp only [scientificNumeral, List.length_take]
    omega
  · intro ds hds
    simp only [scientificNumeral] at hds
    split_ifs at hds with hlength
    · cases hds
    · cases hds
      refine ⟨?_, fun c hc => digit c (List.mem_of_mem_drop hc)⟩
      simp only [ne_eq, List.drop_eq_nil_iff]
      omega

end

theorem written_numeral (d : Scientific) :
    (numeral negative d).written = Layout.sign negative (doubles.magnitude d) := by
  unfold numeral Layout.magnitude
  simp only
  split_ifs
  · exact written_plainNumeral _ rfl
  · exact written_scientificNumeral _

theorem regular_numeral (positive : 0 < d.significand) : (numeral negative d).Regular := by
  have nonempty : Nat.toDigits 10 d.significand ≠ [] := Nat.toDigits_ne_nil
  have digit : ∀ c ∈ Nat.toDigits 10 d.significand, c.isDigit = true :=
    fun c hc => isDigit_of_mem_toDigits hc
  unfold numeral
  simp only
  split_ifs
  · exact regular_plainNumeral _ nonempty digit (head?_toDigits positive)
  · exact regular_scientificNumeral _ nonempty digit

theorem negative_numeral (negative : Bool) (d : Scientific) :
    (numeral negative d).negative = negative := by
  unfold numeral plainNumeral scientificNumeral
  simp only
  split_ifs <;> rfl

theorem isWhole_numeral (negative : Bool) (d : Scientific) :
    (numeral negative d).isWhole = false := by
  unfold numeral plainNumeral scientificNumeral
  simp only
  split_ifs <;> simp [Literal.isWhole]

theorem length_toDigits_add_le {e : ℤ} (he : 0 ≤ e) (h : n * 10 ^ e.toNat < 10 ^ 16) (hn : 0 < n) :
    (Nat.toDigits 10 n).length + e ≤ 16 := by
  have hlt : e.toNat < 16 := by
    by_contra hge
    have hpow : 10 ^ 16 ≤ 10 ^ e.toNat := Nat.pow_le_pow_right (by norm_num) (not_lt.mp hge)
    have hmul : 10 ^ e.toNat ≤ n * 10 ^ e.toNat := Nat.le_mul_of_pos_left _ hn
    omega
  have hsmall : n < 10 ^ (16 - e.toNat) := by
    have hsplit : (10 : ℕ) ^ 16 = 10 ^ (16 - e.toNat) * 10 ^ e.toNat := by
      rw [← pow_add]
      congr 1
      omega
    rw [hsplit] at h
    exact lt_of_mul_lt_mul_right h (Nat.zero_le _)
  have hlength := (Nat.length_toDigits_le_iff (b := 10) (by norm_num)
    (Nat.sub_pos_of_lt hlt)).mpr hsmall
  omega

/-- A whole number gets a zero after its point, which counts as one of its digits. -/
theorem collect_numeral_whole (positive : 0 < d.significand) (whole : 0 ≤ d.exponent)
    (h : d.significand * 10 ^ d.exponent.toNat < 10 ^ 16) :
    (numeral negative d).collect = (d.significand * 10 ^ (d.exponent.toNat + 1), -1, true) := by
  have hlength := length_toDigits_add_le whole h positive
  have hpos := Nat.length_toDigits_pos (b := 10) (n := d.significand)
  have hpositional : doubles.positional ((Nat.toDigits 10 d.significand).length + d.exponent) =
      true := by
    simp only [doubles, Bool.and_eq_true, decide_eq_true_eq]
    omega
  have hnumeral : numeral negative d = ⟨negative, Nat.toDigits 10 d.significand ++
      List.replicate d.exponent.toNat '0', some ['0'], none⟩ := by
    unfold numeral plainNumeral
    simp only [hpositional, if_true]
    rw [if_pos (by omega), add_sub_cancel_left]
  have hdigits : ofDigits ((numeral negative d).whole ++ (numeral negative d).fractionDigits) =
      d.significand * 10 ^ (d.exponent.toNat + 1) := by
    rw [hnumeral]
    have hzero : ['0'] = List.replicate 1 '0' := rfl
    simp only [Literal.fractionDigits, Option.getD_some, ofDigits, hzero, Nat.ofDigitChars_append,
      Nat.ofDigitChars_replicate_zero, Nat.ofDigitChars_ten_toDigits]
    ring
  have hlt : d.significand * 10 ^ (d.exponent.toNat + 1) < UInt64.size := by
    rw [pow_succ, ← mul_assoc]
    exact lt_of_lt_of_le (Nat.mul_lt_mul_of_pos_right h (by norm_num)) (by decide)
  rw [Literal.collect_of_lt (by rwa [hdigits]), hdigits, hnumeral]
  rfl

/-- Any other number has the significand and the exponent of its digits. -/
theorem collect_numeral (fraction : d.exponent < 0) (small : d.significand < UInt64.size) :
    (numeral negative d).collect = (d.significand, d.exponent, true) := by
  have hvalue : ofDigits (Nat.toDigits 10 d.significand) = d.significand := ofDigits_toDigits _
  have hpos := Nat.length_toDigits_pos (b := 10) (n := d.significand)
  have hlt : ¬ ((Nat.toDigits 10 d.significand).length : ℤ) ≤
      (Nat.toDigits 10 d.significand).length + d.exponent := by omega
  generalize hdigits : Nat.toDigits 10 d.significand = digits at hvalue hpos hlt
  have hsplit (k : ℕ) : digits.take k ++ digits.drop k = digits := List.take_append_drop ..
  suffices h : ofDigits ((numeral negative d).whole ++ (numeral negative d).fractionDigits) =
        d.significand ∧
      (numeral negative d).exponentValue - (numeral negative d).fractionDigits.length =
        d.exponent by
    rw [Literal.collect_of_lt (by rw [h.1]; exact small), h.1, h.2]
  unfold numeral plainNumeral scientificNumeral
  simp only [hdigits, if_neg hlt]
  split_ifs with hpositional hinside hone
  · refine ⟨(congrArg ofDigits (hsplit _)).trans hvalue, ?_⟩
    simp only [Literal.exponentValue, Literal.fractionDigits, Option.getD, List.length_drop]
    omega
  · constructor
    · simp only [Literal.fractionDigits, Option.getD_some]
      rw [← hvalue, ofDigits, ofDigits, Nat.ofDigitChars_append, Nat.ofDigitChars_append,
        Nat.ofDigitChars_replicate_zero]
      rfl
    · simp only [Literal.exponentValue, Literal.fractionDigits, Option.getD, List.length_append,
        List.length_replicate]
      omega
  · have htake : digits.take 1 = digits := List.take_of_length_le hone
    refine ⟨?_, ?_⟩
    · simp only [Literal.fractionDigits, Option.getD_none, List.append_nil, htake, hvalue]
    · simp only [Literal.exponentValue, Literal.fractionDigits, Option.getD, List.length_nil]
      omega
  · refine ⟨(congrArg ofDigits (hsplit 1)).trans hvalue, ?_⟩
    simp only [Literal.exponentValue, Literal.fractionDigits, Option.getD, List.length_drop]
    omega

end Placement.Json
