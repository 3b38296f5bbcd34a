import Mathlib
import Placement.Proofs.Decimal.Exact
import Placement.Proofs.Document.Schema
import Placement.Proofs.Json.Grammar

/-!
# The numbers of literals

A literal is read as a whole number from zero on exactly if it has neither sign nor point nor
exponent and fits 64 bits; a minus sign before a zero is enough to make it a double. As a double, a
literal is read as its digits within 64 bits times a power of ten, if that is finite.
-/
namespace Placement.Json
open Decimal Document Double

variable {l : Literal} {x : Float} {n : ℕ}

theorem accumulate_lt {s : ℕ} (digits : List Char) (hs : s < UInt64.size) :
    (Literal.accumulate s digits).1 < UInt64.size := by
  induction digits generalizing s with
  | nil => exact hs
  | cons d digits ih =>
    rw [Literal.accumulate]
    split_ifs with hnext
    · exact ih hnext
    · exact hs

theorem collect_lt (l : Literal) : l.collect.1 < UInt64.size :=
  accumulate_lt _ (accumulate_lt _ (by decide))

/-- Where no digit is left over, all of them have been collected. -/
theorem ofDigitChars_of_accumulate {s : ℕ} {digits : List Char}
    (h : (Literal.accumulate s digits).2 = []) :
    Nat.ofDigitChars 10 digits s = (Literal.accumulate s digits).1 := by
  induction digits generalizing s with
  | nil => rfl
  | cons d digits ih =>
    rw [Literal.accumulate] at h ⊢
    rw [Nat.ofDigitChars_cons]
    split_ifs at h ⊢
    exact ih h

theorem fractionDigits_of_isWhole (h : l.isWhole = true) : l.fractionDigits = [] := by
  rw [Literal.isWhole, Bool.and_eq_true, Option.isNone_iff_eq_none] at h
  rw [Literal.fractionDigits, h.1, Option.getD_none]

theorem exponentValue_of_isWhole (h : l.isWhole = true) : l.exponentValue = 0 := by
  rw [Literal.isWhole, Bool.and_eq_true, Option.isNone_iff_eq_none, Option.isNone_iff_eq_none] at h
  rw [Literal.exponentValue, h.2, Option.getD_none]

theorem collect_of_isWhole (h : l.isWhole = true) :
    l.collect.1 = (Literal.accumulate 0 l.whole).1 ∧
      l.collect.2.1 = (Literal.accumulate 0 l.whole).2.length ∧
      l.collect.2.2 = (Literal.accumulate 0 l.whole).2.isEmpty := by
  unfold Literal.collect
  rw [fractionDigits_of_isWhole h, exponentValue_of_isWhole h]
  exact ⟨rfl, by simp [Literal.accumulate], rfl⟩

/-- A literal is read as a number, or beyond all doubles as nothing. -/
theorem number_eq_other_or (l : Literal) : number l = .other ∨ ∃ x, number l = .number x := by
  unfold number
  dsimp only
  split
  · split_ifs <;> exact .inr ⟨_, rfl⟩
  · split
    · exact .inr ⟨_, rfl⟩
    · exact .inl rfl

theorem number_eq_natural : number l = .number (.int n) ↔
    l.isWhole = true ∧ l.negative = false ∧ ofDigits l.whole = n ∧ n < UInt64.size := by
  constructor
  · intro h
    unfold number at h
    dsimp only at h
    split at h
    · next hcond =>
      obtain ⟨whole, complete⟩ := hcond
      obtain ⟨hs, -, hcomplete⟩ := collect_of_isWhole whole
      rw [hcomplete] at complete
      have hdigits := ofDigitChars_of_accumulate (List.isEmpty_iff.mp complete)
      rw [← hs] at hdigits
      cases hnegative : l.negative with
      | false =>
        rw [hnegative] at h
        obtain rfl : l.collect.1 = n := by simpa using h
        exact ⟨whole, rfl, hdigits, collect_lt l⟩
      | true =>
        -- minus nothing is read as a double, and minus something is below zero
        rw [hnegative] at h
        simp only [Bool.not_true, Bool.false_eq_true, if_false] at h
        split at h
        · cases h
        · next hpos =>
          simp only [Document.number.injEq, Number.int.injEq] at h
          exact absurd (by omega) hpos
    · split at h <;> cases h
  · rintro ⟨whole, negative, rfl, hlt⟩
    have hdigits : ofDigits (l.whole ++ l.fractionDigits) = ofDigits l.whole := by
      rw [fractionDigits_of_isWhole whole, List.append_nil]
    have hcollect : l.collect = _ := Literal.collect_of_lt (by rwa [hdigits])
    rw [number, hcollect, hdigits]
    simp [whole, negative]

theorem toFloat_ofNat (h : n < UInt64.size) : (UInt64.ofNat n).toFloat = Float.ofNat n := by
  obtain ⟨hbelow, hvalue⟩ := Literal.below_significand h
  rcases Nat.lt_or_ge n (2 ^ 53) with hsmall | hlarge
  · obtain ⟨hamount, hexact⟩ := amount_ofNat_of_lt hsmall
    refine hbelow.amount.ext hamount (hvalue.trans ?_)
    rw [hexact, rounded_of_representable (representable_natCast hsmall.le)]
  · have hle : rounded n < 2 ^ 1024 :=
      rounded_lt_of_le (k := 64) (by norm_num) (by exact_mod_cast h.le)
    have hrounds := rounds_ofNat_of_le hlarge
    have hamount : Amount (Float.ofNat n) := ⟨isFinite_of_proper (hrounds.proper hle), hrounds.sign⟩
    exact hbelow.amount.ext hamount (hvalue.trans (hrounds.value hle).symm)

/-- A double times a power of ten, with infinity for what is beyond all doubles. -/
def stretch (x : Float) (exponent : ℤ) : Float :=
  let k := exponent.natAbs
  if exponent < 0 then
    Literal.shrink ((k - 1) / Literal.greatestPower) x /
      Literal.powerOfTen ((k - 1) % Literal.greatestPower + 1)
  else if k ≤ Literal.greatestPower then x * Literal.powerOfTen k
  else if x == 0.0 then x else 1.0 / 0.0

/-- The double of a literal: the digits that fit 64 bits times the power of ten that is due. -/
def double (l : Literal) : Float :=
  Literal.signed l.negative (stretch (UInt64.ofNat l.collect.1).toFloat l.collect.2.1)

/-- Scaling keeps what is finite. -/
theorem scale_eq_some {y : Float} {e : ℤ} (hx : Below 64 x) :
    Literal.scale x e = some y ↔ stretch x e = y ∧ y.isFinite = true := by
  unfold Literal.scale stretch
  dsimp only
  split_ifs with hneg hsmall hfinite hzero
  · have hrest := Nat.mod_lt (e.natAbs - 1) (show 0 < Literal.greatestPower by decide)
    have hone : (10 : ℝ) ^ 0 ≤
        Double.value (Literal.powerOfTen ((e.natAbs - 1) % Literal.greatestPower + 1)) :=
      Literal.le_powerOfTen (Nat.zero_le _) (Nat.zero_le _) hrest
    rw [pow_zero] at hone
    obtain ⟨hbelow, -⟩ := (Literal.below_shrink _ hx (by norm_num)).div
      (Literal.powerOfTen_spec hrest).1 hone (by norm_num)
    rw [Option.some.injEq, iff_self_and]
    rintro rfl
    exact hbelow.amount.finite
  · rw [Option.some.injEq, iff_self_and]
    rintro rfl
    exact hfinite
  · refine iff_of_false nofun ?_
    rintro ⟨rfl, h⟩
    exact hfinite h
  · rw [Option.some.injEq, iff_self_and]
    rintro rfl
    exact hx.amount.finite
  · refine iff_of_false nofun ?_
    rintro ⟨rfl, h⟩
    exact absurd h (by decide +kernel)

theorem stretch_zero (hx : Below 64 x) : stretch x 0 = x := by
  have hone : Literal.powerOfTen 0 = 1.0 := by decide +kernel
  have hround : rounded (Double.value x * Double.value 1.0) = Double.value x := by
    rw [value_one, mul_one, rounded_of_representable (representable_value hx.amount.finite)]
  obtain ⟨hproduct, hvalue⟩ := hx.mul below_one (by norm_num)
  change x * Literal.powerOfTen 0 = x
  rw [hone]
  exact hproduct.amount.ext hx.amount (hvalue.trans hround)

theorem isFinite_of_signed {negative : Bool} (h : (Literal.signed negative x).isFinite = true) :
    x.isFinite = true := by
  cases negative with
  | false => exact h
  | true =>
    have hproper : Proper (-x).toModel.unpack := proper_unpack h
    refine isFinite_of_proper ?_
    rw [unpack_neg] at hproper
    cases hu : x.toModel.unpack with
    | zero s => trivial
    | finite s m q hm => rwa [hu] at hproper
    | infinity s => rw [hu] at hproper; cases hproper
    | notANumber => rw [hu] at hproper; cases hproper

theorem readFloat_of_complete (whole : l.isWhole = true) (complete : l.collect.2.2 = true) :
    readFloat (number l) = .ok (Literal.signed l.negative (UInt64.ofNat l.collect.1).toFloat) := by
  rw [number]
  dsimp only
  rw [if_pos ⟨whole, complete⟩, toFloat_ofNat (collect_lt l)]
  cases l.negative with
  | false => rfl
  | true =>
    simp only [Bool.not_true, Bool.false_eq_true, if_false]
    split_ifs with hextreme
    · rfl
    · obtain ⟨n, hn⟩ := Nat.exists_eq_succ_of_ne_zero (not_or.mp hextreme).1
      rw [hn]
      rfl

theorem readFloat_of_incomplete (h : ¬ (l.isWhole = true ∧ l.collect.2.2 = true)) :
    readFloat (number l) = .ok x ↔ l.scaled = some x := by
  rw [number]
  dsimp only
  rw [if_neg h]
  cases l.scaled with
  | none => simp only [readFloat, reduceCtorEq]
  | some y => simp only [readFloat, Except.ok.injEq, Option.some.injEq]

/-- A number is read as its double if that is finite. -/
theorem readFloat_number : readFloat (number l) = .ok x ↔ double l = x ∧ x.isFinite = true := by
  obtain ⟨hbelow, -⟩ := Literal.below_significand (collect_lt l)
  by_cases hcomplete : l.isWhole = true ∧ l.collect.2.2 = true
  · obtain ⟨whole, complete⟩ := hcomplete
    obtain ⟨-, hexponent, hempty⟩ := collect_of_isWhole whole
    have hnone : (Literal.accumulate 0 l.whole).2 = [] := List.isEmpty_iff.mp (hempty ▸ complete)
    rw [hnone, List.length_nil, Nat.cast_zero] at hexponent
    rw [readFloat_of_complete whole complete, double, hexponent, stretch_zero hbelow,
      Except.ok.injEq, iff_self_and]
    rintro rfl
    exact Literal.isFinite_signed _ hbelow.amount.finite
  · rw [readFloat_of_incomplete hcomplete, Literal.scaled, Option.map_eq_some_iff]
    constructor
    · rintro ⟨y, hscale, rfl⟩
      obtain ⟨hstretch, hfinite⟩ := (scale_eq_some hbelow).mp hscale
      exact ⟨congrArg _ hstretch, Literal.isFinite_signed _ hfinite⟩
    · rintro ⟨rfl, hfinite⟩
      exact ⟨_, (scale_eq_some hbelow).mpr ⟨rfl, isFinite_of_signed hfinite⟩, rfl⟩

end Placement.Json
