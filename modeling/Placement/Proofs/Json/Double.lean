import Mathlib
import Placement.Proofs.Decimal.Scaling
import Placement.Proofs.Decimal.Shortest
import Placement.Proofs.Double.Bits
import Placement.Proofs.Footprint
import Placement.Proofs.Json.RoundTrip

/-!
# Requests written and read back

A request for processing units is written with the fewest digits that round to it, and read by
scaling them. What is read is a request again. It is the same one when the digits make up at most
53 bits and at most 22 places, because then they are rounded once; other requests may come back as
a neighbour.
-/
namespace Placement.Json
open Decimal Double Footprint

variable {x : Float} {d : Scientific} {l : Literal} {m s k : ℕ} {q : ℤ}

theorem dyadic_of_amount (hx : Amount x) :
    ∃ m q, Dyadic.ofFloat x = .finite false m q ∧ Canonical m q ∧ Double.value x = m * 2 ^ q := by
  obtain ⟨field, fraction, hfield, hfraction, hbits, hvalue⟩ := hx.toBits_eq
  rw [toReal_ofFields hfield] at hvalue
  have hcanonical : Canonical (if field = 0 then fraction else 2 ^ 52 + fraction)
      ((max 1 field : ℕ) - 1075) := by
    split_ifs with hzero
    · exact ⟨by omega, by omega, Or.inr (by rw [hzero]; rfl)⟩
    · exact ⟨by omega, by omega, Or.inl (by omega)⟩
  have hsign : (field * 2 ^ 52 + fraction) / 0x8000000000000000 % 2 = 0 := by omega
  have hhigh : (field * 2 ^ 52 + fraction) / 0x10000000000000 % 0x800 = field := by omega
  have hlow : (field * 2 ^ 52 + fraction) % 0x10000000000000 = fraction := by omega
  refine ⟨_, _, ?_, hcanonical, hvalue⟩
  rw [Dyadic.ofFloat, hbits, Dyadic.ofBits, Dyadic.hiddenBit, Dyadic.leastExponent]
  simp only [hsign, hhigh, hlow]
  rw [if_neg (by omega)]
  split_ifs with hzero
  · simp [hzero]
  · have hmax : max 1 field = field := by omega
    simp only [hmax]
    congr 1
    omega

/-- The text of a double that is not zero is the literal of its digits. -/
theorem write_eq (h : Dyadic.ofFloat x = .finite false m q) (hm : 0 < m) :
    doubles.write x = (numeral false (shortest .even m q)).written := by
  obtain ⟨m, rfl⟩ := Nat.exists_eq_succ_of_ne_zero hm.ne'
  rw [Layout.write, h, written_numeral]
  rfl

theorem number_numeral {y : Float} (hcollect : (numeral false d).collect = (s, (-k : ℤ), true))
    (hscale : Literal.scale (UInt64.ofNat s).toFloat (-k) = some y) :
    number (numeral false d) = .number (.real y) := by
  rw [number, Literal.scaled, hcollect, isWhole_numeral, negative_numeral]
  simp [hscale, Literal.signed]

/-- The significand and the number of places that are collected stand for the same number. -/
theorem exists_collect (positive : 0 < d.significand) (few : d.significand ≤ 10 ^ 17)
    (bounded : (d.significand : ℝ) * 10 ^ d.exponent ≤ 4294967295) :
    ∃ s k : ℕ, (numeral false d).collect = (s, (-k : ℤ), true) ∧ 0 < k ∧ s ≤ 10 ^ 17 ∧
      (s : ℝ) / 10 ^ k = d.significand * 10 ^ d.exponent ∧
      (d.significand ≤ 2 ^ 53 → -22 ≤ d.exponent → s ≤ 2 ^ 53 ∧ k ≤ 22) := by
  rcases lt_or_ge d.exponent 0 with hfraction | hwhole
  · obtain ⟨k, hk⟩ : ∃ k : ℕ, d.exponent = -k := 
      ⟨d.exponent.natAbs, by omega⟩
    have hcollect : (numeral false d).collect = _ :=
      collect_numeral hfraction (few.trans_lt (by decide))
    rw [hk] at hcollect
    refine ⟨d.significand, k, hcollect, by omega, few, ?_, fun hsmall hplaces => ⟨hsmall, by omega⟩⟩
    rw [hk, zpow_neg, zpow_natCast, div_eq_mul_inv]
  · obtain ⟨e, he⟩ := Int.eq_ofNat_of_zero_le hwhole
    rw [he, zpow_natCast] at bounded
    have hbound : d.significand * 10 ^ e ≤ 4294967295 := by exact_mod_cast bounded
    have hcollect : (numeral false d).collect = _ :=
      collect_numeral_whole positive hwhole (by rw [he, Int.toNat_natCast]; omega)
    rw [he, Int.toNat_natCast, pow_succ, ← mul_assoc] at hcollect
    refine ⟨d.significand * 10 ^ e * 10, 1, hcollect, one_pos, by omega, ?_, fun _ _ => ⟨?_, ?_⟩⟩
    · push_cast
      rw [he, zpow_natCast]
      ring
    · omega
    · norm_num

/-- What rounds to less than a 32-bit number is less. -/
theorem near_lt {y : ℝ} (near : Near m q y) (hm : 0 < m) (canonical : Canonical m q)
    (h : (m : ℝ) * 2 ^ q < 4294967295) : y < 4294967295 := by
  have hlimit : Representable 4294967295 := by
    exact_mod_cast representable_natCast (n := 4294967295) (by norm_num)
  by_contra hge
  have hround := le_rounded hlimit (not_lt.mp hge)
  rw [rounded_of_near near hm canonical] at hround
  linarith

/-- Whether the digits of a double have a significand of 53 bits and at most 22 places. -/
def isBrief (x : Float) : Bool :=
  match Dyadic.ofFloat x with
  | .finite _ 0 _ => true
  | .finite _ m q =>
    (shortest .even m q).significand ≤ 2 ^ 53 && -22 ≤ (shortest .even m q).exponent
  | _ => false

/-- A double `x`, the literal that is written of it, and the double `y` that is read from that. -/
structure ReadBack (x : Float) (l : Literal) (y : Float) : Prop where
  written : doubles.write x = l.written
  regular : l.Regular
  number : number l = .number (.real y)
  admissible : Admissible y
  eq_of_isBrief : isBrief x = true → y = x

theorem ReadBack.readsAs {y : Float} (h : ReadBack x l y) :
    ReadsAs (.number (.real x)) (.number (.real y)) :=
  h.number ▸ readsAs_real h.written h.regular

theorem exists_readBack_of_lt (hx : Amount x) (hpos : 0 < Double.value x)
    (hlt : Double.value x < 4294967295) : ∃ l y, ReadBack x l y := by
  obtain ⟨m, q, hdyadic, hcanonical, hvalue⟩ := dyadic_of_amount hx
  have hm : 0 < m := by
    by_contra hzero
    obtain rfl : m = 0 := by omega
    rw [hvalue, Nat.cast_zero, zero_mul] at hpos
    exact lt_irrefl _ hpos
  rw [hvalue] at hlt
  obtain ⟨hnear, hsignificand, hfew⟩ := shortest_spec .even hm hcanonical
  obtain ⟨s, k, hcollect, hk, hs, hquotient, hbrief⟩ :=
    exists_collect hsignificand hfew (near_lt hnear hm hcanonical hlt).le
  have hbound : s ≤ 4294967295 * 10 ^ k := by
    have hle := (near_lt hnear hm hcanonical hlt).le
    rw [← hquotient, div_le_iff₀ (by positivity)] at hle
    exact_mod_cast hle
  obtain ⟨y, hscale, hy, hle⟩ := Literal.scale_neg_le hs hk hbound
  refine ⟨_, y, write_eq hdyadic hm, regular_numeral hsignificand,
    number_numeral hcollect hscale, admissible_of_amount hy hle, fun brief => ?_⟩
  rw [isBrief, hdyadic] at brief
  obtain ⟨m, rfl⟩ := Nat.exists_eq_succ_of_ne_zero hm.ne'
  obtain ⟨hsignificand, hexponent⟩ := Bool.and_eq_true_iff.mp brief
  obtain ⟨hsmall, hplaces⟩ := hbrief (of_decide_eq_true hsignificand) (of_decide_eq_true hexponent)
  obtain ⟨y', hscale', hy', hvalue'⟩ := Literal.scale_neg_nearest hsmall hk hplaces
  obtain rfl : y' = y := Option.some_inj.mp (hscale'.symm.trans hscale)
  refine hy'.ext hx ?_
  rw [hvalue', hquotient, rounded_of_near hnear hm hcanonical, hvalue]

/-- The literal of a zero. -/
def zeroLiteral (negative : Bool) : Literal := ⟨negative, ['0'], some ['0'], none⟩

theorem exists_readBack (h : Admissible x) : ∃ l y, ReadBack x l y := by
  have hzero (negative : Bool) : (zeroLiteral negative).Regular :=
    ⟨by simp [zeroLiteral], by simp [zeroLiteral], by simp [zeroLiteral], by simp [zeroLiteral]⟩
  rcases h.eq_neg_zero_or_amount with rfl | hx
  · exact ⟨zeroLiteral true, -0.0, by decide +kernel, hzero true, rfl, h, fun _ => rfl⟩
  rcases hx.nonneg.eq_or_lt with hvalue | hpos
  · obtain rfl : x = 0.0 := hx.ext amount_zero (by rw [← hvalue, value_zero])
    exact ⟨zeroLiteral false, 0.0, by decide +kernel, hzero false, rfl, h, fun _ => rfl⟩
  rcases h.value_mem.2.eq_or_lt with hvalue | hlt
  · obtain rfl : x = maxCpu := hx.ext amount_maxCpu (by rw [hvalue, value_maxCpu])
    exact ⟨numeral false ⟨4294967295, 0⟩, maxCpu, by decide +kernel, regular_numeral (by decide),
      rfl, h, fun _ => rfl⟩
  · exact exists_readBack_of_lt hx hpos hlt

/-- A double that is read back as it was when it is written alone. -/
def Kept (x : Float) : Prop := decode Document.readFloat (print (.number (.real x))) = .ok x

instance (x : Float) : Decidable (Kept x) :=
  inferInstanceAs (Decidable (decode Document.readFloat (print (.number (.real x))) = .ok x))

theorem kept_iff {e : Document} {y : Float} (hreads : ReadsAs (.number (.real x)) e)
    (hread : Document.readFloat e = .ok y) : Kept x ↔ y = x := by
  rw [Kept, decode_print Document.readFloat hreads, hread, Except.ok.injEq]

/-- A request is read back as a request. -/
theorem exists_reread (h : Admissible x) :
    ∃ e y, ReadsAs (.number (.real x)) e ∧ Document.readFloat e = .ok y ∧ Admissible y := by
  obtain ⟨l, y, hback⟩ := exists_readBack h
  exact ⟨_, y, hback.readsAs, rfl, hback.admissible⟩

theorem kept_of_isBrief (h : Admissible x) (brief : isBrief x = true) : Kept x := by
  obtain ⟨l, y, hback⟩ := exists_readBack h
  exact (kept_iff hback.readsAs rfl).mpr (hback.eq_of_isBrief brief)

end Placement.Json
