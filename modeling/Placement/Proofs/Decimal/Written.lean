import Mathlib
import Placement.Proofs.Decimal.Nearest
import Placement.Proofs.Decimal.Shortest
import Placement.Proofs.Json.Numeral

/-!
# Doubles written without an exponent

A layout that never uses an exponent and keeps a point on whole numbers writes every finite double
as a literal that is read to the nearest double as the one it was written of, however many zeros
stand around its digits. Infinities and what is no number are written as words.
-/
namespace Placement.Decimal
open Double Json Literal
open Float.Model (UnpackedFloat)
open Float.Model.UnpackedFloat

variable {digits : List Char} {before : ℤ} {negative : Bool} {x : Float}

/-- A double with the parts that its bits hold. -/
def Dyadic.ofUnpacked : UnpackedFloat → Dyadic
  | .notANumber => .nan
  | .infinity s => .infinite (isMinus s)
  | .zero s => .finite (isMinus s) 0 leastExponent
  | .finite s m q _ => .finite (isMinus s) m q

theorem isMinus_ofBitVec (b : BitVec 1) : (b.toNat == 1) = isMinus (Sign.ofBitVec b) := by
  rcases BitVec.eq_zero_or_eq_one b with rfl | rfl <;> rfl

theorem ofUnpacked_ofFields (s : Sign) {field fraction : ℕ} (h : field < 2 ^ 11) :
    Dyadic.ofUnpacked (ofFields s field fraction) =
      if field = 2047 then if fraction = 0 then .infinite (isMinus s) else .nan
      else if field = 0 then .finite (isMinus s) fraction Dyadic.leastExponent
      else .finite (isMinus s) (Dyadic.hiddenBit + fraction)
        (Dyadic.leastExponent + (field - 1 : ℕ)) := by
  unfold ofFields
  split_ifs with hlast hzero hfirst hfraction
  · rfl
  · rfl
  · rw [hfraction]
    rfl
  · rfl
  · have hexponent : (field - 1075 : ℤ) = -1074 + (field - 1 : ℕ) := by omega
    simp only [Dyadic.ofUnpacked, hexponent]
    rfl

/-- Reading the parts off the bits by division gives what unpacking gives. -/
theorem ofFloat_eq (x : Float) : Dyadic.ofFloat x = Dyadic.ofUnpacked x.toModel.unpack := by
  have hunpack : x.toModel.unpack = _ := unpack_eq_ofFields x.toModel.toBits.toBitVec
  have hsign := isMinus_ofBitVec (@unpackSign .binary64 x.toModel.toBits.toBitVec)
  rw [toNat_unpackSign] at hsign
  rw [hunpack, ofUnpacked_ofFields _ (BitVec.isLt _), toNat_unpackExponent, toNat_unpackMantissa,
    ← hsign]
  rfl

theorem ofDigits_append_zeros (digits : List Char) (k : ℕ) :
    ofDigits (digits ++ List.replicate k '0') = ofDigits digits * 10 ^ k := by
  rw [ofDigits, Nat.ofDigitChars_append, Nat.ofDigitChars_replicate_zero, mul_comm]
  rfl

theorem ofDigits_zeros_append (digits : List Char) (k : ℕ) :
    ofDigits (List.replicate k '0' ++ digits) = ofDigits digits := by
  rw [ofDigits, Nat.ofDigitChars_append, Nat.ofDigitChars_replicate_zero, mul_zero]
  rfl

/-- The point may stand after the digits, among them or before them; the number is the same. -/
theorem significand_plainNumeral (negative : Bool) (digits : List Char) (before : ℤ) :
    ∃ k : ℕ, (plainNumeral negative digits before).significand = ofDigits digits * 10 ^ k ∧
      (plainNumeral negative digits before).scaleExponent = before - digits.length - k := by
  unfold plainNumeral Literal.significand scaleExponent
  split_ifs with hlong hinside
  · refine ⟨(before - digits.length).toNat + 1, ?_, ?_⟩
    · have hzero : ['0'] = List.replicate 1 '0' := rfl
      simp only [fractionDigits, Option.getD_some, hzero, ofDigits_append_zeros]
      rw [pow_succ, mul_assoc]
      rfl
    · simp only [exponentValue, fractionDigits, Option.getD, List.length_singleton]
      omega
  · refine ⟨0, ?_, ?_⟩
    · simp only [fractionDigits, Option.getD_some, List.take_append_drop, pow_zero, mul_one]
    · simp only [exponentValue, fractionDigits, Option.getD, List.length_drop]
      omega
  · refine ⟨0, ?_, ?_⟩
    · have hzero : ['0'] = List.replicate 1 '0' := rfl
      simp only [fractionDigits, Option.getD_some, hzero, ofDigits_zeros_append, pow_zero, mul_one]
    · simp only [exponentValue, fractionDigits, Option.getD, List.length_append,
        List.length_replicate]
      omega

/-- A layout that writes every finite double with a point and without an exponent. -/
structure Layout.Plain (l : Layout) : Prop where
  positional : ∀ before, l.positional before = true
  point : l.wholeWithPoint = true

variable {l : Layout} {s : Sign} {m : ℕ} {q : ℤ} {hm : 0 < m}

/-- The literal that such a layout writes of a finite double. -/
def plainLiteral (tie : Tie) (negative : Bool) (m : ℕ) (q : ℤ) : Literal :=
  if m = 0 then ⟨negative, ['0'], some ['0'], none⟩
  else
    let d := shortest tie m q
    let digits := Nat.toDigits 10 d.significand
    plainNumeral negative digits (digits.length + d.exponent)

theorem dyadic_of_plain (plain : l.Plain) (negative : Bool) (m : ℕ) (q : ℤ) :
    l.dyadic (.finite negative m q) = (plainLiteral l.tie negative m q).written := by
  cases m with
  | zero =>
    cases negative <;>
      simp [Layout.dyadic, plainLiteral, written, Layout.sign, Layout.wholeEnd, plain.point]
  | succ m =>
    rw [plainLiteral, if_neg (Nat.succ_ne_zero m)]
    simp only [written_plainNumeral _ plain.point, Layout.dyadic, Layout.magnitude,
      plain.positional, if_true]

theorem regular_plainLiteral (tie : Tie) (negative : Bool) (canonical : Canonical m q) :
    (plainLiteral tie negative m q).Regular := by
  unfold plainLiteral
  split_ifs with hzero
  · exact ⟨by simp, by simp, by simp, by simp⟩
  · obtain ⟨-, hpos, -⟩ := shortest_spec tie (Nat.pos_of_ne_zero hzero) canonical
    exact regular_plainNumeral _ Nat.toDigits_ne_nil (fun c hc => isDigit_of_mem_toDigits hc)
      (head?_toDigits hpos)

theorem nearest_plainLiteral (tie : Tie) (hx : x.toModel.unpack = .finite s m q hm) :
    (plainLiteral tie (isMinus s) m q).nearest = x := by
  obtain ⟨canonical, -⟩ := canonical_unpack hx
  obtain ⟨near, hpos, -⟩ := shortest_spec tie hm canonical
  rw [plainLiteral, if_neg hm.ne']
  generalize shortest tie m q = d at near hpos
  obtain ⟨k, hsignificand, hexponent⟩ := significand_plainNumeral (isMinus s)
    (Nat.toDigits 10 d.significand) ((Nat.toDigits 10 d.significand).length + d.exponent)
  rw [ofDigits_toDigits] at hsignificand
  rw [add_sub_cancel_left] at hexponent
  have hnegative (digits : List Char) (before : ℤ) :
      (plainNumeral (isMinus s) digits before).negative = isMinus s := by
    unfold plainNumeral
    split_ifs <;> rfl
  refine nearest_of_near hx (hnegative _ _) ?_ ?_
  · rw [hsignificand]
    positivity
  · rw [hsignificand, hexponent, zpow_sub₀ (by norm_num), zpow_natCast]
    push_cast
    rwa [mul_assoc, mul_div_cancel₀ _ (by positivity)]

theorem isWhole_plainLiteral (tie : Tie) (negative : Bool) (m : ℕ) (q : ℤ) :
    (plainLiteral tie negative m q).isWhole = false ∧
      (plainLiteral tie negative m q).exponent = none := by
  unfold plainLiteral plainNumeral
  simp only
  split_ifs <;> exact ⟨rfl, rfl⟩

end Placement.Decimal
