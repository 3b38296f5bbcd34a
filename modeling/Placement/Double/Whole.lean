import Placement.Footprint

/-!
# Whole numbers as doubles

A whole number below `2 ^ 32` is a double exactly. Its significand is the number shifted to 53 bits,
so doubles of this kind compare as the numbers do. This is all that a footprint of whole units needs
to be admissible. Other doubles, and how arithmetic rounds them, are not treated here.
-/

namespace Placement.Double

open Float.Model Float.Model.UnpackedFloat

/-- A number of 53 bits. -/
structure Full (m : Nat) : Prop where
  least : 0x10000000000000 ≤ m
  most : m < 0x20000000000000

theorem Full.log2_eq {m : Nat} (full : Full m) : m.log2 = 52 := by
  have pos : m ≠ 0 := by have := full.least; omega
  have atLeast : 52 ≤ m.log2 := (Nat.le_log2 pos).2 full.least
  have below : m.log2 < 53 := (Nat.log2_lt pos).2 full.most
  omega

theorem finite_congr {s t : Sign} {m n : Nat} {d e : Int} {hm : 0 < m} {hn : 0 < n} (sign : s = t)
    (significand : m = n) (exponent : d = e) : finite s m d hm = finite t n e hn := by
  subst sign significand exponent
  rfl

/-- The sign of a word that was put together without one is positive. -/
theorem sign_packComponents (exponent : BitVec 11) (fraction : BitVec 52) :
    Sign.ofBitVec (unpackSign (packComponents .binary64 .positive exponent fraction))
      = .positive := by
  have word : unpackSign (packComponents .binary64 .positive exponent fraction)
      = BitVec.extractLsb' 63 1 ((0#1 ++ exponent) ++ fraction) := rfl
  rw [word, BitVec.extractLsb'_append_eq_of_le (by omega),
    BitVec.extractLsb'_append_eq_of_le (by omega)]
  rfl

/-- A positive double with a full significand is packed without its first bit. -/
theorem pack_normal {m : Nat} {e : Int} (pos : 0 < m) (full : Full m) (low : -1074 ≤ e)
    (high : e ≤ 971) :
    UnpackedFloat.pack .binary64 (finite .positive m e pos)
      = packComponents .binary64 .positive (BitVec.ofNat 11 (e + 1075).toNat)
          (BitVec.ofNat 52 m) := by
  have biased : (e + Format.binary64.exponentBias
      + Format.binary64.mantissaBitsWithoutImplicit).toNat = (e + 1075).toNat := by
    show (e + (1023 : Nat) + (52 : Nat)).toNat = _
    omega
  refine (if_neg ?_).trans ((if_pos ?_).trans ?_)
  · show ¬ 2048 ≤ _ + 1
    rw [biased]
    omega
  · show m.log2 + 1 = 53
    rw [full.log2_eq]
  · rw [biased]

/-- A positive double with a full significand keeps it when it is packed. -/
theorem unpack_pack_normal {m : Nat} {e : Int} (pos : 0 < m) (full : Full m) (low : -1074 ≤ e)
    (high : e ≤ 971) :
    (Float.Model.pack (finite .positive m e pos)).unpack = finite .positive m e pos := by
  have field : (BitVec.ofNat 11 (e + 1075).toNat).toNat = (e + 1075).toNat := by
    rw [BitVec.toNat_ofNat]
    omega
  have notLast : BitVec.ofNat 11 (e + 1075).toNat ≠ -1#11 := fun h => by
    have := congrArg BitVec.toNat h
    rw [field] at this
    simp at this
    omega
  have notFirst : BitVec.ofNat 11 (e + 1075).toNat ≠ 0#11 := fun h => by
    have := congrArg BitVec.toNat h
    rw [field] at this
    simp at this
    omega
  have significand : (1#1 ++ BitVec.ofNat 52 m).toNat = m := by
    have ⟨least, most⟩ := full
    rw [BitVec.toNat_append, ← Nat.shiftLeft_add_eq_or_of_lt (BitVec.ofNat 52 m).isLt,
      BitVec.toNat_ofNat, Nat.shiftLeft_eq]
    simp
    omega
  show unpack .binary64 (UnpackedFloat.pack .binary64 _) = _
  rw [pack_normal pos full low high]
  refine (if_neg ?_).trans ((if_neg ?_).trans (finite_congr ?_ ?_ ?_))
  · rw [unpackExponent_packComponents]
    exact notLast
  · rw [unpackExponent_packComponents]
    exact notFirst
  · exact sign_packComponents _ _
  · rw [unpackMantissa_packComponents]
    exact significand
  · rw [unpackExponent_packComponents, field]
    show ((e + 1075).toNat : Int) - ((1023 : Nat) + (52 : Nat)) = e
    omega

/-- A significand of 53 bits is kept by rounding. -/
theorem roundWithAccuracy_normal {m : Nat} {e : Int} (pos : 0 < m) (log : m.log2 = 52)
    (low : -1074 ≤ e) :
    roundWithAccuracy .binary64 .positive m e .exact = .finite .positive m e pos := by
  have target : (Format.binary64.targetExponent (totalExponent m e) - e).toNat = 0 := by
    have bits : ((Format.binary64.mantissaBits : Nat) : Int) = 53 := rfl
    have least : Format.binary64.minExponent = -1074 := by decide
    rw [Format.targetExponent, totalExponent, log, bits, least]
    omega
  have stays : shiftToTargetExponent .binary64 m e .exact = (⟨m, false, false⟩, e) := by
    rw [shiftToTargetExponent, shiftToExponent]
    simp only [target]
    simp [HShiftRight.hShiftRight, Nat.repeat, ExtendedMantissa.ofMantissaAndAccuracy]
  rw [roundWithAccuracy, stays]
  dsimp only [ExtendedMantissa.roundedMantissa, ExtendedMantissa.accuracy,
    Accuracy.roundToNearestEven]
  rw [stays]
  exact dif_neg (Nat.ne_of_gt pos)

/-- The significand of a whole number, of 53 bits. -/
def significand (n : Nat) : Nat := n <<< (52 - n.log2)

theorem full_significand {n : Nat} (pos : n ≠ 0) (small : n.log2 ≤ 52) :
    Full (significand n) := by
  have lower := Nat.log2_self_le pos
  have upper := Nat.lt_log2_self (n := n)
  have split : 2 ^ n.log2 * 2 ^ (52 - n.log2) = 0x10000000000000 := by
    rw [← Nat.pow_add, Nat.add_sub_cancel' small]
  have splitUp : 2 ^ (n.log2 + 1) * 2 ^ (52 - n.log2) = 0x20000000000000 := by
    rw [← Nat.pow_add, Nat.add_right_comm, Nat.add_sub_cancel' small]
  refine ⟨?_, ?_⟩ <;> rw [significand, Nat.shiftLeft_eq]
  · exact split ▸ Nat.mul_le_mul_right _ lower
  · exact splitUp ▸ Nat.mul_lt_mul_of_pos_right upper (Nat.two_pow_pos _)

theorem unpack_toFloat {n : UInt32} (pos : n.toNat ≠ 0) :
    ∃ h, n.toFloat.toModel.unpack
      = .finite .positive (significand n.toNat) (n.toNat.log2 - 52) h := by
  have small : n.toNat.log2 < 32 := (Nat.log2_lt pos).2 n.toNat_lt
  have full := full_significand pos (by omega)
  have positive : 0 < significand n.toNat := Nat.lt_of_lt_of_le (by decide) full.least
  refine ⟨positive, ?_⟩
  have target : Format.binary64.targetExponent (totalExponent n.toNat 0)
      = (n.toNat.log2 : Int) - 52 := by
    have bits : ((Format.binary64.mantissaBits : Nat) : Int) = 53 := rfl
    have least : Format.binary64.minExponent = -1074 := by decide
    rw [Format.targetExponent, totalExponent, bits, least]
    omega
  have rounded : UnpackedFloat.ofUInt32 .binary64 n
      = .finite .positive (significand n.toNat) (n.toNat.log2 - 52) positive := by
    rw [UnpackedFloat.ofUInt32, UnpackedFloat.ofNat, UnpackedFloat.ofInt, UnpackedFloat.normalize]
    have compared : compare (n.toNat : Int) 0 = .gt := by
      rw [Int.compare_eq_gt]; omega
    rw [compared]
    dsimp only
    rw [Int.toNat_natCast, UnpackedFloat.round]
    dsimp only [decreaseExponent]
    rw [target]
    have shift : (0 - ((n.toNat.log2 : Int) - 52)).toNat = 52 - n.toNat.log2 := by omega
    rw [shift]
    have exponent : (0 : Int) - ((52 - n.toNat.log2 : Nat) : Int) = n.toNat.log2 - 52 := by omega
    rw [exponent]
    exact roundWithAccuracy_normal positive full.log2_eq (by omega)
  show (Float.Model.pack (UnpackedFloat.ofUInt32 .binary64 n)).unpack = _
  rw [rounded]
  exact unpack_pack_normal positive full (by omega) (by omega)

/-- Below the largest whole number of 32 bits lie all others. -/
theorem admissible_toFloat (n : UInt32) : Footprint.Admissible n.toFloat := by
  by_cases zero : n = 0
  · subst zero
    exact ⟨by decide, by decide, by decide⟩
  have pos : n.toNat ≠ 0 := fun h => zero (UInt32.toNat_inj.1 h)
  obtain ⟨h, unpacked⟩ := unpack_toFloat pos
  have none : (0.0 : Float).toModel.unpack = .zero .positive := rfl
  have most : Footprint.maxCpu.toModel.unpack
      = .finite .positive 9007199252643840 (-21) (by decide) := rfl
  have bound := n.toNat_lt
  have small : n.toNat.log2 < 32 := (Nat.log2_lt pos).2 bound
  refine ⟨?_, ?_, ?_⟩
  · show n.toFloat.toModel.unpack.isFinite = true
    rw [unpacked]
    rfl
  · show ¬ decide (n.toFloat.toModel.unpack.lt (0.0 : Float).toModel.unpack = true) = true
    rw [unpacked, none]
    show ¬ decide ((some Ordering.gt == some Ordering.lt) = true) = true
    decide
  · show ¬ decide (Footprint.maxCpu.toModel.unpack.lt n.toFloat.toModel.unpack = true) = true
    rw [unpacked, most]
    show ¬ decide ((some ((compare (-21 : Int) (n.toNat.log2 - 52)).then
      (compare 9007199252643840 (significand n.toNat))) == some Ordering.lt) = true) = true
    by_cases top : n.toNat.log2 = 31
    · have order : ¬ compare 9007199252643840 (significand n.toNat) = .lt := by
        rw [Nat.compare_eq_lt, significand, top, Nat.shiftLeft_eq]
        omega
      have same : compare (-21 : Int) (n.toNat.log2 - 52) = .eq := by
        rw [Int.compare_eq_eq]; omega
      simp [same, order]
    · have order : compare (-21 : Int) (n.toNat.log2 - 52) = .gt := by
        rw [Int.compare_eq_gt]; omega
      simp [order]

end Placement.Double

namespace Placement.Footprint

/-- A footprint of whole processing units, all of which are admissible. -/
def whole (cpu : UInt32) (memory : UInt64) : Footprint :=
  ⟨cpu.toFloat, memory, Double.admissible_toFloat cpu⟩

end Placement.Footprint
