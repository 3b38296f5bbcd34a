import Mathlib
import Placement.Double.Whole
import Placement.Proofs.Double.Order
import Placement.Proofs.Double.Rounding

/-!
# The numbers that doubles stand for

A finite double is a sign, a significand and an exponent, and stands for a real number. Significand
and exponent are determined by that number: a significand of fewer than 53 bits goes with the least
exponent only. So finite doubles compare as their numbers do, and two of the same sign and number
are one. An exponent above 971 cannot be packed and becomes an infinity.
-/
namespace Placement.Double
open Float.Model (UnpackedFloat Format)
open Float.Model.UnpackedFloat

/-- What the fields of a double stand for. -/
def ofFields (s : Sign) (field fraction : ℕ) : UnpackedFloat :=
  if field = 2047 then if fraction = 0 then .infinity s else .notANumber
  else if field = 0 then
    if h : fraction = 0 then .zero s else .finite s fraction (-1074) (Nat.pos_of_ne_zero h)
  else .finite s (2 ^ 52 + fraction) (field - 1075) (by omega)

theorem unpack_eq_ofFields (b : BitVec 64) :
    UnpackedFloat.unpack .binary64 b =
      ofFields (Sign.ofBitVec (@unpackSign .binary64 b)) (@unpackExponent .binary64 b).toNat
        (@unpackMantissa .binary64 b).toNat := by
  have hlast (field : BitVec 11) : field = -1#11 ↔ field.toNat = 2047 := BitVec.toNat_inj.symm
  have hfirst (field : BitVec 11) : field = 0#11 ↔ field.toNat = 0 := BitVec.toNat_inj.symm
  have hzero (fraction : BitVec 52) : fraction = 0#52 ↔ fraction.toNat = 0 :=
    BitVec.toNat_inj.symm
  have hone (fraction : BitVec 52) : (1#1 ++ fraction).toNat = 2 ^ 52 + fraction.toNat := by
    rw [BitVec.toNat_append, ← Nat.shiftLeft_add_eq_or_of_lt fraction.isLt]
    rfl
  have hbias : ((Format.binary64.exponentBias : ℤ) + (52 : ℕ)) = 1075 := by decide
  unfold UnpackedFloat.unpack ofFields
  dsimp only
  by_cases last : (@unpackExponent .binary64 b).toNat = 2047
  · rw [if_pos last, if_pos ((hlast _).mpr last)]
    by_cases zero : (@unpackMantissa .binary64 b).toNat = 0
    · rw [if_pos zero, if_pos ((hzero _).mpr zero)]
    · rw [if_neg zero, if_neg (mt (hzero _).mp zero)]
  rw [if_neg last, if_neg (mt (hlast _).mp last)]
  by_cases first : (@unpackExponent .binary64 b).toNat = 0
  · rw [if_pos first, if_pos ((hfirst _).mpr first)]
    by_cases zero : (@unpackMantissa .binary64 b).toNat = 0
    · rw [dif_pos zero, dif_pos ((hzero _).mpr zero)]
    · rw [dif_neg zero, dif_neg (mt (hzero _).mp zero)]
      exact finite_congr rfl rfl (by rw [first, hbias]; rfl)
  · rw [if_neg first, if_neg (mt (hfirst _).mp first)]
    exact finite_congr rfl (hone _) (by rw [hbias])

theorem unpack_packComponents (s : Sign) {field fraction : ℕ} (hfield : field < 2 ^ 11)
    (hfraction : fraction < 2 ^ 52) :
    UnpackedFloat.unpack .binary64 (packComponents .binary64 s (BitVec.ofNat 11 field)
      (BitVec.ofNat 52 fraction)) = ofFields s field fraction := by
  have hsign : Sign.ofBitVec (@unpackSign .binary64 (packComponents .binary64 s
      (BitVec.ofNat 11 field) (BitVec.ofNat 52 fraction))) = s := by
    change Sign.ofBitVec (BitVec.extractLsb' 63 1 ((s.toBitVec ++ _) ++ _)) = s
    rw [BitVec.extractLsb'_append_eq_of_le (by omega),
      BitVec.extractLsb'_append_eq_of_le (by omega)]
    cases s <;> rfl
  rw [unpack_eq_ofFields, hsign, unpackExponent_packComponents, unpackMantissa_packComponents,
    BitVec.toNat_ofNat, BitVec.toNat_ofNat, Nat.mod_eq_of_lt hfield, Nat.mod_eq_of_lt hfraction]

/-- The significands and exponents that doubles unpack to. -/
structure Canonical (m : ℕ) (e : ℤ) : Prop where
  below : m < 2 ^ 53
  least : -1074 ≤ e
  full : 2 ^ 52 ≤ m ∨ e = -1074

theorem canonical_unpack {x : Float.Model} {s : Sign} {m : ℕ} {e : ℤ} {hm : 0 < m}
    (h : x.unpack = .finite s m e hm) : Canonical m e ∧ e ≤ 971 := by
  have hfraction : (@unpackMantissa .binary64 x.toBits.toBitVec).toNat < 2 ^ 52 :=
    BitVec.isLt _
  have hfield : (@unpackExponent .binary64 x.toBits.toBitVec).toNat < 2 ^ 11 := BitVec.isLt _
  change UnpackedFloat.unpack .binary64 x.toBits.toBitVec = _ at h
  rw [unpack_eq_ofFields, ofFields] at h
  split_ifs at h
  · injection h with _ hm he
    exact ⟨⟨by omega, by omega, Or.inr he.symm⟩, by omega⟩
  · injection h with _ hm he
    exact ⟨⟨by omega, by omega, Or.inl (by omega)⟩, by omega⟩

theorem pack_finite {s : Sign} {m : ℕ} {e : ℤ} (hm : 0 < m) :
    UnpackedFloat.pack .binary64 (.finite s m e hm) =
      if 2 ^ 11 ≤ (e + 1075).toNat + 1 then
        packComponents .binary64 s (BitVec.ofNat 11 2047) (BitVec.ofNat 52 0)
      else if m.log2 + 1 = 53 then
        packComponents .binary64 s (BitVec.ofNat 11 (e + 1075).toNat) (BitVec.ofNat 52 m)
      else packComponents .binary64 s (BitVec.ofNat 11 0) (BitVec.ofNat 52 m) := by
  have hbias : e + (Format.binary64.exponentBias : ℤ) + (52 : ℕ) = e + 1075 := by
    change e + (1023 : ℕ) + (52 : ℕ) = e + 1075
    omega
  have hbits : Format.binary64.mantissaBits = 53 := rfl
  unfold UnpackedFloat.pack
  dsimp only
  rw [hbias, hbits]
  rfl

theorem unpack_pack_full {s : Sign} {m : ℕ} {e : ℤ} (hm : 0 < m) (full : Full m) (low : -1074 ≤ e)
    (high : e ≤ 971) : (Float.Model.pack (.finite s m e hm)).unpack = .finite s m e hm := by
  have ⟨least, most⟩ := full
  have hfraction : BitVec.ofNat 52 m = BitVec.ofNat 52 (m - 2 ^ 52) := by
    apply BitVec.eq_of_toNat_eq
    rw [BitVec.toNat_ofNat, BitVec.toNat_ofNat]
    omega
  change UnpackedFloat.unpack .binary64 (UnpackedFloat.pack .binary64 _) = _
  rw [pack_finite, if_neg (by omega), if_pos (by rw [full.log2_eq]), hfraction,
    unpack_packComponents s (by omega) (by omega), ofFields, if_neg (by omega), if_neg (by omega)]
  exact finite_congr rfl (by omega) (by omega)

theorem unpack_pack_subnormal {s : Sign} {m : ℕ} (hm : 0 < m) (small : m < 2 ^ 52) :
    (Float.Model.pack (.finite s m (-1074) hm)).unpack = .finite s m (-1074) hm := by
  have hlog : m.log2 < 52 := (Nat.log2_lt hm.ne').mpr small
  change UnpackedFloat.unpack .binary64 (UnpackedFloat.pack .binary64 _) = _
  rw [pack_finite, if_neg (by decide), if_neg (by omega),
    unpack_packComponents s (by omega) small, ofFields, if_neg (by omega), if_pos rfl,
    dif_neg hm.ne']

/-- What unpacks to a finite number is packed and unpacked without a change. -/
theorem unpack_pack {s : Sign} {m : ℕ} {e : ℤ} (hm : 0 < m) (h : Canonical m e) (high : e ≤ 971) :
    (Float.Model.pack (.finite s m e hm)).unpack = .finite s m e hm := by
  by_cases hfull : 2 ^ 52 ≤ m
  · exact unpack_pack_full hm ⟨hfull, h.below⟩ h.least high
  · obtain rfl := h.full.resolve_left hfull
    exact unpack_pack_subnormal hm (by omega)

theorem unpack_pack_large {s : Sign} {m : ℕ} {e : ℤ} (hm : 0 < m) (high : 971 < e) :
    (Float.Model.pack (.finite s m e hm)).unpack = .infinity s := by
  change UnpackedFloat.unpack .binary64 (UnpackedFloat.pack .binary64 _) = _
  rw [pack_finite, if_pos (by omega), unpack_packComponents s (by omega) (by omega)]
  rfl

theorem toNat_unpackSign (b : BitVec 64) :
    (@unpackSign .binary64 b).toNat = b.toNat / 2 ^ 63 % 2 := by
  change (BitVec.extractLsb' 63 1 b).toNat = _
  rw [BitVec.extractLsb'_toNat, Nat.shiftRight_eq_div_pow]

theorem toNat_unpackExponent (b : BitVec 64) :
    (@unpackExponent .binary64 b).toNat = b.toNat / 2 ^ 52 % 2 ^ 11 := by
  change (BitVec.extractLsb' 52 11 b).toNat = _
  rw [BitVec.extractLsb'_toNat, Nat.shiftRight_eq_div_pow]

theorem toNat_unpackMantissa (b : BitVec 64) :
    (@unpackMantissa .binary64 b).toNat = b.toNat % 2 ^ 52 := by
  change (BitVec.extractLsb' 0 52 b).toNat = _
  rw [BitVec.extractLsb'_toNat, Nat.shiftRight_zero]

theorem eq_of_fields_eq {b c : BitVec 64}
    (hsign : @unpackSign .binary64 b = @unpackSign .binary64 c)
    (hfield : (@unpackExponent .binary64 b).toNat = (@unpackExponent .binary64 c).toNat)
    (hfraction : (@unpackMantissa .binary64 b).toNat = (@unpackMantissa .binary64 c).toNat) :
    b = c := by
  have hword : b.toNat / 2 ^ 63 % 2 = c.toNat / 2 ^ 63 % 2 := by
    rw [← toNat_unpackSign, ← toNat_unpackSign, hsign]
  rw [toNat_unpackExponent, toNat_unpackExponent] at hfield
  rw [toNat_unpackMantissa, toNat_unpackMantissa] at hfraction
  have hb := b.isLt
  have hc := c.isLt
  exact BitVec.eq_of_toNat_eq (by omega)

theorem ofFields_injective {s t : Sign} {field fraction field' fraction' : ℕ}
    (h : ofFields s field fraction = ofFields t field' fraction') (hf : fraction < 2 ^ 52)
    (hf' : fraction' < 2 ^ 52) :
    (s = t ∧ field = field' ∧ fraction = fraction') ∨
      (field = 2047 ∧ fraction ≠ 0 ∧ field' = 2047 ∧ fraction' ≠ 0) := by
  unfold ofFields at h
  split_ifs at h <;> first
    | (injection h with hs hm he; left; refine ⟨hs, ?_, ?_⟩ <;> omega)
    | (injection h with hs; left; refine ⟨hs, ?_, ?_⟩ <;> omega)
    | (right; omega)

theorem ofBitVec_injective {u v : BitVec 1} (h : Sign.ofBitVec u = Sign.ofBitVec v) : u = v := by
  rcases BitVec.eq_zero_or_eq_one u with rfl | rfl <;>
    rcases BitVec.eq_zero_or_eq_one v with rfl | rfl <;> first | rfl | cases h

/-- Doubles that unpack to the same are one: there is one that is no number. -/
theorem unpack_injective {x y : Float.Model} (h : x.unpack = y.unpack) : x = y := by
  have hbits : x.toBits.toBitVec = y.toBits.toBitVec := by
    change UnpackedFloat.unpack .binary64 _ = UnpackedFloat.unpack .binary64 _ at h
    rw [unpack_eq_ofFields, unpack_eq_ofFields] at h
    rcases ofFields_injective h (BitVec.isLt _) (BitVec.isLt _) with
      ⟨hs, hfield, hfraction⟩ | ⟨hfield, hfraction, hfield', hfraction'⟩
    · exact eq_of_fields_eq (ofBitVec_injective hs) hfield hfraction
    · have hx := x.valid.eq_packedNaN (BitVec.eq_of_toNat_eq hfield)
        (fun h0 => hfraction (congrArg BitVec.toNat h0))
      have hy := y.valid.eq_packedNaN (BitVec.eq_of_toNat_eq hfield')
        (fun h0 => hfraction' (congrArg BitVec.toNat h0))
      rw [hx, hy]
  cases x
  cases y
  congr
  exact UInt64.toBitVec_inj.mp hbits

theorem lt_of_exponent_lt {m n : ℕ} {d e : ℤ} (hm : Canonical m d) (hn : Canonical n e)
    (h : d < e) : (m : ℝ) * 2 ^ d < n * 2 ^ e := by
  have hfull : 2 ^ 52 ≤ n := hn.full.resolve_right (by have := hm.least; omega)
  have hupper : (m : ℝ) < 2 ^ 53 := by exact_mod_cast hm.below
  have hlower : (2 : ℝ) ^ 52 ≤ n := by exact_mod_cast hfull
  calc (m : ℝ) * 2 ^ d < 2 ^ 53 * 2 ^ d := by gcongr
    _ = 2 ^ 52 * 2 ^ (d + 1) := by rw [zpow_add₀ two_ne_zero]; ring
    _ ≤ n * 2 ^ e := by
      gcongr
      · exact one_le_two
      · exact h

/-- Canonical numbers compare by exponent first and by significand then. -/
theorem compare_then_eq {m n : ℕ} {d e : ℤ} (hm : Canonical m d) (hn : Canonical n e) :
    (compare d e).then (compare m n) = compare ((m : ℝ) * 2 ^ d) (n * 2 ^ e) := by
  rcases lt_trichotomy d e with h | rfl | h
  · rw [compare_lt_iff_lt.mpr h, compare_lt_iff_lt.mpr (lt_of_exponent_lt hm hn h)]
    rfl
  · have hpos : (0 : ℝ) < 2 ^ d := by positivity
    rw [compare_eq_iff_eq.mpr rfl]
    change compare m n = _
    rcases lt_trichotomy m n with hmn | rfl | hmn
    · rw [compare_lt_iff_lt.mpr hmn, compare_lt_iff_lt.mpr (by gcongr)]
    · rw [compare_eq_iff_eq.mpr rfl, compare_eq_iff_eq.mpr rfl]
    · rw [compare_gt_iff_gt.mpr hmn, compare_gt_iff_gt.mpr (by gcongr)]
  · rw [compare_gt_iff_gt.mpr h, compare_gt_iff_gt.mpr (lt_of_exponent_lt hn hm h)]
    rfl

/-- What finite doubles unpack to. -/
def Proper : UnpackedFloat → Prop
  | .zero _ => True
  | .finite _ m e _ => Canonical m e ∧ e ≤ 971
  | _ => False

theorem proper_unpack {x : Float} (h : x.isFinite = true) : Proper x.toModel.unpack := by
  change x.toModel.unpack.isFinite = true at h
  cases hx : x.toModel.unpack with
  | zero s => trivial
  | finite s m e hm => exact canonical_unpack hx
  | infinity s => rw [hx] at h; cases h
  | notANumber => rw [hx] at h; cases h

theorem compare_neg (a b : ℝ) : compare (-a) (-b) = (compare a b).swap := by
  rcases lt_trichotomy a b with h | rfl | h
  · rw [compare_lt_iff_lt.mpr h, compare_gt_iff_gt.mpr (neg_lt_neg h)]
    rfl
  · rw [compare_eq_iff_eq.mpr rfl, compare_eq_iff_eq.mpr rfl]
    rfl
  · rw [compare_gt_iff_gt.mpr h, compare_lt_iff_lt.mpr (neg_lt_neg h)]
    rfl

theorem compare_toReal {u v : UnpackedFloat} (hu : Proper u) (hv : Proper v) :
    u.compare v = some (compare (toReal u) (toReal v)) := by
  have hpos {m : ℕ} (e : ℤ) (hm : 0 < m) : (0 : ℝ) < m * 2 ^ e := by positivity
  cases u with
  | zero s =>
    cases v with
    | zero t => rw [compare_eq_iff_eq.mpr (show toReal (.zero s) = toReal (.zero t) from rfl)]; rfl
    | finite t n d hn =>
      have := hpos d hn
      cases t
      · rw [compare_gt_iff_gt.mpr (show toReal (.finite .negative n d hn) < toReal (.zero s) by
          simpa [toReal, signed] using this)]
        rfl
      · rw [compare_lt_iff_lt.mpr (show toReal (.zero s) < toReal (.finite .positive n d hn) from
          this)]
        rfl
    | _ => cases hv
  | finite s m e hm =>
    have hum := hpos e hm
    cases v with
    | zero t =>
      cases s
      · rw [compare_lt_iff_lt.mpr (show toReal (.finite .negative m e hm) < toReal (.zero t) by
          simpa [toReal, signed] using hum)]
        rfl
      · rw [compare_gt_iff_gt.mpr (show toReal (.zero t) < toReal (.finite .positive m e hm) from
          hum)]
        rfl
    | finite t n d hn =>
      have hvn := hpos d hn
      cases s <;> cases t
      · change some ((compare e d).then (compare m n)).swap = _
        rw [compare_then_eq hu.1 hv.1, ← compare_neg]
        rfl
      · rw [compare_lt_iff_lt.mpr (show toReal (.finite .negative m e hm) <
          toReal (.finite .positive n d hn) by change -(m * 2 ^ e : ℝ) < n * 2 ^ d; linarith)]
        rfl
      · rw [compare_gt_iff_gt.mpr (show toReal (.finite .negative n d hn) <
          toReal (.finite .positive m e hm) by change -(n * 2 ^ d : ℝ) < m * 2 ^ e; linarith)]
        rfl
      · exact congrArg some (compare_then_eq hu.1 hv.1)
    | _ => cases hv
  | _ => cases hu

/-- The sign of an unpacked double. -/
def signOf : UnpackedFloat → Sign
  | .finite s _ _ _ => s
  | .zero s => s
  | .infinity s => s
  | .notANumber => .positive

theorem eq_of_toReal_eq {u v : UnpackedFloat} (hu : Proper u) (hv : Proper v)
    (hsign : signOf u = signOf v) (h : toReal u = toReal v) : u = v := by
  have hpos {m : ℕ} (e : ℤ) (hm : 0 < m) : (0 : ℝ) < m * 2 ^ e := by positivity
  cases u with
  | zero s =>
    cases v with
    | zero t => exact congrArg _ hsign
    | finite t n d hn =>
      have := hpos d hn
      cases t
      · change (0 : ℝ) = -(n * 2 ^ d) at h
        linarith
      · change (0 : ℝ) = n * 2 ^ d at h
        linarith
    | _ => cases hv
  | finite s m e hm =>
    have hum := hpos e hm
    cases v with
    | zero t =>
      cases s
      · change -(m * 2 ^ e : ℝ) = 0 at h
        linarith
      · change (m * 2 ^ e : ℝ) = 0 at h
        linarith
    | finite t n d hn =>
      have heq : (m : ℝ) * 2 ^ e = n * 2 ^ d := by
        cases hsign
        cases s
        · exact neg_inj.mp h
        · exact h
      have hcompare := compare_then_eq hu.1 hv.1
      rw [compare_eq_iff_eq.mpr heq, Ordering.then_eq_eq, compare_eq_iff_eq,
        compare_eq_iff_eq] at hcompare
      exact finite_congr hsign hcompare.2 hcompare.1
    | _ => cases hv
  | _ => cases hu

/-- The number that a double stands for. -/
noncomputable def value (x : Float) : ℝ := toReal x.toModel.unpack

section
variable {x y : Float} (hx : x.isFinite = true) (hy : y.isFinite = true)
include hx hy

theorem lt_iff_value : x < y ↔ value x < value y := by
  rw [lt_iff, compare_toReal (proper_unpack hx) (proper_unpack hy), Option.some_inj,
    compare_lt_iff_lt]
  rfl

theorem le_iff_value : x ≤ y ↔ value x ≤ value y := by
  rw [le_iff, compare_toReal (proper_unpack hx) (proper_unpack hy), Option.any_some,
    Ordering.isLE_iff_ne_gt]
  exact compare_le_iff_le

theorem beq_iff_value : (x == y) = true ↔ value x = value y := by
  change (x.toModel.unpack.compare y.toModel.unpack == some .eq) = true ↔ _
  rw [compare_toReal (proper_unpack hx) (proper_unpack hy), beq_iff_eq, Option.some_inj,
    compare_eq_iff_eq]
  rfl

theorem eq_of_value_eq (hsign : signOf x.toModel.unpack = signOf y.toModel.unpack)
    (h : value x = value y) : x = y := by
  have hunpack := eq_of_toReal_eq (proper_unpack hx) (proper_unpack hy) hsign h
  have hmodel := unpack_injective hunpack
  cases x
  cases y
  exact congrArg Float.ofModel hmodel

end

end Placement.Double
