import Mathlib
import Placement.Topsis
import Placement.Proofs.Double.Squares

/-!
# Bounds on similarity

Norms and distances of numbers that are not too large are amounts, and they are in the order of the
numbers. A share of two distances lies between zero and one, and is one or zero where one of them
vanishes. Nothing is said here about where the coordinates of an alternative come from.
-/
namespace Placement.Topsis
open Double

section
variable {k : ℕ} {xs : List Float}

theorem below_sum_squares (hk : k + k + 54 < 1023) (h : ∀ x ∈ xs, Within k x) :
    Below (k + k + 54) (xs.foldl (fun sum x => sum + x * x) 0.0) ∧
      ∀ x ∈ xs, value (x * x) ≤ value (xs.foldl (fun sum x => sum + x * x) 0.0) := by
  have hsquares : ∀ x ∈ xs, (x * x).isFinite = true ∧ 0 ≤ value (x * x) ∧
      value (x * x) ≤ 2 ^ (k + k) := by
    intro x hx
    obtain ⟨hsquare, -⟩ := below_mul_self (h x hx) (by omega)
    exact ⟨hsquare.amount.finite, hsquare.amount.nonneg, hsquare.le⟩
  obtain ⟨hbelow, -, hall⟩ := below_foldl_add (fun x => x * x) hk hsquares (below_zero _)
  exact ⟨hbelow, hall⟩

theorem below_norm (hk : k + k + 54 < 1023) (h : ∀ x ∈ xs, Within k x) :
    Below (k + 27) (norm xs) ∧
      value (norm xs) =
        rounded (Real.sqrt (value (xs.foldl (fun sum x => sum + x * x) 0.0))) := by
  have hsum := (below_sum_squares hk h).1
  have hsplit : k + k + 54 = (k + 27) + (k + 27) := by omega
  rw [hsplit] at hsum
  exact hsum.sqrt (by omega)

theorem norm_mono {ys : List Float} (hk : k + k + 54 < 1023) (hx : ∀ x ∈ xs, Within k x)
    (hy : ∀ y ∈ ys, Within k y) (h : List.Forall₂ (fun x y => |value x| ≤ |value y|) xs ys) :
    value (norm xs) ≤ value (norm ys) := by
  rw [(below_norm hk hx).2, (below_norm hk hy).2]
  exact rounded_mono (Real.sqrt_le_sqrt
    (addSquares_mono hk (below_zero _) (below_zero _) le_rfl hx hy h))

/-- The norm of zeros is zero. -/
theorem norm_of_zeros (hk : k + k + 54 < 1023) (h : ∀ x ∈ xs, Within k x ∧ value x = 0) :
    value (norm xs) = 0 := by
  have hsum := addSquares_of_zeros hk (below_zero _) h
  rw [(below_norm hk fun x hx => (h x hx).1).2]
  change rounded (Real.sqrt (value (addSquares 0.0 xs))) = 0
  rw [hsum, value_zero, Real.sqrt_zero, rounded_of_representable representable_zero]

end

/-- Going through a list for a value that none comes before by some measure. -/
theorem foldl_extreme (before : Float → Float → Prop) [DecidableRel before] (measure : Float → ℝ)
    {start : Float} {xs : List Float}
    (h : ∀ x ∈ start :: xs, ∀ y ∈ start :: xs, before x y ↔ measure x < measure y) :
    xs.foldl (fun best x => if before x best then x else best) start ∈ start :: xs ∧
      ∀ x ∈ start :: xs,
        measure (xs.foldl (fun best x => if before x best then x else best) start) ≤ measure x := by
  induction xs generalizing start with
  | nil =>
    refine ⟨List.mem_cons_self, fun x hx => ?_⟩
    rw [List.mem_singleton.mp hx]
    exact le_rfl
  | cons y xs ih =>
    have hstart : start ∈ start :: y :: xs := List.mem_cons_self
    have hy : y ∈ start :: y :: xs := List.mem_cons_of_mem start List.mem_cons_self
    rw [List.foldl_cons]
    by_cases hlt : before y start
    · rw [if_pos hlt]
      have hsub : ∀ x ∈ y :: xs, x ∈ start :: y :: xs := fun x hx => List.mem_cons_of_mem start hx
      obtain ⟨hmem, hall⟩ := ih fun x hx z hz => h x (hsub x hx) z (hsub z hz)
      refine ⟨hsub _ hmem, fun x hx => ?_⟩
      rcases List.mem_cons.mp hx with rfl | hx
      · exact (hall y List.mem_cons_self).trans ((h y hy x hstart).mp hlt).le
      · exact hall x hx
    · rw [if_neg hlt]
      have hsub : ∀ x ∈ start :: xs, x ∈ start :: y :: xs := by
        intro x hx
        rcases List.mem_cons.mp hx with rfl | hx
        · exact hstart
        · exact List.mem_cons_of_mem start (List.mem_cons_of_mem y hx)
      obtain ⟨hmem, hall⟩ := ih fun x hx z hz => h x (hsub x hx) z (hsub z hz)
      refine ⟨hsub _ hmem, fun x hx => ?_⟩
      rcases List.mem_cons.mp hx with rfl | hx
      · exact hall x List.mem_cons_self
      rcases List.mem_cons.mp hx with rfl | hx
      · have hle : measure start ≤ measure x := not_lt.mp (mt (h x hy start hstart).mpr hlt)
        exact (hall start List.mem_cons_self).trans hle
      · exact hall x (List.mem_cons_of_mem start hx)

theorem lt_infinity {x : Float} (hx : x.isFinite = true) : x < 1.0 / 0.0 := by
  have hinfinity : (1.0 / 0.0 : Float).toModel.unpack = .infinity .positive := rfl
  have hproper := proper_unpack hx
  rw [lt_iff, hinfinity]
  cases hu : x.toModel.unpack with
  | zero s => rfl
  | finite s m e hm => cases s <;> rfl
  | _ => rw [hu] at hproper; cases hproper

theorem neg_infinity_lt {x : Float} (hx : x.isFinite = true) : -1.0 / 0.0 < x := by
  have hinfinity : (-1.0 / 0.0 : Float).toModel.unpack = .infinity .negative := rfl
  have hproper := proper_unpack hx
  rw [lt_iff, hinfinity]
  cases hu : x.toModel.unpack with
  | zero s => rfl
  | finite s m e hm => rfl
  | _ => rw [hu] at hproper; cases hproper

theorem least_spec {xs : List Float} (hne : xs ≠ []) (h : ∀ x ∈ xs, x.isFinite = true) :
    least xs ∈ xs ∧ ∀ x ∈ xs, value (least xs) ≤ value x := by
  obtain ⟨x, xs, rfl⟩ := List.exists_cons_of_ne_nil hne
  have hfirst : least (x :: xs) = xs.foldl (fun least x => if x < least then x else least) x := by
    rw [least, List.foldl_cons, if_pos (lt_infinity (h x List.mem_cons_self))]
  rw [hfirst]
  exact foldl_extreme (· < ·) value fun y hy z hz => lt_iff_value (h y hy) (h z hz)

theorem greatest_spec {xs : List Float} (hne : xs ≠ []) (h : ∀ x ∈ xs, x.isFinite = true) :
    greatest xs ∈ xs ∧ ∀ x ∈ xs, value x ≤ value (greatest xs) := by
  obtain ⟨x, xs, rfl⟩ := List.exists_cons_of_ne_nil hne
  have hfirst : greatest (x :: xs) =
      xs.foldl (fun greatest x => if greatest < x then x else greatest) x := by
    rw [greatest, List.foldl_cons, if_pos (neg_infinity_lt (h x List.mem_cons_self))]
  have hreverse : ∀ y ∈ x :: xs, ∀ z ∈ x :: xs, z < y ↔ -value y < -value z := fun y hy z hz =>
    (lt_iff_value (h z hz) (h y hy)).trans neg_lt_neg_iff.symm
  obtain ⟨hmem, hall⟩ := foldl_extreme (fun y z => z < y) (fun y => -value y) hreverse
  rw [hfirst]
  exact ⟨hmem, fun y hy => neg_le_neg_iff.mp (hall y hy)⟩

section
variable {n k : ℕ} {a b : Vector Float n}

theorem exists_get_of_mem {α : Type} {v : Vector α n} {x : α} (h : x ∈ v.toList) :
    ∃ i : Fin n, v.get i = x := by
  obtain ⟨i, hi, rfl⟩ := List.mem_iff_getElem.mp h
  have hn : i < n := by simpa using hi
  exact ⟨⟨i, hn⟩, by simp [Vector.get_eq_getElem]⟩

theorem get_mem_toList {α : Type} (v : Vector α n) (i : Fin n) : v.get i ∈ v.toList := by
  simp [Vector.get_eq_getElem]

theorem mem_differences {d : Float} (hd : d ∈ (Vector.zipWith (· - ·) a b).toList) :
    ∃ i : Fin n, d = a.get i - b.get i := by
  obtain ⟨i, rfl⟩ := exists_get_of_mem hd
  exact ⟨i, by simp [Vector.get_eq_getElem]⟩

section
variable {c : Vector Float n} (hk : k + 1 + (k + 1) + 54 < 1023)
  (ha : ∀ i : Fin n, Within k (a.get i)) (hb : ∀ i : Fin n, Within k (b.get i))
include hk ha hb

theorem within_differences :
    ∀ d ∈ (Vector.zipWith (· - ·) a b).toList, Within (k + 1) d := by
  intro d hd
  obtain ⟨i, rfl⟩ := mem_differences hd
  exact ((ha i).sub (hb i) (by omega)).1

theorem below_distance : Below (k + 28) (distance a b) :=
  (below_norm hk (within_differences hk ha hb)).1

/-- A point is at no distance from one with the same coordinates. -/
theorem distance_of_eq (h : ∀ i : Fin n, value (a.get i) = value (b.get i)) :
    value (distance a b) = 0 := by
  refine norm_of_zeros hk fun d hd => ?_
  obtain ⟨i, rfl⟩ := mem_differences hd
  obtain ⟨hwithin, hvalue⟩ := (ha i).sub (hb i) (by omega)
  rw [h i, sub_self, rounded_of_representable representable_zero] at hvalue
  exact ⟨hwithin, hvalue⟩

/-- One point is closer to a target than another point is to its own if it is so in each
coordinate. -/
theorem distance_mono {d : Vector Float n} (hc : ∀ i : Fin n, Within k (c.get i))
    (hd : ∀ i : Fin n, Within k (d.get i))
    (h : ∀ i : Fin n, |rounded (value (a.get i) - value (c.get i))| ≤
      |rounded (value (b.get i) - value (d.get i))|) :
    value (distance a c) ≤ value (distance b d) := by
  refine norm_mono hk (within_differences hk ha hc) (within_differences hk hb hd)
    (List.forall₂_iff_get.mpr ⟨by simp, ?_⟩)
  intro i hi _
  have hin : i < n := by simpa using hi
  have hfirst := ((ha ⟨i, hin⟩).sub (hc ⟨i, hin⟩) (by omega)).2
  have hsecond := ((hb ⟨i, hin⟩).sub (hd ⟨i, hin⟩) (by omega)).2
  have hle := h ⟨i, hin⟩
  rw [← hfirst, ← hsecond] at hle
  simpa [Vector.get_eq_getElem] using hle

theorem distance_congr {d : Vector Float n} (hc : ∀ i : Fin n, Within k (c.get i))
    (hd : ∀ i : Fin n, Within k (d.get i))
    (hab : ∀ i : Fin n, value (a.get i) = value (b.get i))
    (hcd : ∀ i : Fin n, value (c.get i) = value (d.get i)) :
    value (distance a c) = value (distance b d) := by
  refine le_antisymm (distance_mono hk ha hb hc hd fun i => ?_)
    (distance_mono hk hb ha hd hc fun i => ?_)
  · rw [hab, hcd]
  · rw [hab, hcd]

end

end

theorem abs_rounded_sub_comm (p q : ℝ) : |rounded (p - q)| = |rounded (q - p)| := by
  rw [← neg_sub q p, rounded_neg, abs_neg]

theorem abs_rounded_sub_mono {p q r : ℝ} (hpq : p ≤ q) (hqr : q ≤ r) :
    |rounded (q - p)| ≤ |rounded (r - p)| := by
  rw [abs_of_nonneg (rounded_nonneg (sub_nonneg.mpr hpq)),
    abs_of_nonneg (rounded_nonneg (sub_nonneg.mpr (hpq.trans hqr)))]
  exact rounded_mono (by linarith)

theorem abs_rounded_sub_anti {p q r : ℝ} (hpq : p ≤ q) (hqr : q ≤ r) :
    |rounded (q - r)| ≤ |rounded (p - r)| := by
  rw [abs_rounded_sub_comm q, abs_rounded_sub_comm p,
    abs_of_nonneg (rounded_nonneg (sub_nonneg.mpr hqr)),
    abs_of_nonneg (rounded_nonneg (sub_nonneg.mpr (hpq.trans hqr)))]
  exact rounded_mono (by linarith)

section
variable {k : ℕ} {toBest toWorst : Float} (hk : k + 1 < 1024) (hbest : Below k toBest)
  (hworst : Below k toWorst)
include hk hbest hworst

theorem total_spec :
    Amount (toBest + toWorst) ∧ value (toBest + toWorst) = rounded (value toBest + value toWorst) ∧
      value toBest ≤ value (toBest + toWorst) ∧ value toWorst ≤ value (toBest + toWorst) := by
  obtain ⟨htotal, hvalue⟩ := hbest.add hworst hk
  refine ⟨htotal.amount, hvalue, ?_, ?_⟩
  · rw [hvalue]
    exact le_rounded (representable_value hbest.amount.finite) (by linarith [hworst.amount.nonneg])
  · rw [hvalue]
    exact le_rounded (representable_value hworst.amount.finite) (by linarith [hbest.amount.nonneg])

theorem closeness_of_zero (hb : value toBest = 0) (hw : value toWorst = 0) :
    closeness toBest toWorst = 1.0 := by
  obtain ⟨htotal, hvalue, -, -⟩ := total_spec hk hbest hworst
  rw [hb, hw, add_zero, rounded_of_representable representable_zero] at hvalue
  exact if_pos ((beq_iff_value htotal.finite amount_zero.finite).mpr (hvalue.trans value_zero.symm))

/-- Where a distance does not vanish, the share is a quotient. -/
theorem closeness_of_pos (h : 0 < value (toBest + toWorst)) :
    Amount (closeness toBest toWorst) ∧
      value (closeness toBest toWorst) = rounded (value toWorst / value (toBest + toWorst)) := by
  obtain ⟨htotal, -, -, hright⟩ := total_spec hk hbest hworst
  have hne : ¬ (toBest + toWorst == 0.0) = true := Bool.eq_false_iff.mp (htotal.ne_zero h)
  have hle : rounded (value toWorst / value (toBest + toWorst)) ≤ 1 :=
    rounded_le representable_one ((div_le_one h).mpr hright)
  unfold closeness
  dsimp only
  rw [if_neg hne]
  exact hworst.amount.div htotal h (hle.trans_lt (one_lt_pow₀ one_lt_two (by norm_num)))

/-- A share lies between zero and one. -/
theorem closeness_spec :
    Amount (closeness toBest toWorst) ∧ value (closeness toBest toWorst) ≤ 1 := by
  obtain ⟨htotal, -, hleft, hright⟩ := total_spec hk hbest hworst
  have hb := hbest.amount.nonneg
  have hw := hworst.amount.nonneg
  rcases htotal.nonneg.lt_or_eq with hpos | hzero
  · obtain ⟨hshare, hvalue⟩ := closeness_of_pos hk hbest hworst hpos
    rw [hvalue]
    exact ⟨hshare, rounded_le representable_one ((div_le_one hpos).mpr hright)⟩
  · rw [closeness_of_zero hk hbest hworst (by linarith) (by linarith)]
    exact ⟨amount_one, value_one.le⟩

/-- What is at no distance from the best has all of it. -/
theorem closeness_of_best (hb : value toBest = 0) : closeness toBest toWorst = 1.0 := by
  obtain ⟨htotal, hvalue, hleft, -⟩ := total_spec hk hbest hworst
  rcases hworst.amount.nonneg.lt_or_eq with hpos | hzero
  · rw [hb, zero_add, rounded_of_representable (representable_value hworst.amount.finite)] at hvalue
    obtain ⟨hshare, hquotient⟩ := closeness_of_pos hk hbest hworst (hvalue ▸ hpos)
    rw [hvalue, div_self hpos.ne', rounded_of_representable representable_one] at hquotient
    exact hshare.ext amount_one (hquotient.trans value_one.symm)
  · exact closeness_of_zero hk hbest hworst hb hzero.symm

/-- What is at no distance from the worst, but at some from the best, has none. -/
theorem closeness_of_worst (hw : value toWorst = 0) (hb : value toBest ≠ 0) :
    value (closeness toBest toWorst) = 0 := by
  obtain ⟨-, -, hleft, -⟩ := total_spec hk hbest hworst
  have hpos := (lt_of_le_of_ne hbest.amount.nonneg hb.symm).trans_le hleft
  rw [(closeness_of_pos hk hbest hworst hpos).2, hw, zero_div,
    rounded_of_representable representable_zero]

end

end Placement.Topsis
