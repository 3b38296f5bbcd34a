import Mathlib
import Placement.Proofs.Double.Conversion
import Placement.Proofs.Double.Error

/-!
# Sums of squares

Squares are added one after the other, and every product and every sum is rounded. The outcome
depends on the order; how it compares with another such sum can be told from the exact sums only
where nothing is rounded or where these are far enough apart. One is added to all sums that are
compared: that keeps squares out of the way which are too small for a double.
-/
namespace Placement.Double

/-- Adds the squares one after the other. -/
def addSquares (s : Float) (xs : List Float) : Float := xs.foldl (fun sum x => sum + x * x) s

@[simp] theorem addSquares_nil (s : Float) : addSquares s [] = s := rfl

@[simp] theorem addSquares_cons (s x : Float) (xs : List Float) :
    addSquares s (x :: xs) = addSquares (s + x * x) xs := rfl

/-- The sum of the squares without rounding. -/
noncomputable def squares (xs : List Float) : ℝ := (xs.map fun x => value x ^ 2).sum

@[simp] theorem squares_nil : squares [] = 0 := rfl

@[simp] theorem squares_cons (x : Float) (xs : List Float) :
    squares (x :: xs) = value x ^ 2 + squares xs := List.sum_cons

theorem squares_perm {xs ys : List Float} (h : xs.Perm ys) : squares xs = squares ys :=
  (h.map _).sum_eq

theorem squares_nonneg (xs : List Float) : 0 ≤ squares xs := by
  refine List.sum_nonneg fun q hq => ?_
  obtain ⟨x, -, rfl⟩ := List.mem_map.mp hq
  exact sq_nonneg _

section
variable {k : ℕ} {s t x y : Float} (hk : k + k + 54 < 1023)
include hk

theorem add_square (hs : Below (k + k + 54) s) (hx : Within k x) :
    Below (k + k + 54) (s + x * x) ∧
      value (s + x * x) = rounded (value s + rounded (value x ^ 2)) := by
  obtain ⟨hsquare, hvalue⟩ := below_mul_self hx (by omega)
  obtain ⟨hsum, hvalue'⟩ := hs.add_small hsquare.amount.finite hsquare.amount.nonneg hsquare.le hk
  rw [hvalue, ← sq] at hvalue'
  exact ⟨hsum, hvalue'⟩

theorem add_square_mono (hs : Below (k + k + 54) s) (ht : Below (k + k + 54) t)
    (hx : Within k x) (hy : Within k y) (hst : value s ≤ value t)
    (hxy : |value x| ≤ |value y|) : value (s + x * x) ≤ value (t + y * y) := by
  rw [(add_square hk hs hx).2, (add_square hk ht hy).2]
  exact rounded_mono (add_le_add hst (rounded_mono (sq_le_sq.mpr hxy)))

/-- What is rounded off is a small share of the sum and of one. -/
theorem add_square_error (hs : Below (k + k + 54) s) (hx : Within k x) :
    1 + value (s + x * x) ≤ (1 + value s + value x ^ 2) * (1 + 2 ^ (-51 : ℤ)) ∧
      1 + value s + value x ^ 2 ≤ (1 + value (s + x * x)) * (1 + 2 ^ (-51 : ℤ)) := by
  have hstart := hs.amount.nonneg
  have hsquare : 0 ≤ value x ^ 2 := sq_nonneg _
  have hrounded : 0 ≤ rounded (value x ^ 2) := rounded_nonneg hsquare
  have hfirst := abs_le.mp (abs_rounded_sub_le_share (value x ^ 2))
  have hsecond := abs_le.mp (abs_rounded_sub_le_share (value s + rounded (value x ^ 2)))
  have htiny : (2 : ℝ) ^ (-1075 : ℤ) ≤ 2 ^ (-60 : ℤ) :=
    zpow_le_zpow_right₀ one_le_two (by norm_num)
  rw [abs_of_nonneg hsquare] at hfirst
  rw [abs_of_nonneg (add_nonneg hstart hrounded)] at hsecond
  rw [(add_square hk hs hx).2]
  generalize (2 : ℝ) ^ (-1075 : ℤ) = tiny at hfirst hsecond htiny
  norm_num at hfirst hsecond htiny ⊢
  constructor <;> linarith

theorem addSquares_mono {xs ys : List Float} (hs : Below (k + k + 54) s)
    (ht : Below (k + k + 54) t) (hst : value s ≤ value t) (hx : ∀ x ∈ xs, Within k x)
    (hy : ∀ y ∈ ys, Within k y)
    (h : List.Forall₂ (fun x y => |value x| ≤ |value y|) xs ys) :
    value (addSquares s xs) ≤ value (addSquares t ys) := by
  induction h generalizing s t with
  | nil => exact hst
  | cons hxy _ ih =>
    obtain ⟨hx, hxs⟩ := List.forall_mem_cons.mp hx
    obtain ⟨hy, hys⟩ := List.forall_mem_cons.mp hy
    exact ih (add_square hk hs hx).1 (add_square hk ht hy).1
      (add_square_mono hk hs ht hx hy hst hxy) hxs hys

theorem addSquares_of_zeros {xs : List Float} (hs : Below (k + k + 54) s)
    (h : ∀ x ∈ xs, Within k x ∧ value x = 0) : value (addSquares s xs) = value s := by
  induction xs generalizing s with
  | nil => rfl
  | cons x xs ih =>
    obtain ⟨⟨hx, hzero⟩, hxs⟩ := List.forall_mem_cons.mp h
    obtain ⟨hsum, hvalue⟩ := add_square hk hs hx
    rw [hzero, zero_pow two_ne_zero, rounded_of_representable representable_zero, add_zero,
      rounded_of_representable (representable_value hs.amount.finite)] at hvalue
    exact (ih hsum hxs).trans hvalue

theorem addSquares_error {xs : List Float} (hs : Below (k + k + 54) s)
    (h : ∀ x ∈ xs, Within k x) :
    1 + value (addSquares s xs) ≤
        (1 + value s + squares xs) * (1 + 2 ^ (-51 : ℤ)) ^ xs.length ∧
      1 + value s + squares xs ≤
        (1 + value (addSquares s xs)) * (1 + 2 ^ (-51 : ℤ)) ^ xs.length := by
  induction xs generalizing s with
  | nil => simp
  | cons x xs ih =>
    obtain ⟨hx, hxs⟩ := List.forall_mem_cons.mp h
    obtain ⟨hupper, hlower⟩ := add_square_error hk hs hx
    obtain ⟨ihupper, ihlower⟩ := ih (add_square hk hs hx).1 hxs
    have hfactor : (1 : ℝ) ≤ 1 + 2 ^ (-51 : ℤ) := le_add_of_nonneg_right (by positivity)
    have hrest : squares xs ≤ squares xs * (1 + 2 ^ (-51 : ℤ)) :=
      le_mul_of_one_le_right (squares_nonneg xs) hfactor
    rw [addSquares_cons, squares_cons, List.length_cons, pow_succ' _ xs.length]
    constructor
    · calc 1 + value (addSquares (s + x * x) xs)
          ≤ (1 + value (s + x * x) + squares xs) * (1 + 2 ^ (-51 : ℤ)) ^ xs.length := ihupper
        _ ≤ ((1 + value s + (value x ^ 2 + squares xs)) * (1 + 2 ^ (-51 : ℤ))) *
              (1 + 2 ^ (-51 : ℤ)) ^ xs.length := by gcongr; linarith
        _ = _ := mul_assoc _ _ _
    · calc 1 + value s + (value x ^ 2 + squares xs)
          ≤ (1 + value (s + x * x) + squares xs) * (1 + 2 ^ (-51 : ℤ)) := by linarith
        _ ≤ ((1 + value (addSquares (s + x * x) xs)) * (1 + 2 ^ (-51 : ℤ)) ^ xs.length) *
              (1 + 2 ^ (-51 : ℤ)) := by gcongr
        _ = _ := by ring

end

/-- Doubles that are multiples of a unit, and few enough of them to add up their squares without
rounding. -/
structure Graded (xs : List Float) : Prop where
  multiples : ∃ (e : ℕ) (ns : List ℕ), e ≤ 537 ∧
    xs.map value = ns.map (fun n : ℕ => (n : ℝ) * 2 ^ (-e : ℤ)) ∧ (ns.map (· ^ 2)).sum ≤ 2 ^ 53

theorem rounded_multiple {e j : ℕ} (he : e ≤ 537) (hj : j ≤ 2 ^ 53) :
    rounded (j * 2 ^ (-(e + e) : ℤ)) = j * 2 ^ (-(e + e) : ℤ) := by
  have hmultiple := representable_of_le (m := j) (e := -(e + e))
    (by rw [Nat.abs_cast]; exact_mod_cast hj) (by omega)
  exact rounded_of_representable (by exact_mod_cast hmultiple)

section
variable {k : ℕ} {s : Float} {xs : List Float} (hk : k + k + 54 < 1023)
include hk

theorem addSquares_of_multiples {e m : ℕ} {ns : List ℕ} (he : e ≤ 537)
    (hs : Below (k + k + 54) s) (h : ∀ x ∈ xs, Within k x)
    (hstart : value s = m * 2 ^ (-(e + e) : ℤ))
    (multiples : xs.map value = ns.map (fun n : ℕ => (n : ℝ) * 2 ^ (-e : ℤ)))
    (few : m + (ns.map (· ^ 2)).sum ≤ 2 ^ 53) :
    value (addSquares s xs) = value s + squares xs := by
  induction xs generalizing s ns m with
  | nil => simp
  | cons x xs ih =>
    cases ns with
    | nil => cases multiples
    | cons n ns =>
      obtain ⟨hx, hxs⟩ := List.forall_mem_cons.mp h
      obtain ⟨hn, hns⟩ := List.cons.inj multiples
      rw [List.map_cons, List.sum_cons] at few
      have hsquare : value x ^ 2 = (n ^ 2 : ℕ) * 2 ^ (-(e + e) : ℤ) := by
        rw [hn, mul_pow, neg_add, zpow_add₀ two_ne_zero, ← sq]
        push_cast
        rfl
      have hsum : value s + value x ^ 2 = (m + n ^ 2 : ℕ) * 2 ^ (-(e + e) : ℤ) := by
        rw [hstart, hsquare]
        push_cast
        ring
      obtain ⟨hbelow, hvalue⟩ := add_square hk hs hx
      rw [hsquare, rounded_multiple he (by omega), ← hsquare, hsum,
        rounded_multiple he (by omega)] at hvalue
      rw [addSquares_cons, squares_cons, ih hbelow hxs hvalue hns (by omega), hvalue, ← hsum,
        add_assoc]

theorem Graded.addSquares_eq (graded : Graded xs) (h : ∀ x ∈ xs, Within k x) :
    value (addSquares 0.0 xs) = squares xs := by
  obtain ⟨e, ns, he, multiples, few⟩ := graded.multiples
  have hstart : value 0.0 = (0 : ℕ) * 2 ^ (-(e + e) : ℤ) := by simp [value_zero]
  rw [addSquares_of_multiples hk he (below_zero _) h hstart multiples (by rwa [zero_add]),
    value_zero, zero_add]

end

theorem graded_ofNat {ns : List ℕ} (h : (ns.map (· ^ 2)).sum ≤ 2 ^ 53) :
    Graded (ns.map Float.ofNat) := by
  refine ⟨0, ns, by norm_num, ?_, h⟩
  rw [List.map_map]
  refine List.map_congr_left fun n hn => ?_
  have hmem : n ^ 2 ∈ ns.map (· ^ 2) := List.mem_map_of_mem (f := (· ^ 2)) hn
  have hsquare : n ^ 2 ≤ 2 ^ 53 := (List.single_le_sum (fun _ _ => Nat.zero_le _) _ hmem).trans h
  have hlt : n < 2 ^ 53 := by nlinarith
  simpa using (amount_ofNat_of_lt hlt).2

/-- Reasons for which the squares of some doubles add up to no more than those of others. -/
inductive Settled : List Float → List Float → Prop
  | same (xs : List Float) : Settled xs xs
  | swap (x y : Float) (xs : List Float) : Settled (x :: y :: xs) (y :: x :: xs)
  | graded {xs ys : List Float} : Graded xs → Graded ys → squares xs ≤ squares ys → Settled xs ys
  | apart {xs ys : List Float} :
      (1 + squares xs) * (1 + 2 ^ (-51 : ℤ)) ^ (2 * xs.length) ≤ 1 + squares ys → Settled xs ys

section
variable {k : ℕ} {xs ys : List Float} (hk : k + k + 54 < 1023) (hx : ∀ x ∈ xs, Within k x)
include hk hx

/-- The first two squares are added without regard to their order. -/
theorem addSquares_swap {x y : Float} (hfirst : Within k x) (hsecond : Within k y) :
    value (addSquares 0.0 (x :: y :: xs)) ≤ value (addSquares 0.0 (y :: x :: xs)) := by
  have hstart := below_zero (k + k + 54)
  have hone : ∀ {z}, Within k z → value (0.0 + z * z) = rounded (value z ^ 2) := fun hz => by
    rw [(add_square hk hstart hz).2, value_zero, zero_add,
      rounded_of_representable (representable_rounded _)]
  obtain ⟨hbelow, hvalue⟩ := add_square hk (add_square hk hstart hfirst).1 hsecond
  obtain ⟨hbelow', hvalue'⟩ := add_square hk (add_square hk hstart hsecond).1 hfirst
  rw [hone hfirst] at hvalue
  rw [hone hsecond, add_comm] at hvalue'
  simp only [addSquares_cons]
  exact addSquares_mono hk hbelow hbelow' (hvalue.trans hvalue'.symm).le hx hx
    (List.forall₂_same.mpr fun _ _ => le_rfl)

/-- Sums that are far enough apart are rounded in their order. -/
theorem addSquares_le_of_apart (hy : ∀ y ∈ ys, Within k y) (length : xs.length = ys.length)
    (apart : (1 + squares xs) * (1 + 2 ^ (-51 : ℤ)) ^ (2 * xs.length) ≤ 1 + squares ys) :
    value (addSquares 0.0 xs) ≤ value (addSquares 0.0 ys) := by
  obtain ⟨hupper, -⟩ := addSquares_error hk (below_zero (k + k + 54)) hx
  obtain ⟨-, hlower⟩ := addSquares_error hk (below_zero (k + k + 54)) hy
  rw [value_zero, add_zero] at hupper hlower
  rw [← length] at hlower
  rw [two_mul, pow_add] at apart
  have hfactor : (0 : ℝ) < (1 + 2 ^ (-51 : ℤ)) ^ xs.length := by positivity
  have hscaled := calc (1 + value (addSquares 0.0 xs)) * (1 + 2 ^ (-51 : ℤ)) ^ xs.length
      ≤ ((1 + squares xs) * (1 + 2 ^ (-51 : ℤ)) ^ xs.length) *
          (1 + 2 ^ (-51 : ℤ)) ^ xs.length := by gcongr
    _ = (1 + squares xs) * ((1 + 2 ^ (-51 : ℤ)) ^ xs.length *
          (1 + 2 ^ (-51 : ℤ)) ^ xs.length) := mul_assoc _ _ _
    _ ≤ 1 + squares ys := apart
    _ ≤ (1 + value (addSquares 0.0 ys)) * (1 + 2 ^ (-51 : ℤ)) ^ xs.length := hlower
  linarith [le_of_mul_le_mul_right hscaled hfactor]

/-- What is settled holds of the rounded sums. -/
theorem Settled.addSquares_le (settled : Settled xs ys) (length : xs.length = ys.length)
    (hy : ∀ y ∈ ys, Within k y) : value (addSquares 0.0 xs) ≤ value (addSquares 0.0 ys) := by
  cases settled with
  | same => exact le_rfl
  | swap x y xs =>
    obtain ⟨hfirst, hsecond, hxs⟩ : Within k x ∧ Within k y ∧ ∀ z ∈ xs, Within k z := by
      simpa only [List.forall_mem_cons] using hx
    exact addSquares_swap hk hxs hfirst hsecond
  | graded hxs hys hle => rwa [hxs.addSquares_eq hk hx, hys.addSquares_eq hk hy]
  | apart hle => exact addSquares_le_of_apart hk hx hy length hle

end

/-- What is settled about doubles in one order is settled the other way round about others that are
the same doubles in another order. -/
theorem Settled.symm_of_perm {xs ys : List Float} (settled : Settled xs ys) (perm : xs.Perm ys) :
    Settled ys xs := by
  cases settled with
  | same => exact .same xs
  | swap x y xs => exact .swap y x xs
  | graded hxs hys => exact .graded hys hxs (squares_perm perm).ge
  | apart hle =>
    rw [← squares_perm perm] at hle
    have hone : (1 + 2 ^ (-51 : ℤ) : ℝ) ^ (2 * xs.length) ≤ 1 :=
      (mul_le_iff_le_one_right (by linarith [squares_nonneg xs])).mp hle
    cases xs with
    | nil => rw [perm.nil_eq]; exact .same _
    | cons x xs => exact absurd hone (not_le.mpr (one_lt_pow₀ (by norm_num) (by simp)))

end Placement.Double
