import Mathlib
import Placement.Proofs.Double.Conversion
import Placement.Proofs.Double.Error

/-!
# Rounded sums

Amounts are added one after the other and every sum is rounded. Sums only grow on the way, so what
is rounded off in each addition is a share of the last sum; together these are as many shares as
there are amounts, and no power of their number comes in. A sum also stops growing once it is many
times as large as each amount. Both are said of sums that stay within the doubles.
-/
namespace Placement.Double

variable {x y s : Float} {xs : List Float}

theorem not_isFinite_of_infinity (h : x.toModel.unpack = .infinity .positive) :
    ¬ x.isFinite = true := by
  change ¬ x.toModel.unpack.isFinite = true
  rw [h]
  exact Bool.false_ne_true

theorem Amount.add_of_finite (hx : Amount x) (hy : Amount y) (h : (x + y).isFinite = true) :
    Amount (x + y) ∧ value (x + y) = rounded (value x + value y) := by
  refine hx.add hy.finite hy.nonneg (not_le.mp fun hlarge => ?_)
  have happrox := approximates_add (proper_unpack hx.finite) (proper_unpack hy.finite)
  exact not_isFinite_of_infinity (happrox.large hlarge) h

/-- A sum that is finite in the end has been so after each addition. -/
theorem Amount.add_of_foldl (hs : Amount s) (h : ∀ x ∈ y :: xs, Amount x)
    (finite : ((y :: xs).foldl (· + ·) s).isFinite = true) :
    Amount (s + y) ∧ value (s + y) = rounded (value s + value y) := by
  obtain ⟨hy, hxs⟩ := List.forall_mem_cons.mp h
  rcases hs.add_or_infinity hy with ⟨hsum, -⟩ | hinfinity
  · exact hs.add_of_finite hy hsum.finite
  · exact absurd finite (not_isFinite_of_infinity (foldl_add_infinity hxs hinfinity))

theorem le_foldl_add (hs : Amount s) (h : ∀ x ∈ xs, Amount x)
    (finite : (xs.foldl (· + ·) s).isFinite = true) :
    Amount (xs.foldl (· + ·) s) ∧ ∀ x ∈ s :: xs, value x ≤ value (xs.foldl (· + ·) s) := by
  rcases foldl_add_or_infinity h hs with htotal | hinfinity
  · exact htotal
  · exact absurd finite (not_isFinite_of_infinity hinfinity)

/-- Each amount adds a share of the total to what is rounded off. -/
theorem abs_foldl_add_sub_le (hs : Amount s) (h : ∀ x ∈ xs, Amount x)
    (finite : (xs.foldl (· + ·) s).isFinite = true) :
    |value (xs.foldl (· + ·) s) - (value s + (xs.map value).sum)| ≤
      xs.length * (2 ^ (-53 : ℤ) * value (xs.foldl (· + ·) s)) := by
  induction xs generalizing s with
  | nil => simp
  | cons y xs ih =>
    obtain ⟨hadded, hvalue⟩ := hs.add_of_foldl h finite
    obtain ⟨hy, hxs⟩ := List.forall_mem_cons.mp h
    have hrest := ih hadded hxs finite
    have hgrown := (le_foldl_add hadded hxs finite).2 _ List.mem_cons_self
    have hstep := abs_rounded_add_sub_le_rounded (representable_value hs.finite)
      (representable_value hy.finite) (add_nonneg hs.nonneg hy.nonneg)
    rw [← hvalue] at hstep
    have hshare : (2 : ℝ) ^ (-53 : ℤ) * value (s + y) ≤
        2 ^ (-53 : ℤ) * value (xs.foldl (· + ·) (s + y)) := by gcongr
    rw [List.foldl_cons, List.map_cons, List.sum_cons, List.length_cons]
    calc |value (xs.foldl (· + ·) (s + y)) - (value s + (value y + (xs.map value).sum))|
        = |(value (xs.foldl (· + ·) (s + y)) - (value (s + y) + (xs.map value).sum)) +
            (value (s + y) - (value s + value y))| := by
          congr 1
          ring
      _ ≤ xs.length * (2 ^ (-53 : ℤ) * value (xs.foldl (· + ·) (s + y))) +
            2 ^ (-53 : ℤ) * value (xs.foldl (· + ·) (s + y)) :=
          (abs_add_le _ _).trans (add_le_add hrest (hstep.trans hshare))
      _ = (xs.length + 1 : ℕ) * (2 ^ (-53 : ℤ) * value (xs.foldl (· + ·) (s + y))) := by
          push_cast
          ring

theorem representable_two_pow_mul {m : ℝ} (hm : Representable m) (k : ℕ) :
    Representable (2 ^ k * m) := by
  obtain ⟨n, e, hn, he, rfl⟩ := hm
  refine ⟨n, e + k, hn, by omega, ?_⟩
  rw [zpow_add₀ two_ne_zero, zpow_natCast]
  ring

/-- However many amounts there are, their sum is not much larger than the largest. -/
theorem foldl_add_le {m : ℝ} (hm : Representable m) (hnonneg : 0 ≤ m) (hs : Amount s)
    (h : ∀ x ∈ xs, Amount x) (finite : (xs.foldl (· + ·) s).isFinite = true)
    (hle : ∀ x ∈ xs, value x ≤ m) (hstart : value s ≤ 2 ^ 54 * m) :
    value (xs.foldl (· + ·) s) ≤ 2 ^ 54 * m := by
  induction xs generalizing s with
  | nil => exact hstart
  | cons y xs ih =>
    obtain ⟨hadded, hvalue⟩ := hs.add_of_foldl h finite
    obtain ⟨-, hxs⟩ := List.forall_mem_cons.mp h
    obtain ⟨hy, hrest⟩ := List.forall_mem_cons.mp hle
    refine ih hadded hxs finite hrest ?_
    rw [hvalue]
    have hfull : rounded (2 ^ 54 * m + m) = 2 ^ 54 * m := by
      rcases hnonneg.lt_or_eq with hpos | rfl
      · refine rounded_add_of_le (representable_two_pow_mul hm 54) (by positivity) hnonneg ?_
        refine le_of_eq ?_
        norm_num
        ring
      · simpa using rounded_of_representable representable_zero
    exact (rounded_mono (add_le_add hstart hy)).trans_eq hfull

/-- A double that stands for a whole number. -/
def IsWhole (x : Float) : Prop := ∃ n : ℕ, value x = n

theorem amount_ofNat {n : ℕ} (h : n ≤ 2 ^ 53) :
    Amount (Float.ofNat n) ∧ value (Float.ofNat n) = n := by
  rcases h.lt_or_eq with hlt | heq
  · exact amount_ofNat_of_lt hlt
  · have hrounded : rounded n = n := rounded_of_representable (representable_natCast h)
    have hle : (n : ℝ) ≤ 2 ^ 53 := by exact_mod_cast h
    have hlt : rounded n < 2 ^ 1024 := by
      rw [hrounded]
      exact hle.trans_lt (pow_lt_pow_right₀ one_lt_two (by norm_num))
    have hrounds := rounds_ofNat_of_le heq.ge
    exact ⟨⟨isFinite_of_proper (hrounds.proper hlt), hrounds.sign⟩,
      (hrounds.value hlt).trans hrounded⟩

/-- Whole numbers are added exactly up to `2 ^ 53`, in whatever order they come. -/
theorem foldl_add_of_isWhole {α : Type} {g : α → Float} {l : List α} {s : Float} (hs : Amount s)
    (start : IsWhole s) (h : ∀ a ∈ l, (g a).isFinite = true ∧ IsWhole (g a))
    (bound : value s + (l.map fun a => value (g a)).sum ≤ 2 ^ 53) :
    Amount (l.foldl (fun sum a => sum + g a) s) ∧
      value (l.foldl (fun sum a => sum + g a) s) =
        value s + (l.map fun a => value (g a)).sum := by
  induction l generalizing s with
  | nil => exact ⟨hs, (add_zero _).symm⟩
  | cons a l ih =>
    obtain ⟨⟨hfinite, hwhole⟩, hl⟩ := List.forall_mem_cons.mp h
    obtain ⟨m, hm⟩ := start
    obtain ⟨n, hn⟩ := hwhole
    rw [List.map_cons, List.sum_cons, ← add_assoc] at bound ⊢
    have hrest : 0 ≤ (l.map fun b => value (g b)).sum := by
      apply List.sum_nonneg
      intro x hx
      obtain ⟨b, hb, rfl⟩ := List.mem_map.mp hx
      obtain ⟨k, hk⟩ := (hl b hb).2
      exact hk ▸ Nat.cast_nonneg k
    have hsmall : m + n ≤ 2 ^ 53 := by
      rw [hm, hn] at bound
      exact_mod_cast (le_add_of_nonneg_right hrest).trans bound
    have hexact : rounded (value s + value (g a)) = value s + value (g a) := by
      rw [hm, hn, ← Nat.cast_add, rounded_of_representable (representable_natCast hsmall)]
    have hlt : rounded (value s + value (g a)) < 2 ^ 1024 := by
      rw [hexact]
      exact ((le_add_of_nonneg_right hrest).trans bound).trans_lt
        (pow_lt_pow_right₀ one_lt_two (by norm_num))
    obtain ⟨hsum, hvalue⟩ := hs.add hfinite (hn ▸ Nat.cast_nonneg n) hlt
    rw [hexact] at hvalue
    rw [← hvalue] at bound ⊢
    exact ih hsum ⟨m + n, by rw [hvalue, hm, hn, Nat.cast_add]⟩ hl bound

/-- Rounding each of several numbers moves their sum by a share of it, apart from what cannot be
told from zero. -/
theorem abs_sum_rounded_sub_le {qs : List ℝ} (h : ∀ q ∈ qs, 0 ≤ q) :
    |(qs.map rounded).sum - qs.sum| ≤ 2 ^ (-53 : ℤ) * qs.sum + qs.length * 2 ^ (-1075 : ℤ) := by
  induction qs with
  | nil => simp
  | cons q qs ih =>
    obtain ⟨hq, hqs⟩ := List.forall_mem_cons.mp h
    have hrest := ih hqs
    have hfirst := abs_rounded_sub_le_share q
    rw [abs_of_nonneg hq] at hfirst
    rw [List.map_cons, List.sum_cons, List.sum_cons, List.length_cons, add_sub_add_comm]
    push_cast
    linarith [abs_add_le (rounded q - q) ((qs.map rounded).sum - qs.sum)]

end Placement.Double
