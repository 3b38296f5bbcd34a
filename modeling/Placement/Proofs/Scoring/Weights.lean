import Mathlib
import Placement.Proofs.Topsis.Columns
import Placement.Scoring.Engine

/-!
# Accepted weights

Weights are accepted if none is negative, all are finite and their sum is not zero. What an engine
works with are shares of that sum. The sum of accepted weights may be infinite, and then every share
is zero, which is within bounds as well. A refusal of weights is told apart from all other refusals.
-/
namespace Placement
open Double

/-- The refusals that are about scoring criteria. -/
def Refusal.aboutCriteria : Refusal → Bool
  | .negativeWeight _ _ | .unboundedWeight _ | .weightless => true
  | .unknownNode _ | .noCpu _ | .noMemory _ | .requestOutOfDomain _ | .requestTooLarge _ => false

namespace Topsis.Criteria
variable {n : ℕ} {given : Vector Criterion n}

theorem weight_mem_weights (given : Vector Criterion n) (i : Fin n) :
    (given.get i).weight ∈ given.toList.map Criterion.weight :=
  List.mem_map_of_mem (get_mem_toList given i)

theorem amount_of_mem_weights (h : ∀ i : Fin n, Amount (given.get i).weight) :
    ∀ x ∈ given.toList.map Criterion.weight, Amount x := by
  intro x hx
  obtain ⟨c, hc, rfl⟩ := List.mem_map.mp hx
  obtain ⟨i, rfl⟩ := exists_get_of_mem hc
  exact h i

/-- Shares of a sum are at most one; of a sum that is infinite they are zero. -/
theorem scaled_spec (h : ∀ i : Fin n, Amount (given.get i).weight)
    (hne : (totalWeight given == 0.0) = false) (i : Fin n) :
    Below 0 ((scaled given).toVector.get i).weight ∧
      value ((scaled given).toVector.get i).weight =
        rounded (value (given.get i).weight / value (totalWeight given)) := by
  have hscaled : ((scaled given).toVector.get i).weight =
      (given.get i).weight / totalWeight given := by
    simp [scaled, Vector.get_eq_getElem]
  rw [hscaled]
  apply (h i).div_total hne
  rcases foldl_add_or_infinity (amount_of_mem_weights h) amount_zero with ⟨htotal, hle⟩ | hinfinity
  · exact .inl ⟨htotal, hle _ (List.mem_cons_of_mem _ (weight_mem_weights given i))⟩
  · exact .inr hinfinity

theorem ofVector_eq_ok_iff {c : Criteria n} :
    ofVector given = .ok c ↔ (∀ x ∈ given.toList, x.weight.isFinite = true) ∧
      (totalWeight given == 0.0) = false ∧ c = scaled given := by
  unfold ofVector
  cases hf : given.toList.find? (fun c => !c.weight.isFinite) with
  | some bad =>
    have hbad := List.find?_some hf
    constructor
    · intro h
      cases h
    · rintro ⟨hall, -⟩
      rw [hall bad (List.mem_of_find?_eq_some hf)] at hbad
      cases hbad
  | none =>
    have hall : ∀ x ∈ given.toList, x.weight.isFinite = true := by
      intro x hx
      simpa only [Bool.not_eq_true', Bool.not_eq_false] using List.find?_eq_none.mp hf x hx
    cases htotal : totalWeight given == 0.0 with
    | true => simp
    | false =>
      simp only [Bool.false_eq_true, if_false, Except.ok.injEq, true_and, eq_comm (b := c)]
      exact ⟨fun h => ⟨hall, h⟩, fun h => h.2⟩

theorem aboutCriteria_of_ofVector {e : Refusal} (h : ofVector given = .error e) :
    e.aboutCriteria = true := by
  unfold ofVector at h
  split at h
  · injection h with h
    rw [← h]
    rfl
  · split at h
    · injection h with h
      rw [← h]
      rfl
    · cases h

end Topsis.Criteria

namespace Weights
variable {w : Weights}

/-- What is asked of weights. -/
structure Accepted (w : Weights) : Prop where
  nonneg : ∀ x ∈ w.named.toList, ¬ x.2 < 0.0
  finite : ∀ c ∈ w.signed.toList, c.weight.isFinite = true
  weighty : (Topsis.Criteria.totalWeight w.signed == 0.0) = false

theorem criteria_eq_ok_iff {c : Topsis.Criteria 4} :
    w.criteria = .ok c ↔ w.Accepted ∧ c = .scaled w.signed := by
  unfold criteria
  cases hf : w.named.toList.find? (·.2 < 0.0) with
  | some bad =>
    have hbad := List.find?_some hf
    constructor
    · intro h
      cases h
    · rintro ⟨accepted, -⟩
      exact absurd (of_decide_eq_true hbad) (accepted.nonneg bad (List.mem_of_find?_eq_some hf))
  | none =>
    have hall : ∀ x ∈ w.named.toList, ¬ x.2 < 0.0 := by
      intro x hx h
      exact List.find?_eq_none.mp hf x hx (decide_eq_true h)
    apply Topsis.Criteria.ofVector_eq_ok_iff.trans
    constructor
    · rintro ⟨hfinite, hweighty, rfl⟩
      exact ⟨⟨hall, hfinite, hweighty⟩, rfl⟩
    · rintro ⟨accepted, rfl⟩
      exact ⟨accepted.finite, accepted.weighty, rfl⟩

theorem aboutCriteria_of_criteria {e : Refusal} (h : w.criteria = .error e) :
    e.aboutCriteria = true := by
  unfold criteria at h
  split at h
  · injection h with h
    rw [← h]
    rfl
  · exact Topsis.Criteria.aboutCriteria_of_ofVector h

theorem get_signed (w : Weights) (i : Fin 4) :
    w.signed.get i = .ofSigned (w.named.get i).1 (-(w.named.get i).2) := by
  simp [signed, Vector.get_eq_getElem]

theorem Accepted.amount_signed (accepted : w.Accepted) (i : Fin 4) :
    Amount (w.signed.get i).weight := by
  have hfinite := accepted.finite _ (Topsis.get_mem_toList w.signed i)
  rw [get_signed] at hfinite ⊢
  exact amount_abs hfinite

/-- A weight may be negative zero, whose size is an amount; less is better by it all the same. -/
theorem Accepted.lessening (accepted : w.Accepted) :
    (Topsis.Criteria.scaled w.signed).Lessening where
  below i := (Topsis.Criteria.scaled_spec accepted.amount_signed accepted.weighty i).1
  minimized i := by
    have hmaximize : ((Topsis.Criteria.scaled w.signed).toVector.get i).maximize =
        (w.signed.get i).maximize := by
      simp [Topsis.Criteria.scaled, Vector.get_eq_getElem]
    have hnonneg := accepted.nonneg _ (Topsis.get_mem_toList w.named i)
    rw [hmaximize, get_signed]
    simpa [Topsis.Criterion.ofSigned, zero_lt_neg_iff] using hnonneg

theorem value_abs_neg_of_beq {x : Float} (h : (x == 0.0) = true) : value (-x).abs = 0 := by
  change (x.toModel.unpack.compare (.zero .positive) == some .eq) = true at h
  rw [value, unpack_abs, unpack_neg]
  cases hx : x.toModel.unpack with
  | zero s => rfl
  | finite s m e hm =>
    rw [hx] at h
    cases s <;> cases h
  | infinity s => rfl
  | notANumber => rfl

/-- What has no weight to begin with has no share of it. -/
theorem Accepted.value_scaled_of_beq (accepted : w.Accepted) {i : Fin 4}
    (h : ((w.named.get i).2 == 0.0) = true) :
    value ((Topsis.Criteria.scaled w.signed).toVector.get i).weight = 0 := by
  rw [(Topsis.Criteria.scaled_spec accepted.amount_signed accepted.weighty i).2, get_signed]
  change rounded (value (-(w.named.get i).2).abs / _) = 0
  rw [value_abs_neg_of_beq h, zero_div, rounded_of_representable representable_zero]

end Weights

namespace Engine
variable {w : Weights} {e : Engine}

theorem ofWeights_eq_ok_iff : ofWeights w = .ok e ↔ w.Accepted ∧ e = ⟨w, .scaled w.signed⟩ := by
  unfold ofWeights
  cases hc : w.criteria with
  | error x =>
    constructor
    · intro h
      cases h
    · rintro ⟨accepted, -⟩
      rw [Weights.criteria_eq_ok_iff.mpr ⟨accepted, rfl⟩] at hc
      cases hc
  | ok c =>
    obtain ⟨accepted, rfl⟩ := Weights.criteria_eq_ok_iff.mp hc
    simp [bind, Except.bind, pure, Except.pure, accepted, eq_comm]

theorem aboutCriteria_of_ofWeights {x : Refusal} (h : ofWeights w = .error x) :
    x.aboutCriteria = true := by
  unfold ofWeights at h
  cases hc : w.criteria with
  | error y =>
    rw [hc] at h
    injection h with h
    rw [← h]
    exact Weights.aboutCriteria_of_criteria hc
  | ok c =>
    rw [hc] at h
    cases h

theorem lessening_ofWeights (h : ofWeights w = .ok e) : e.criteria.Lessening := by
  obtain ⟨accepted, rfl⟩ := ofWeights_eq_ok_iff.mp h
  exact accepted.lessening

theorem lessening_standard : standard.criteria.Lessening := lessening_ofWeights ofWeights_standard

end Engine

end Placement
