import Mathlib
import Placement.Proofs.Double.Bits
import Placement.Proofs.Reachability
import Placement.Proofs.Scoring.Division

/-!
# Scoring stays within bounds

Whatever a scheduler has been through, and whichever weights it was given, evaluation reports finite
criteria values from one on and scores from zero to one, and divides by zero nowhere. The number of
nodes and of services is not bounded, nor is what a node is asked to host. How scores compare with
each other is not treated here.
-/
namespace Placement
open Double

/-- Criteria values and a score within their bounds. -/
structure NodeScore.Sound (x : NodeScore) : Prop where
  breakdown : ∀ v ∈ x.breakdown.toVector.toList, v.isFinite = true ∧ 1.0 ≤ v
  number : x.score.isNaN = false
  unsigned : x.score.toBits ≠ 0x8000000000000000
  nonneg : 0.0 ≤ x.score
  bounded : x.score ≤ 1.0

namespace Engine
variable {e : Engine} {registry : Registry} {ledger : Ledger} {f : Footprint} {x : NodeScore}

theorem one_le_breakdown (h : x ∈ e.evaluate registry ledger f) :
    ∀ v ∈ x.breakdown.toVector.toList, v.isFinite = true ∧ 1.0 ≤ v := by
  intro v hv
  obtain ⟨i, rfl⟩ := Topsis.exists_get_of_mem hv
  obtain ⟨hbelow, hone⟩ := moderate_rows registry ledger f _ (mem_rows h) i
  have hfinite := hbelow.amount.finite
  rw [← value_one, ← le_iff_value amount_one.finite hfinite] at hone
  exact ⟨hfinite, hone⟩

theorem sound_of_mem_evaluate (lessening : e.criteria.Lessening)
    (h : x ∈ e.evaluate registry ledger f) : x.Sound := by
  obtain ⟨hamount, hle⟩ := below_score lessening h
  have hnonneg := hamount.nonneg
  have hbits := hamount.toBits_lt
  rw [pow_zero, ← value_one, ← le_iff_value hamount.finite amount_one.finite] at hle
  rw [← value_zero, ← le_iff_value amount_zero.finite hamount.finite] at hnonneg
  refine ⟨one_le_breakdown h, isNaN_of_isFinite hamount.finite, fun hminus => ?_, hnonneg, hle⟩
  rw [hminus] at hbits
  exact absurd hbits (by decide)

end Engine

namespace Scheduler

theorem Reachable.lessening {s : Scheduler} (h : Reachable s) : s.engine.criteria.Lessening := by
  obtain ⟨w, hw⟩ := h.accepted
  exact Engine.lessening_ofWeights hw

/-- The weights of a scheduler are turned into shares, and its nodes are scored, without a division
by zero; and all that is reported of them is within bounds. -/
theorem scoring_is_safe {s : Scheduler} (h : Reachable s) (f : Footprint) :
    (∃ w, Engine.ofWeights w = .ok s.engine ∧ Engine.ofWeights? w = some s.engine) ∧
      s.engine.evaluate? s.registry s.ledger f = some (s.engine.evaluate s.registry s.ledger f) ∧
      ∀ x ∈ s.engine.evaluate s.registry s.ledger f, x.Sound := by
  refine ⟨?_, s.engine.evaluate?_eq s.registry s.ledger f, fun x hx => ?_⟩
  · obtain ⟨w, hw⟩ := h.accepted
    exact ⟨w, hw, Engine.ofWeights?_eq hw⟩
  · exact Engine.sound_of_mem_evaluate h.lessening hx

/-- Weights of which any two are too much for a double. -/
def immense : Weights := ⟨1.7e308, 1.7e308, 1.7e308, 1.7e308⟩

/-- Immense weights are accepted although their sum is infinite, and scoring by them is safe. -/
theorem scoring_is_safe_immense :
    ∃ s : Scheduler, ofWeights immense = .ok s ∧
      Topsis.Criteria.totalWeight immense.signed = 1.0 / 0.0 ∧
      ∃ t : Scheduler, t = s.run [.addNode ⟨"a", ⟨1, 1⟩⟩, .addNode ⟨"b", ⟨8, 4⟩⟩,
          .addUsage ⟨"x", "a", .whole 0xFFFFFFFF 0xFFFFFFFFFFFFFFFF⟩] ∧
        (t.scoreNodes (.whole 3 5)).length = 2 ∧
        ∀ x ∈ t.engine.evaluate t.registry t.ledger (.whole 3 5), x.Sound := by
  have accepted : immense.Accepted :=
    ⟨by decide +kernel, by decide +kernel, by decide +kernel⟩
  have engine := Engine.ofWeights_eq_ok_iff.mpr ⟨accepted, rfl⟩
  have origin : ofWeights immense = .ok (ofEngine ⟨immense, .scaled immense.signed⟩) := by
    rw [ofWeights, engine]
    rfl
  have reachable := (Reachable.initial (.ofWeights origin)).run [.addNode ⟨"a", ⟨1, 1⟩⟩,
    .addNode ⟨"b", ⟨8, 4⟩⟩, .addUsage ⟨"x", "a", .whole 0xFFFFFFFF 0xFFFFFFFFFFFFFFFF⟩]
  exact ⟨_, origin, by decide +kernel, _, rfl, by decide +kernel,
    (scoring_is_safe reachable (.whole 3 5)).2.2⟩

end Scheduler

end Placement
