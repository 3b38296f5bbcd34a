import Placement.Proofs.Reachability
import Placement.Proofs.Scoring.Magnitude
import Placement.Proofs.Scoring.Weights

/-!
# What more load does to scores

One would like a node that is given more to do never to gain on another. It may: a score compares
alternatives in all criteria at once, and load in one resource makes what a node lacks there matter
less. It does not where there is nothing to trade: a node that no other one is ahead of in any
criterion scores one, and one that is ahead of no other scores zero, unless all are alike.
-/
namespace Placement.Breakdown

/-- No worse in any of the criteria. -/
def NoWorse (a b : Breakdown) : Prop :=
  a.averageCpu ≤ b.averageCpu ∧ a.highestCpu ≤ b.highestCpu ∧
    a.averageMemory ≤ b.averageMemory ∧ a.highestMemory ≤ b.highestMemory

instance (a b : Breakdown) : Decidable (a.NoWorse b) := inferInstanceAs (Decidable (_ ∧ _))

theorem NoWorse.value_le {a b : Breakdown} (h : a.NoWorse b)
    (ha : ∀ i : Fin 4, (a.toVector.get i).isFinite = true)
    (hb : ∀ i : Fin 4, (b.toVector.get i).isFinite = true) (i : Fin 4) :
    Double.value (a.toVector.get i) ≤ Double.value (b.toVector.get i) := by
  obtain ⟨averageCpu, highestCpu, averageMemory, highestMemory⟩ := h
  rw [← Double.le_iff_value (ha i) (hb i)]
  match i with
  | 0 => exact averageCpu
  | 1 => exact highestCpu
  | 2 => exact averageMemory
  | 3 => exact highestMemory

end Placement.Breakdown

namespace Placement.Scheduler
open Double

/-- The score of a node for one more footprint. -/
def score? (s : Scheduler) (f : Footprint) (name : String) : Option Float :=
  ((s.scoreNodes f).find? (·.1 == name)).map (·.2)

/-- From the scores `x` and `y` to `x'` and `y'` the lead of the first one has not grown, and it has
not come ahead. -/
def Unhelped (x y x' y' : Float) : Prop := x' - y' ≤ x - y ∧ (x ≤ y → ¬ y' < x')

/-- What one would like: a further service on a node never widens its lead over another one, and
never puts it ahead. -/
def LoadNeverHelps : Prop :=
  ∀ (s t : Scheduler) (r : Record) (f : Footprint) (other : String) (x y x' y' : Float),
    Reachable s → s.engine = .standard → s.usage? r.service = none → s.addUsage r = .ok t →
    s.containsNode other = true → other ≠ r.node →
    s.score? f r.node = some x → s.score? f other = some y →
    t.score? f r.node = some x' → t.score? f other = some y' → Unhelped x y x' y'

/-- Two nodes with as much memory, of which the first lacks processing units and the second has a
part of its memory in use. -/
def uneven : Scheduler :=
  empty.run [.addNode ⟨"a", ⟨1, 0x100000000⟩⟩, .addNode ⟨"b", ⟨8, 0x100000000⟩⟩,
    .addUsage ⟨"x", "b", .whole 0 0x40000000⟩]

/-- Seven processing units more in use put the first of two uneven nodes ahead: its score goes from
0.47 to 0.68. -/
theorem load_may_help : ¬ LoadNeverHelps := by
  intro never
  have reachable : Reachable uneven := (Reachable.initial .empty).run _
  have added : uneven.addUsage ⟨"y", "a", .whole 7 0⟩ =
      .ok (uneven.step (.addUsage ⟨"y", "a", .whole 7 0⟩)) := rfl
  have a : uneven.score? (.whole 4 0x40000000) "a" = some (.ofBits 0x3FDE22ED94EB1B93) := by
    decide +kernel
  have b : uneven.score? (.whole 4 0x40000000) "b" = some (.ofBits 0x3FE0EE89358A7237) := by
    decide +kernel
  have a' : (uneven.step (.addUsage ⟨"y", "a", .whole 7 0⟩)).score? (.whole 4 0x40000000) "a" =
      some (.ofBits 0x3FE5C83FDA08BFD1) := by decide +kernel
  have b' : (uneven.step (.addUsage ⟨"y", "a", .whole 7 0⟩)).score? (.whole 4 0x40000000) "b" =
      some (.ofBits 0x3FD46F804BEE805D) := by decide +kernel
  have law := never uneven _ _ _ "b" _ _ _ _ reachable rfl (by decide +kernel) added
    (by decide +kernel) (by decide +kernel) a b a' b'
  exact law.2 (by decide +kernel) (by decide +kernel)

/-- What evaluation reports for one more footprint. -/
def reports (s : Scheduler) (f : Footprint) : List NodeScore :=
  s.engine.evaluate s.registry s.ledger f

theorem exists_report {s : Scheduler} {name : String} (h : s.containsNode name = true)
    (f : Footprint) : ∃ x ∈ s.reports f, x.node = name ∧ s.score? f name = some x.score := by
  obtain ⟨x, hx, -⟩ := Engine.filter_evaluate s.engine s.ledger f h
  have hmem : x ∈ (s.reports f).filter (·.node == name) := by
    rw [reports, hx]
    exact List.mem_singleton_self x
  obtain ⟨hreport, hname⟩ := List.mem_filter.mp hmem
  have hfind : (s.reports f).find? (·.node == name) = some x := by
    rw [← List.head?_filter, reports, hx]
    rfl
  refine ⟨x, hreport, beq_iff_eq.mp hname, ?_⟩
  have hscores : s.scoreNodes f = (s.reports f).map fun x => (x.node, x.score) := rfl
  rw [score?, hscores, List.find?_map, Option.map_map]
  exact congrArg (Option.map NodeScore.score) hfind

/-- No node is ahead of that one in any criterion. -/
def Leads (s : Scheduler) (f : Footprint) (name : String) : Prop :=
  ∀ x ∈ s.reports f, x.node = name → ∀ y ∈ s.reports f, x.breakdown.NoWorse y.breakdown

/-- That node is ahead of no other one in any criterion. -/
def Trails (s : Scheduler) (f : Footprint) (name : String) : Prop :=
  ∀ x ∈ s.reports f, x.node = name → ∀ y ∈ s.reports f, y.breakdown.NoWorse x.breakdown

instance (s : Scheduler) (f : Footprint) (name : String) : Decidable (s.Leads f name) :=
  inferInstanceAs (Decidable (∀ _ ∈ _, _ → ∀ _ ∈ _, Breakdown.NoWorse _ _))

instance (s : Scheduler) (f : Footprint) (name : String) : Decidable (s.Trails f name) :=
  inferInstanceAs (Decidable (∀ _ ∈ _, _ → ∀ _ ∈ _, Breakdown.NoWorse _ _))

section
variable {s : Scheduler} {f : Footprint} {x y : NodeScore}

theorem finite_breakdown (hx : x ∈ s.reports f) (i : Fin 4) :
    (x.breakdown.toVector.get i).isFinite = true :=
  (Engine.moderate_rows s.registry s.ledger f _ (Engine.mem_rows hx) i).1.amount.finite

theorem value_le_of_noWorse (hx : x ∈ s.reports f) (hy : y ∈ s.reports f)
    (h : x.breakdown.NoWorse y.breakdown) (i : Fin 4) :
    value (x.breakdown.toVector.get i) ≤ value (y.breakdown.toVector.get i) :=
  h.value_le (finite_breakdown hx) (finite_breakdown hy) i

/-- A node that no other one is ahead of scores one. -/
theorem score_of_least (lessening : s.engine.criteria.Lessening) (hx : x ∈ s.reports f)
    (least : ∀ y ∈ s.reports f, ∀ i : Fin 4,
      value (x.breakdown.toVector.get i) ≤ value (y.breakdown.toVector.get i)) :
    x.score = 1.0 := by
  rw [Engine.score_of_mem_evaluate hx]
  refine Topsis.score_of_least (Engine.moderate_rows s.registry s.ledger f) lessening
    (Engine.mem_rows hx) fun row hrow => ?_
  rw [Engine.rows_eq_map s.engine] at hrow
  obtain ⟨y, hy, rfl⟩ := List.mem_map.mp hrow
  exact least y hy

end

section
variable {s : Scheduler} {f : Footprint} {x : NodeScore} (lessening : s.engine.criteria.Lessening)
  (hx : x ∈ s.reports f)
include lessening hx

theorem score_of_leads (h : s.Leads f x.node) : x.score = 1.0 :=
  score_of_least lessening hx fun y hy => value_le_of_noWorse hx hy (h x hx rfl y hy)

theorem score_of_trails (h : s.Trails f x.node) : x.score = 1.0 ∨ x.score = 0.0 := by
  have hmoderate := Engine.moderate_rows s.registry s.ledger f
  rw [Engine.score_of_mem_evaluate hx]
  refine (Topsis.score_of_greatest hmoderate lessening (Engine.mem_rows hx)
    fun row hrow i => ?_).imp_right fun hzero => ?_
  · rw [Engine.rows_eq_map s.engine] at hrow
    obtain ⟨y, hy, rfl⟩ := List.mem_map.mp hrow
    exact value_le_of_noWorse hy hx (h x hx rfl y hy) i
  · have hamount := (Topsis.score_spec hmoderate lessening (Engine.mem_rows hx)).1
    exact hamount.ext amount_zero (hzero.trans value_zero.symm)

end

section
variable {x y : Float} (hx : Below 0 x) (hy : Below 0 y)
include hx hy

theorem lead_le : x - y ≤ 1.0 - 0.0 := by
  have hle := hx.le
  have hnonneg := hy.amount.nonneg
  apply hx.sub_le_sub hy below_one (below_zero 0) (by norm_num)
  rw [value_one, value_zero]
  linarith

theorem le_lead : 0.0 - 1.0 ≤ x - y := by
  have hle := hy.le
  have hnonneg := hx.amount.nonneg
  apply (below_zero 0).sub_le_sub below_one hx hy (by norm_num)
  rw [value_one, value_zero]
  linarith

theorem not_lt_iff_le : ¬ y < x ↔ x ≤ y := by
  rw [lt_iff_value hy.amount.finite hx.amount.finite, not_lt,
    le_iff_value hx.amount.finite hy.amount.finite]

theorem unhelped_to_first {z : Float} (h : z = 1.0 ∨ z = 0.0) :
    Unhelped x y z 1.0 ↔ z ≠ 1.0 ∨ y ≤ x := by
  rcases h with rfl | rfl
  · have hnot : ¬ (1.0 : Float) < 1.0 := by decide +kernel
    simp only [Unhelped, below_one.self_sub_le_iff hx hy (by norm_num), hnot, not_false_eq_true,
      implies_true, and_true, ne_eq, not_true_eq_false, false_or]
  · have hne : (0.0 : Float) ≠ 1.0 := by decide +kernel
    have hnot : ¬ (1.0 : Float) < 0.0 := by decide +kernel
    exact iff_of_true ⟨le_lead hx hy, fun _ => hnot⟩ (.inl hne)

theorem unhelped_from_first {z : Float} (h : z = 1.0 ∨ z = 0.0) :
    Unhelped 1.0 z x y ↔ 1.0 ≠ z ∨ x ≤ y := by
  rcases h with rfl | rfl
  · have hle : (1.0 : Float) ≤ 1.0 := by decide +kernel
    simp only [Unhelped, below_one.sub_le_self_iff hx hy (by norm_num), hle, true_imp_iff,
      not_lt_iff_le hx hy, and_self, ne_eq, not_true_eq_false, false_or]
  · have hne : (1.0 : Float) ≠ 0.0 := by decide +kernel
    have hnot : ¬ (1.0 : Float) ≤ 0.0 := by decide +kernel
    exact iff_of_true ⟨lead_le hx hy, fun hle => absurd hle hnot⟩ (.inl hne)

end

end Placement.Scheduler
