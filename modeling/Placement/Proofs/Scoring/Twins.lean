import Mathlib
import Placement.Proofs.Scoring.Choice
import Placement.Proofs.Scoring.Dominance
import Placement.Proofs.Scoring.Lighter

/-!
# Nodes of equal capacity

One would like the less used one of two nodes of equal capacity never to score less, and two that
are used alike to score the same. Peaks are in order then. Quadratic means need not be, since the
sums of squares are rounded on the way, and normalization makes the last bit of a mean decide
everything where the alternatives differ in nothing else. Where it is settled how the sums compare,
scores are in order up to rounding, and twins that are used alike are told apart by name alone.
-/
namespace Placement
open Double

namespace Scheduler

/-- What one would like: of two nodes of equal capacity the one that is used no more scores no less.
Two that are used alike then score the same. -/
def TwinsAlike : Prop :=
  ∀ (s : Scheduler) (f : Footprint) (a b : String) (c : Capacity) (u v : Usage) (x y : Float),
    Reachable s → s.capacity? a = some c → s.capacity? b = some c →
    s.usageOfNode? a = some u → s.usageOfNode? b = some v → u.NoMore v →
    s.score? f a = some x → s.score? f b = some y → y ≤ x

/-- Three nodes of equal capacity with as much in use on each. -/
def triplets : Scheduler :=
  empty.run [.addNode ⟨"a", ⟨3, 0x40000000⟩⟩, .addNode ⟨"b", ⟨3, 0x40000000⟩⟩,
    .addNode ⟨"c", ⟨3, 0x40000000⟩⟩, .addUsage ⟨"x", "a", .whole 2 0⟩,
    .addUsage ⟨"y", "b", .whole 2 0⟩, .addUsage ⟨"z", "c", .whole 2 0⟩]

/-- The squares of two thirds, two thirds and seven thirds add up to more when the last one does not
come last, so the first of three equal nodes scores zero and the last one scores one. -/
theorem twins_may_differ : ¬ TwinsAlike := by
  intro alike
  have reachable : Reachable triplets := (Reachable.initial .empty).run _
  have usage : ∃ u v, triplets.usageOfNode? "a" = some u ∧ triplets.usageOfNode? "c" = some v ∧
      u.cpu ≤ v.cpu ∧ u.memory ≤ v.memory :=
    ⟨_, _, rfl, rfl, by decide +kernel, by decide +kernel⟩
  obtain ⟨u, v, hu, hv, hcpu, hmemory⟩ := usage
  have law := alike triplets (.whole 5 0) "a" "c" ⟨3, 0x40000000⟩ u v 0.0 1.0 reachable
    (by decide +kernel) (by decide +kernel) hu hv ⟨hcpu, hmemory⟩ (by decide +kernel)
    (by decide +kernel)
  exact absurd law (by decide +kernel)

end Scheduler

theorem NodeScore.prefer_of_alike {x y : NodeScore} (score : x.score = y.score)
    (capacity : x.capacity = y.capacity) : prefer x y = compare x.node y.node := by
  rw [prefer_of_score_eq score, capacity, Std.ReflOrd.compare_self, Std.ReflOrd.compare_self]
  rfl

namespace Scheduler

variable {s : Scheduler} {f : Footprint} {a b : String}

/-- What of the processing units of the nodes is in use with the candidate on the node of that
name. -/
def cpuFractions (s : Scheduler) (f : Footprint) (name : String) : List Float :=
  (Engine.projected s.registry s.ledger f name).map Load.cpuFraction

/-- What of the memory of the nodes is in use with the candidate on the node of that name. -/
def memoryFractions (s : Scheduler) (f : Footprint) (name : String) : List Float :=
  (Engine.projected s.registry s.ledger f name).map Load.memoryFraction

/-- What is not asked for is in use as it was, wherever the candidate runs. -/
theorem settled_memoryFractions (h : f.memory = 0) :
    Settled (s.memoryFractions f a) (s.memoryFractions f b) :=
  Engine.settled_of_host _ _ (fun n _ => Load.memoryFraction_host (Engine.load s.ledger n) h) _ _

/-- What is reported of a node together with what callers can ask about it. -/
theorem exists_report_of_load {name : String} {c : Capacity} {u : Usage}
    (capacity : s.capacity? name = some c) (usage : s.usageOfNode? name = some u) :
    ∃ x ∈ s.reports f, ∃ n ∈ s.registry.toList, n.name = name ∧
      Engine.load s.ledger n = ⟨c, u⟩ ∧ x.node = name ∧ x.capacity = c ∧
      s.score? f name = some x.score ∧
      x.breakdown = Breakdown.ofLoads (Engine.projected s.registry s.ledger f name) := by
  obtain ⟨n, hget, rfl⟩ := Option.map_eq_some_iff.mp capacity
  obtain ⟨hn, hkey⟩ := Catalog.get?_eq_some_iff.mp hget
  have hname : n.name = name := hkey
  subst hname
  have registered : s.containsNode n.name = true := Catalog.contains_iff.mpr ⟨n, hget⟩
  have husage : s.usageOfNode? n.name = some (s.ledger.usageOf n.name) := if_pos registered
  rw [husage] at usage
  cases usage
  obtain ⟨x, hx, hnode, hscore⟩ := exists_report registered f
  obtain ⟨m, hm, hm', hcapacity, hbreakdown⟩ := Engine.mem_evaluate hx
  obtain rfl : m = n := List.inj_on_of_nodup_map (Engine.nodup_names s.registry) hm hn
    (hm'.symm.trans hnode)
  exact ⟨x, hx, m, hm, rfl, rfl, hnode, hcapacity, hscore, hbreakdown⟩

section
variable (lessening : s.engine.criteria.Lessening) {x y : NodeScore} (hx : x ∈ s.reports f)
  (hy : y ∈ s.reports f)

theorem noWorse_self (hx : x ∈ s.reports f) : x.breakdown.NoWorse x.breakdown := by
  have hrefl : ∀ i : Fin 4, x.breakdown.toVector.get i ≤ x.breakdown.toVector.get i := fun i =>
    (le_iff_value (finite_breakdown hx i) (finite_breakdown hx i)).mpr le_rfl
  exact ⟨hrefl 0, hrefl 1, hrefl 2, hrefl 3⟩

include hx hy

theorem noWorse_of_alone (alone : ∀ name ∈ s.nodeNames, name = x.node ∨ name = y.node)
    (h : x.breakdown.NoWorse y.breakdown) : ∀ z ∈ s.reports f, x.breakdown.NoWorse z.breakdown := by
  intro z hz
  have hmem : z.node ∈ s.nodeNames := by
    rw [nodeNames, ← Engine.map_node_evaluate s.engine s.registry s.ledger f]
    exact List.mem_map_of_mem hz
  rcases alone z.node hmem with hfirst | hsecond
  · rw [Engine.eq_of_node_eq hz hx hfirst]
    exact noWorse_self hx
  · rw [Engine.eq_of_node_eq hz hy hsecond]
    exact h

include lessening

theorem score_le_add_of_noWorse (h : x.breakdown.NoWorse y.breakdown) :
    value y.score ≤ value x.score + 2 ^ (-51 : ℤ) := by
  rw [Engine.score_of_mem_evaluate hx, Engine.score_of_mem_evaluate hy]
  exact Topsis.score_le_of_le (Engine.moderate_rows s.registry s.ledger f) lessening
    (Engine.mem_rows hx) (Engine.mem_rows hy) (value_le_of_noWorse hx hy h)

theorem score_le_of_noWorse (h : x.breakdown.NoWorse y.breakdown)
    (atEnd : (∀ z ∈ s.reports f, x.breakdown.NoWorse z.breakdown) ∨
      ∀ z ∈ s.reports f, z.breakdown.NoWorse y.breakdown) : y.score ≤ x.score := by
  have hfinite := (Engine.below_score lessening hx).amount.finite
  have hfinite' := (Engine.below_score lessening hy).amount.finite
  rw [le_iff_value hfinite' hfinite, Engine.score_of_mem_evaluate hx,
    Engine.score_of_mem_evaluate hy]
  refine Topsis.score_le_of_end (Engine.moderate_rows s.registry s.ledger f) lessening
    (Engine.mem_rows hx) (Engine.mem_rows hy) (value_le_of_noWorse hx hy h) ?_
  rw [Engine.rows_eq_map s.engine]
  refine atEnd.imp (fun hall r hr => ?_) fun hall r hr => ?_
  · obtain ⟨z, hz, rfl⟩ := List.mem_map.mp hr
    exact value_le_of_noWorse hx hz (hall z hz)
  · obtain ⟨z, hz, rfl⟩ := List.mem_map.mp hr
    exact value_le_of_noWorse hz hy (hall z hz)

omit lessening in
theorem score_eq_of_noWorse (h : x.breakdown.NoWorse y.breakdown)
    (h' : y.breakdown.NoWorse x.breakdown) : x.score = y.score := by
  have moderate := Engine.moderate_rows s.registry s.ledger f
  have hrow : x.breakdown.toVector = y.breakdown.toVector := by
    refine Vector.ext fun i hi => ?_
    have hle := value_le_of_noWorse hx hy h ⟨i, hi⟩
    have hge := value_le_of_noWorse hy hx h' ⟨i, hi⟩
    have hget := (moderate _ (Engine.mem_rows hx) ⟨i, hi⟩).1.amount.ext
      (moderate _ (Engine.mem_rows hy) ⟨i, hi⟩).1.amount (le_antisymm hle hge)
    simpa [Vector.get_eq_getElem] using hget
  rw [Engine.score_of_mem_evaluate hx, Engine.score_of_mem_evaluate hy, hrow]

end

/-- The twin that is used no more has no greater peaks, and no greater means where it is settled how
sums of squares compare. If none of its criteria values is greater, it scores no less up to
rounding; and no less at all where it leads, where the other twin trails, and where there are no
other nodes. Where all is settled, twins that are used alike score the same, and the name decides
between them. -/
theorem lighter_twin_scores_no_less (reachable : Reachable s) (f : Footprint) {c : Capacity}
    {u v : Usage} (ha : s.capacity? a = some c) (hb : s.capacity? b = some c)
    (hu : s.usageOfNode? a = some u) (hv : s.usageOfNode? b = some v) (lighter : u.NoMore v) :
    ∃ x ∈ s.reports f, ∃ y ∈ s.reports f, x.node = a ∧ y.node = b ∧
      s.score? f a = some x.score ∧ s.score? f b = some y.score ∧
      x.breakdown.highestCpu ≤ y.breakdown.highestCpu ∧
      x.breakdown.highestMemory ≤ y.breakdown.highestMemory ∧
      (Settled (s.cpuFractions f a) (s.cpuFractions f b) →
        x.breakdown.averageCpu ≤ y.breakdown.averageCpu) ∧
      (Settled (s.memoryFractions f a) (s.memoryFractions f b) →
        x.breakdown.averageMemory ≤ y.breakdown.averageMemory) ∧
      (x.breakdown.NoWorse y.breakdown → value y.score ≤ value x.score + 2 ^ (-51 : ℤ) ∧
        (s.Leads f a ∨ s.Trails f b ∨ (∀ name ∈ s.nodeNames, name = a ∨ name = b) →
          y.score ≤ x.score)) ∧
      (u.cpu = v.cpu → u.memory = v.memory → Settled (s.cpuFractions f a) (s.cpuFractions f b) →
        Settled (s.memoryFractions f a) (s.memoryFractions f b) →
        x.score = y.score ∧ NodeScore.prefer x y = compare a b) := by
  obtain ⟨x, hx, m, hm, rfl, hload, hnode, hcapacity, hscore, hbreakdown⟩ :=
    exists_report_of_load (f := f) ha hu
  obtain ⟨y, hy, n, hn, rfl, hload', hnode', hcapacity', hscore', hbreakdown'⟩ :=
    exists_report_of_load (f := f) hb hv
  have hmn : (Engine.load s.ledger m).NoMore (Engine.load s.ledger n) := by
    rw [hload, hload']
    exact ⟨rfl, lighter⟩
  refine ⟨x, hx, y, hy, hnode, hnode', hscore, hscore', ?_, ?_, fun cpu => ?_, fun memory => ?_,
    fun h => ⟨score_le_add_of_noWorse reachable.lessening hx hy h, fun hends => ?_⟩,
    fun hcpu hmemory cpu memory => ?_⟩
  · rw [hbreakdown, hbreakdown']
    exact Engine.peak_projected_le Load.gauge_cpuFraction hm hn hmn
  · rw [hbreakdown, hbreakdown']
    exact Engine.peak_projected_le Load.gauge_memoryFraction hm hn hmn
  · rw [hbreakdown, hbreakdown']
    exact Engine.quadraticMean_projected_le Load.gauge_cpuFraction hm cpu
  · rw [hbreakdown, hbreakdown']
    exact Engine.quadraticMean_projected_le Load.gauge_memoryFraction hm memory
  · refine score_le_of_noWorse reachable.lessening hx hy h ?_
    rcases hends with leads | trails | alone
    · exact .inl (leads x hx hnode)
    · exact .inr (trails y hy hnode')
    · exact .inl (noWorse_of_alone hx hy (by rwa [hnode, hnode']) h)
  · have hnm : (Engine.load s.ledger n).NoMore (Engine.load s.ledger m) := by
      rw [hload, hload']
      exact ⟨rfl, hcpu ▸ lighter.cpu, hmemory ▸ lighter.memory⟩
    have hsame : x.score = y.score := by
      refine score_eq_of_noWorse hx hy ?_ ?_
      · rw [hbreakdown, hbreakdown']
        exact Engine.noWorse_projected hm hn hmn cpu memory
      · rw [hbreakdown, hbreakdown']
        exact Engine.noWorse_projected hn hm hnm
          (cpu.symm_of_perm (Engine.fractions_perm Load.gauge_cpuFraction hm hn hmn hnm))
          (memory.symm_of_perm (Engine.fractions_perm Load.gauge_memoryFraction hm hn hmn hnm))
    have hprefer := NodeScore.prefer_of_alike hsame (hcapacity.trans hcapacity'.symm)
    rw [hnode, hnode'] at hprefer
    exact ⟨hsame, hprefer⟩

/-- Three nodes with one processing unit each, of which two host a service and the third one three.
-/
def overfull : Scheduler :=
  empty.run [.addNode ⟨"a", ⟨1, 0x40000000⟩⟩, .addNode ⟨"b", ⟨1, 0x40000000⟩⟩,
    .addNode ⟨"c", ⟨1, 0x40000000⟩⟩, .addUsage ⟨"x", "a", .whole 1 0⟩,
    .addUsage ⟨"y", "b", .whole 1 0x20000000⟩, .addUsage ⟨"z", "c", .whole 3 0⟩]

/-- Twins of which one uses more memory, with a candidate that asks for none. -/
theorem lighter_twin_scores_no_less_overfull :
    ∃ x ∈ overfull.reports (.whole 1 0), ∃ y ∈ overfull.reports (.whole 1 0),
      x.node = "a" ∧ y.node = "b" ∧ x.breakdown.averageCpu ≤ y.breakdown.averageCpu ∧
        y.score ≤ x.score := by
  have reachable : Reachable overfull := (Reachable.initial .empty).run _
  obtain ⟨u, v, hu, hv, hcpu, hmemory⟩ : ∃ u v, overfull.usageOfNode? "a" = some u ∧
      overfull.usageOfNode? "b" = some v ∧ u.cpu ≤ v.cpu ∧ u.memory ≤ v.memory :=
    ⟨_, _, rfl, rfl, by decide +kernel, by decide +kernel⟩
  obtain ⟨x, hx, y, hy, hnode, hnode', -, -, hpeak, hpeak', hmean, hmean', hscore, -⟩ :=
    lighter_twin_scores_no_less (a := "a") (b := "b") reachable (.whole 1 0)
      (c := ⟨1, 0x40000000⟩) (by decide +kernel) (by decide +kernel) hu hv ⟨hcpu, hmemory⟩
  have hfirst : overfull.cpuFractions (.whole 1 0) "a" = [2, 1, 3].map Float.ofNat := by
    decide +kernel
  have hsecond : overfull.cpuFractions (.whole 1 0) "b" = [1, 2, 3].map Float.ofNat := by
    decide +kernel
  have haverage := hmean <| by
    rw [hfirst, hsecond]
    exact .graded (graded_ofNat (by decide)) (graded_ofNat (by decide))
      (squares_perm ((List.Perm.swap 1 2 [3]).map _)).le
  have haverage' := hmean' (settled_memoryFractions rfl)
  have leads : overfull.Leads (.whole 1 0) "a" := by decide +kernel
  exact ⟨x, hx, y, hy, hnode, hnode', haverage,
    (hscore ⟨haverage, hpeak, haverage', hpeak'⟩).2 (.inl leads)⟩

end Scheduler

end Placement
