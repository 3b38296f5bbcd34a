import Placement.Proofs.Scoring.Choice
import Placement.Proofs.Scoring.Lighter
import Placement.Proofs.Scoring.Load

/-!
# Requests for nothing

A candidate that asks for nothing changes no fraction on whichever node it runs: what is in use is
an amount, and a zero of either sign added to an amount leaves it as it is. All alternatives then
have the same criteria values and score one, however far the nodes are in use, and the ranking is by
capacity and name alone.
-/
namespace Placement
open Double

/-- No processing units, with either sign, and no memory. -/
structure Footprint.AsksNothing (f : Footprint) : Prop where
  cpu : (f.cpu == 0.0) = true
  memory : f.memory = 0

theorem Footprint.AsksNothing.value_cpu {f : Footprint} (nothing : f.AsksNothing) :
    value f.cpu = 0 :=
  ((beq_iff_value f.admissible.finite amount_zero.finite).mp nothing.cpu).trans value_zero

/-- A node comes before another one by its memory, then its processing units, then its name. -/
def NodeScore.Roomier (x y : NodeScore) : Prop :=
  y.capacity.memory < x.capacity.memory ∨
    x.capacity.memory = y.capacity.memory ∧
      (y.capacity.cpu < x.capacity.cpu ∨
        x.capacity.cpu = y.capacity.cpu ∧ Text.bytes x.node < Text.bytes y.node)

theorem NodeScore.roomier_of_prefer {x y : NodeScore} (score : x.score = y.score)
    (h : prefer x y = .lt) : x.Roomier y := by
  rw [prefer_of_score_eq score] at h
  rcases Ordering.then_eq_lt.mp h with hmemory | ⟨hmemory, h⟩
  · exact .inl (Std.compare_eq_lt.mp hmemory)
  refine .inr ⟨(Std.LawfulEqCmp.eq_of_compare hmemory).symm, ?_⟩
  rcases Ordering.then_eq_lt.mp h with hcpu | ⟨hcpu, hname⟩
  · exact .inl (Std.compare_eq_lt.mp hcpu)
  · exact .inr ⟨(Std.LawfulEqCmp.eq_of_compare hcpu).symm,
      Text.bytes_lt (compareOfLessAndEq_eq_lt.mp hname)⟩

section
variable {f : Footprint} (nothing : f.AsksNothing)
include nothing

theorem Engine.ofLoads_projected_of_asksNothing (registry : Registry) (ledger : Ledger)
    (name : String) :
    Breakdown.ofLoads (projected registry ledger f name) =
      Breakdown.ofLoads (registry.toList.map (load ledger)) := by
  have hcpu : (projected registry ledger f name).map Load.cpuFraction =
      registry.toList.map fun n => (load ledger n).cpuFraction := by
    apply map_projected_of_host
    intro n hn
    exact Load.cpuFraction_host (regular_load hn ledger) nothing.value_cpu
  have hmemory : (projected registry ledger f name).map Load.memoryFraction =
      registry.toList.map fun n => (load ledger n).memoryFraction := by
    apply map_projected_of_host
    intro n _
    exact Load.memoryFraction_host (load ledger n) nothing.memory
  unfold Breakdown.ofLoads
  rw [hcpu, hmemory, List.map_map, List.map_map]
  rfl

namespace Scheduler

variable {s : Scheduler}

theorem breakdown_of_asksNothing {x : NodeScore} (hx : x ∈ s.reports f) :
    x.breakdown = Breakdown.ofLoads (s.registry.toList.map (Engine.load s.ledger)) := by
  obtain ⟨n, -, -, -, hbreakdown⟩ := Engine.mem_evaluate hx
  rw [hbreakdown, Engine.ofLoads_projected_of_asksNothing nothing]

theorem score_of_asksNothing (reachable : Reachable s) {x : NodeScore} (hx : x ∈ s.reports f) :
    x.score = 1.0 := by
  apply score_of_least reachable.lessening hx
  intro y hy i
  rw [breakdown_of_asksNothing nothing hx, breakdown_of_asksNothing nothing hy]

theorem pairwise_roomier (reachable : Reachable s) :
    (s.rankNodes f).Pairwise NodeScore.Roomier := by
  apply (pairwise_rankNodes s f).imp_of_mem
  intro x y hx hy h
  apply NodeScore.roomier_of_prefer _ h
  rw [score_of_asksNothing nothing reachable (mem_rankNodes.mp hx),
    score_of_asksNothing nothing reachable (mem_rankNodes.mp hy)]

end Scheduler

end

namespace Scheduler

/-- For a request for nothing every registered node, and no other one, scores one, and the ranking
lists them by memory, most first, then by processing units, most first, then by name. -/
theorem empty_request_ranks_by_capacity {s : Scheduler} (reachable : Reachable s) {f : Footprint}
    (nothing : f.AsksNothing) :
    s.scoreNodes f = s.nodeNames.map (fun name => (name, 1.0)) ∧
      (∀ name c, (∃ x ∈ s.rankNodes f, x.node = name ∧ x.capacity = c) ↔
        s.capacity? name = some c) ∧
      (∀ x ∈ s.rankNodes f, x.score = 1.0) ∧
      (s.rankNodes f).Pairwise NodeScore.Roomier := by
  refine ⟨?_, fun _ _ => exists_rank_iff, fun x hx => ?_, pairwise_roomier nothing reachable⟩
  · rw [nodeNames, ← Engine.map_node_evaluate s.engine s.registry s.ledger f, List.map_map]
    apply List.map_congr_left
    intro x hx
    exact congrArg (x.node, ·) (score_of_asksNothing nothing reachable hx)
  · exact score_of_asksNothing nothing reachable (mem_rankNodes.mp hx)

/-- A zero with the sign of negative numbers is a request, too. -/
def nothingAtAll : Footprint :=
  ⟨-0.0, 0, by decide +kernel, by decide +kernel, by decide +kernel⟩

/-- Four nodes, of which the largest is full many times over. -/
def heaped : Scheduler :=
  empty.run [.addNode ⟨"d", ⟨2, 0x80⟩⟩, .addNode ⟨"c", ⟨4, 0x80⟩⟩, .addNode ⟨"b", ⟨4, 0x80⟩⟩,
    .addNode ⟨"a", ⟨1, 0x100⟩⟩, .addUsage ⟨"x", "a", .whole 9 0xFFFFFFFFFFFFFFFF⟩,
    .addUsage ⟨"y", "c", .whole 1 0x70⟩]

/-- The largest node comes first, although it is full, and the name decides between the two that
follow. -/
theorem empty_request_ranks_heaped :
    heaped.Reachable ∧ heaped.scoreNodes nothingAtAll =
        [("a", 1.0), ("b", 1.0), ("c", 1.0), ("d", 1.0)] ∧
      (heaped.rankNodes nothingAtAll).Pairwise NodeScore.Roomier ∧
      heaped.bestNode? nothingAtAll = some "a" := by
  have reachable : heaped.Reachable := (Reachable.initial .empty).run _
  have nothing : nothingAtAll.AsksNothing := ⟨by decide +kernel, rfl⟩
  have first : ∃ x ∈ heaped.rankNodes nothingAtAll, x.node = "a" ∧
      ∀ y ∈ heaped.rankNodes nothingAtAll, y.node ≠ "a" → NodeScore.prefer x y = .lt := by
    simp only [mem_rankNodes]
    decide +kernel
  obtain ⟨scores, -, -, order⟩ := empty_request_ranks_by_capacity reachable nothing
  exact ⟨reachable, scores, order, bestNode?_eq_some.mpr first⟩

end Scheduler

end Placement
