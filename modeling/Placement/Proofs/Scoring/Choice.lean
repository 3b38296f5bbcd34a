import Mathlib
import Placement.Proofs.Ranking
import Placement.Proofs.Scoring.Safety

/-!
# Three questions about one placement

Scoring, ranking and choosing look at the same evaluation: a score for each registered node, the
same scores in the order of preference, and the first node of that order. What a node was asked
before, and what it hosted once, leaves no further entries. No choice is promised to be the only
one of its score.
-/
namespace Placement

theorem Engine.eq_of_node_eq {e : Engine} {registry : Registry} {ledger : Ledger} {f : Footprint}
    {x y : NodeScore} (hx : x ∈ e.evaluate registry ledger f)
    (hy : y ∈ e.evaluate registry ledger f) (h : x.node = y.node) : x = y :=
  List.inj_on_of_nodup_map (nodup_evaluate e registry ledger f) hx hy h

namespace Scheduler

section
variable (s : Scheduler) (f : Footprint)

theorem map_fst_scoreNodes : (s.scoreNodes f).map Prod.fst = s.nodeNames := by
  rw [scoreNodes, Engine.scoreNodes, List.map_map]
  exact Engine.map_node_evaluate s.engine s.registry s.ledger f

theorem count_scoreNodes (name : String) :
    ((s.scoreNodes f).map Prod.fst).count name = if s.containsNode name then 1 else 0 := by
  have distinct : s.nodeNames.Nodup := Engine.nodup_names s.registry
  rw [map_fst_scoreNodes, distinct.count]
  exact if_congr Catalog.mem_keys rfl rfl

theorem rankNodes_perm :
    ((s.rankNodes f).map fun x => (x.node, x.score)).Perm (s.scoreNodes f) :=
  (NodeScore.rank_perm _).map _

theorem pairwise_rankNodes : (s.rankNodes f).Pairwise fun a b => NodeScore.prefer a b = .lt :=
  NodeScore.pairwise_lt_rank (Engine.nodup_evaluate s.engine s.registry s.ledger f)

/-- There is one order in which each evaluated node is preferred to all later ones. -/
theorem rankNodes_eq_of_perm {ranking : List NodeScore}
    (perm : ranking.Perm (s.engine.evaluate s.registry s.ledger f))
    (sorted : ranking.Pairwise fun a b => NodeScore.prefer a b = .lt) :
    s.rankNodes f = ranking := by
  refine List.Perm.eq_of_pairwise (fun a b _ _ hab hba => ?_) (pairwise_rankNodes s f) sorted
    ((NodeScore.rank_perm _).trans perm.symm)
  rw [NodeScore.prefer_swap, hab] at hba
  cases hba

theorem bestNode?_eq_none : s.bestNode? f = none ↔ s.nodeNames = [] := by
  rw [← map_fst_scoreNodes s f, List.map_eq_nil_iff, ← List.length_eq_zero_iff,
    ← (rankNodes_perm s f).length_eq, List.length_map, List.length_eq_zero_iff]
  simp [bestNode?]

end

section
variable {s : Scheduler} {f : Footprint}

theorem mem_rankNodes {x : NodeScore} :
    x ∈ s.rankNodes f ↔ x ∈ s.engine.evaluate s.registry s.ledger f :=
  (NodeScore.rank_perm _).mem_iff

theorem mem_scoreNodes {name : String} {score : Float} :
    (name, score) ∈ s.scoreNodes f ↔ ∃ x ∈ s.rankNodes f, x.node = name ∧ x.score = score := by
  simp [scoreNodes, Engine.scoreNodes, mem_rankNodes]

theorem exists_rank_iff {name : String} {c : Capacity} :
    (∃ x ∈ s.rankNodes f, x.node = name ∧ x.capacity = c) ↔ s.capacity? name = some c := by
  simp only [mem_rankNodes]
  exact s.engine.exists_entry_iff s.registry s.ledger f name c

theorem capacity?_of_mem_rankNodes {x : NodeScore} (hx : x ∈ s.rankNodes f) :
    s.capacity? x.node = some x.capacity :=
  exists_rank_iff.mp ⟨x, hx, rfl, rfl⟩

theorem bestNode?_eq_some {name : String} :
    s.bestNode? f = some name ↔
      ∃ x ∈ s.rankNodes f, x.node = name ∧
        ∀ y ∈ s.rankNodes f, y.node ≠ name → NodeScore.prefer x y = .lt := by
  unfold bestNode?
  rw [Option.map_eq_some_iff]
  refine exists_congr fun x => ?_
  rw [rankNodes,
    NodeScore.head?_rank (Engine.nodup_evaluate s.engine s.registry s.ledger f)]
  simp only [← mem_rankNodes]
  constructor
  · rintro ⟨⟨hx, hall⟩, rfl⟩
    exact ⟨hx, rfl, hall⟩
  · rintro ⟨hx, rfl, hall⟩
    exact ⟨⟨hx, hall⟩, rfl⟩

/-- No node scores more than the best one. -/
theorem le_score_of_best (h : Reachable s) {name : String} {score : Float}
    (best : s.bestNode? f = some name) (hscore : (name, score) ∈ s.scoreNodes f)
    {other : String × Float} (hother : other ∈ s.scoreNodes f) : other.2 ≤ score := by
  obtain ⟨x, hx, hname, hall⟩ := bestNode?_eq_some.mp best
  obtain ⟨z, hz, hzname, rfl⟩ := mem_scoreNodes.mp hscore
  obtain ⟨y, hy, -, hvalue⟩ := mem_scoreNodes.mp hother
  obtain rfl : z = x :=
    Engine.eq_of_node_eq (mem_rankNodes.mp hz) (mem_rankNodes.mp hx) (hzname.trans hname.symm)
  have hbelow := Engine.below_score h.lessening (mem_rankNodes.mp hx)
  rw [← hvalue]
  by_cases hsame : y.node = name
  · obtain rfl : y = z :=
      Engine.eq_of_node_eq (mem_rankNodes.mp hy) (mem_rankNodes.mp hx) (hsame.trans hname.symm)
    exact (Double.le_iff_value hbelow.amount.finite hbelow.amount.finite).mpr le_rfl
  · have hbelow' := Engine.below_score h.lessening (mem_rankNodes.mp hy)
    exact hbelow'.amount.le_of_compareTotal hbelow.amount
      (NodeScore.compareTotal_of_prefer (hall y hy hsame))

end

/-- Every registered node, and no other one, has one score; the ranking is those scores with the
capacities of their nodes, each strictly preferred to all later ones; and the best node, which is
missing only without nodes, is the one preferred to every other one, so that none scores more. -/
theorem placement_queries_agree {s : Scheduler} (h : Reachable s) (f : Footprint) :
    (∀ name, ((s.scoreNodes f).map Prod.fst).count name = if s.containsNode name then 1 else 0) ∧
      ((s.rankNodes f).map fun x => (x.node, x.score)).Perm (s.scoreNodes f) ∧
      (∀ x ∈ s.rankNodes f, s.capacity? x.node = some x.capacity) ∧
      ((s.rankNodes f).Pairwise fun a b => NodeScore.prefer a b = .lt) ∧
      (s.bestNode? f = none ↔ s.nodeNames = []) ∧
      (∀ name, s.bestNode? f = some name ↔
        ∃ x ∈ s.rankNodes f, x.node = name ∧
          ∀ y ∈ s.rankNodes f, y.node ≠ name → NodeScore.prefer x y = .lt) ∧
      ∀ name score, s.bestNode? f = some name → (name, score) ∈ s.scoreNodes f →
        ∀ other ∈ s.scoreNodes f, other.2 ≤ score :=
  ⟨count_scoreNodes s f, rankNodes_perm s f, fun _ => capacity?_of_mem_rankNodes,
    pairwise_rankNodes s f, bestNode?_eq_none s f, fun _ => bestNode?_eq_some,
    fun _ _ best hscore _ => le_score_of_best h best hscore⟩

/-- Two nodes that differ in memory alone, and a third one that is gone together with its service.
-/
def tied : Scheduler :=
  empty.run [.addNode ⟨"a", ⟨4, 0x80⟩⟩, .addNode ⟨"b", ⟨4, 0x100⟩⟩, .addNode ⟨"c", ⟨64, 0x1000⟩⟩,
    .addUsage ⟨"x", "c", .whole 1 1⟩, .removeNode "c"]

/-- Nothing is asked for, so both nodes score one and the one with more memory is chosen. -/
theorem placement_queries_agree_on_tie :
    tied.Reachable ∧ tied.scoreNodes (.whole 0 0) = [("a", 1.0), ("b", 1.0)] ∧
      tied.bestNode? (.whole 0 0) = some "b" ∧
      ((tied.scoreNodes (.whole 0 0)).map Prod.fst).count "c" = 0 ∧
      ∀ other ∈ tied.scoreNodes (.whole 0 0), other.2 ≤ 1.0 := by
  have reachable : tied.Reachable := (Reachable.initial .empty).run _
  have scores : tied.scoreNodes (.whole 0 0) = [("a", 1.0), ("b", 1.0)] := by decide +kernel
  have chosen : ∃ x ∈ tied.rankNodes (.whole 0 0), x.node = "b" ∧
      ∀ y ∈ tied.rankNodes (.whole 0 0), y.node ≠ "b" → NodeScore.prefer x y = .lt := by
    simp only [mem_rankNodes]
    decide +kernel
  obtain ⟨counts, -, -, -, -, best, greatest⟩ := placement_queries_agree reachable (.whole 0 0)
  refine ⟨reachable, scores, (best "b").mpr chosen, counts "c", ?_⟩
  apply greatest "b" 1.0 ((best "b").mpr chosen)
  simp [scores]

end Scheduler

end Placement
