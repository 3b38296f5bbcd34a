import Placement.Proofs.Simulation

/-!
# Whole simulations

A simulation never stops on an error, because the node that ranks first is always registered. It
plays every round it is asked for unless there is no node at all, ranks the same nodes in each of
them, and does not look ahead: a shorter simulation is the beginning of a longer one.
-/
namespace Placement

theorem Round.serviceName_eq (iteration : ℕ) :
    serviceName iteration = "sim:" ++ toString iteration := rfl

namespace Scheduler

variable {s : Scheduler} {f : Footprint}

theorem map_node_rankNodes_perm (s : Scheduler) (f : Footprint) :
    ((s.rankNodes f).map NodeScore.node).Perm s.nodeNames := by
  have hperm := (s.rankNodes_perm f).map Prod.fst
  rwa [map_fst_scoreNodes, List.map_map] at hperm

theorem rounds_of_no_nodes (nodes : s.nodeNames = []) (f : Footprint) (start count : ℕ) :
    s.rounds f start count = .ok [] := by
  have hranking : (s.rankNodes f).map NodeScore.node = [] :=
    (nodes ▸ s.map_node_rankNodes_perm f).eq_nil
  cases count with
  | zero => rfl
  | succ count => rw [rounds, hranking]

/-- A round ranks the nodes that were there before the first round. -/
theorem ranking_round_played (nodes : s.nodeNames ≠ []) (f : Footprint) (start i : ℕ) :
    ((s.played f start i).round f (start + i)).ranking.Perm s.nodeNames := by
  have hperm := (s.played f start i).map_node_rankNodes_perm f
  rwa [nodeNames, (registry_played nodes f start i).1] at hperm

/-- The rounds of a simulation are the same whenever it ends, and none without a node. -/
theorem exists_rounds (s : Scheduler) (f : Footprint) :
    ∃ round : ℕ → Round,
      (∀ i, (round i).iteration = i ∧ (round i).service = Round.serviceName i ∧
        (s.nodeNames ≠ [] → (round i).ranking.Perm s.nodeNames)) ∧
      ∀ count, s.rounds f 0 count =
        .ok (if s.nodeNames = [] then [] else (List.range count).map round) := by
  refine ⟨fun i => (s.played f 0 i).round f (0 + i), fun i => ⟨?_, ?_, fun nodes => ?_⟩,
    fun count => ?_⟩
  · exact Nat.zero_add i
  · exact congrArg Round.serviceName (Nat.zero_add i)
  · exact ranking_round_played nodes f 0 i
  · split_ifs with nodes
    · exact rounds_of_no_nodes nodes f 0 count
    · exact rounds_eq nodes f 0 count

end Scheduler

namespace Scenario

/-- A scenario that builds a scheduler can be simulated for any number of rounds. Without a node
there is no round; otherwise there are as many as asked for, numbered from zero, each with a service
named after its number and all nodes in some order. Fewer rounds are the first of more rounds. -/
theorem simulation_is_complete {scenario : Scenario} {s : Scheduler}
    (built : scenario.scheduler = .ok s) (count : ℕ) :
    ∃ rounds, scenario.simulate count = .ok rounds ∧
      (s.nodeNames = [] → rounds = []) ∧ (s.nodeNames ≠ [] → rounds.length = count) ∧
      (∀ i (h : i < rounds.length), rounds[i].iteration = i ∧
        rounds[i].service = "sim:" ++ toString i ∧ rounds[i].ranking.Perm s.nodeNames) ∧
      ∀ fewer ≤ count, scenario.simulate fewer = .ok (rounds.take fewer) := by
  obtain ⟨round, hround, hrounds⟩ := s.exists_rounds scenario.candidate
  have hsimulate (n : ℕ) : scenario.simulate n =
      .ok (if s.nodeNames = [] then [] else (List.range n).map round) := by
    rw [simulate, built]
    exact hrounds n
  refine ⟨_, hsimulate count, fun nodes => if_pos nodes, fun nodes => ?_, fun i h => ?_,
    fun fewer hfewer => ?_⟩
  · rw [if_neg nodes, List.length_map, List.length_range]
  · by_cases nodes : s.nodeNames = []
    · simp only [if_pos nodes] at h
      exact absurd h (Nat.not_lt_zero i)
    · obtain ⟨hiteration, hservice, hranking⟩ := hround i
      simp only [if_neg nodes, List.getElem_map, List.getElem_range]
      exact ⟨hiteration, hservice.trans (Round.serviceName_eq i), hranking nodes⟩
  · rw [hsimulate fewer]
    split_ifs with nodes
    · rw [List.take_nil]
    · rw [← List.map_take, List.take_range, min_eq_left hfewer]

/-- Two rounds of a scenario with two nodes; one of them hosts a service that is called like a
copy. -/
theorem simulation_is_complete_lopsided :
    ∃ rounds, (Scheduler.lopsidedScenario "sim:1").simulate 2 = .ok rounds ∧ rounds.length = 2 ∧
      (∀ r ∈ rounds, r.ranking.Perm ["a", "b"]) ∧
      (Scheduler.lopsidedScenario "sim:1").simulate 1 = .ok (rounds.take 1) := by
  obtain ⟨rounds, hrounds, -, hlength, hall, hfewer⟩ :=
    simulation_is_complete (Scheduler.scheduler_lopsidedScenario "sim:1") 2
  refine ⟨rounds, hrounds, hlength (by decide +kernel), fun r hr => ?_, hfewer 1 (by decide)⟩
  obtain ⟨i, hi, rfl⟩ := List.getElem_of_mem hr
  have hnames : (Scheduler.lopsided "sim:1").nodeNames = ["a", "b"] := by decide +kernel
  exact hnames ▸ (hall i hi).2.2

end Scenario

end Placement
