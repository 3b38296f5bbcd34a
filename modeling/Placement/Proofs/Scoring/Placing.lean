import Placement.Double.Whole
import Placement.Proofs.Operation
import Placement.Proofs.Scoring.Evaluation

/-!
# Projecting a placement and carrying it out

Evaluation adds the candidate to the usage of a node after everything else; once the service is
recorded, its footprint is added where its name comes in the order of names. For memory the place
makes no difference. For processing units it does, because sums of doubles depend on their order, so
the two agree when the service comes after all others of its node. A service that has a record
already would move, which no projection looks at.
-/
namespace Placement

namespace Ledger

variable {l : Ledger} {r : Record}

theorem usageOf_insert_other (fresh : l.get? r.service = none) {node : String}
    (h : node ≠ r.node) : (⟨l.records.insert r⟩ : Ledger).usageOf node = l.usageOf node := by
  rw [usageOf_insert_of_ne h]
  apply usageOf_remove_other
  intro q hq
  rw [fresh] at hq
  cases hq

theorem memory_usageOf_insert (fresh : l.get? r.service = none) :
    ((⟨l.records.insert r⟩ : Ledger).usageOf r.node).memory =
      ((l.usageOf r.node).add r.footprint).memory := by
  obtain ⟨before, after, hl, hi, -⟩ := toList_of_fresh fresh
  unfold usageOf hostedOn
  rw [hl, hi, ← Usage.total_append_singleton]
  apply Usage.memory_total_perm
  simp only [List.filter_append, List.filter_cons, beq_self_eq_true, if_true, List.map_append,
    List.map_cons]
  exact List.perm_middle.trans (List.perm_append_singleton _ _).symm

/-- A service that comes after all others of its node is added to their usage last. -/
theorem usageOf_insert_last (fresh : l.get? r.service = none)
    (last : ∀ q ∈ l.toList, q.node = r.node → q.service < r.service) :
    (⟨l.records.insert r⟩ : Ledger).usageOf r.node = (l.usageOf r.node).add r.footprint := by
  obtain ⟨before, after, hl, hi, hafter⟩ := toList_of_fresh fresh
  have hnone : after.filter (·.node == r.node) = [] := by
    refine List.filter_eq_nil_iff.mpr fun q hq hn => ?_
    have hlt := last q (by rw [hl]; exact List.mem_append_right before hq) (beq_iff_eq.mp hn)
    exact String.lt_irrefl _ (String.lt_trans hlt (hafter q hq))
  unfold usageOf hostedOn
  rw [hl, hi, ← Usage.total_append_singleton]
  simp only [List.filter_append, List.filter_cons, beq_self_eq_true, if_true, hnone,
    List.append_nil, List.map_append, List.map_cons, List.map_nil]

end Ledger

section
variable {l : Ledger} {r : Record} (registry : Registry)

theorem map_memoryFraction_projected (fresh : l.get? r.service = none) :
    (Engine.projected registry l r.footprint r.node).map Load.memoryFraction =
      (registry.toList.map (Engine.load ⟨l.records.insert r⟩)).map Load.memoryFraction := by
  unfold Engine.projected
  rw [List.map_map, List.map_map]
  refine List.map_congr_left fun n _ => ?_
  by_cases hn : n.name = r.node
  · have hm := Ledger.memory_usageOf_insert fresh
    simp only [Function.comp_apply, if_true, Load.memoryFraction, Load.host, Engine.load, hn, hm]
  · have hu := Ledger.usageOf_insert_other fresh hn
    simp only [Function.comp_apply, if_neg hn, Load.memoryFraction, Engine.load, hu]

theorem map_cpuFraction_projected (fresh : l.get? r.service = none)
    (last : ∀ q ∈ l.toList, q.node = r.node → q.service < r.service) :
    (Engine.projected registry l r.footprint r.node).map Load.cpuFraction =
      (registry.toList.map (Engine.load ⟨l.records.insert r⟩)).map Load.cpuFraction := by
  unfold Engine.projected
  rw [List.map_map, List.map_map]
  refine List.map_congr_left fun n _ => ?_
  by_cases hn : n.name = r.node
  · have hu := Ledger.usageOf_insert_last fresh last
    simp only [Function.comp_apply, if_true, Load.cpuFraction, Load.host, Engine.load, hn, hu]
  · have hu := Ledger.usageOf_insert_other fresh hn
    simp only [Function.comp_apply, if_neg hn, Load.cpuFraction, Engine.load, hu]

end

namespace Scheduler

/-- The loads of the nodes as the questions of a scheduler tell them, in the order of names. -/
def observedLoads (s : Scheduler) : List Load :=
  s.nodeNames.filterMap fun name =>
    match s.capacity? name, s.usageOfNode? name with
    | some capacity, some usage => some ⟨capacity, usage⟩
    | _, _ => none

theorem observedLoads_eq_map (s : Scheduler) :
    s.observedLoads = s.registry.toList.map (Engine.load s.ledger) := by
  have hnames : s.nodeNames = s.registry.toList.map Node.name := rfl
  unfold observedLoads
  rw [hnames, List.filterMap_map, ← List.filterMap_eq_map]
  refine List.filterMap_congr fun n hn => ?_
  have hget : s.registry.nodes.get? n.name = some n := Catalog.mem_iff_get?.mp hn
  have hcap : s.capacity? n.name = some n.capacity := by
    rw [capacity?, Registry.capacity?, hget]
    rfl
  have husage : s.usageOfNode? n.name = some (s.ledger.usageOf n.name) :=
    if_pos (Catalog.contains_iff.mpr ⟨n, hget⟩)
  simp only [Function.comp_apply, hcap, husage]
  rfl

/-- What evaluation reports for a node is what the domain shows once the service runs there: always
for memory, and for processing units when the service comes last on its node. -/
theorem projection_agrees (s : Scheduler) (r : Record)
    (registered : s.containsNode r.node = true) (fresh : s.usage? r.service = none) :
    ∃ t, s.addUsage r = .ok t ∧
      ∃ x, (s.engine.evaluate s.registry s.ledger r.footprint).filter (·.node == r.node) = [x] ∧
        x.breakdown.averageMemory =
          1.0 + Breakdown.quadraticMean (t.observedLoads.map Load.memoryFraction) ∧
        x.breakdown.highestMemory =
          1.0 + Breakdown.peak (t.observedLoads.map Load.memoryFraction) ∧
        ((∀ q ∈ s.ledger.toList, q.node = r.node → q.service < r.service) →
          x.breakdown.averageCpu =
            1.0 + Breakdown.quadraticMean (t.observedLoads.map Load.cpuFraction) ∧
          x.breakdown.highestCpu =
            1.0 + Breakdown.peak (t.observedLoads.map Load.cpuFraction)) := by
  have hadd : s.addUsage r = .ok { s with ledger := ⟨s.ledger.records.insert r⟩ } := by
    have hl : s.ledger.add s.registry r = .ok ⟨s.ledger.records.insert r⟩ :=
      Ledger.add_eq_ok_iff.mpr ⟨registered, rfl⟩
    rw [addUsage, hl]
    rfl
  obtain ⟨x, hx, hb⟩ := Engine.filter_evaluate s.engine s.ledger r.footprint registered
  refine ⟨_, hadd, x, hx, ?_⟩
  rw [hb, observedLoads_eq_map]
  have hmemory := map_memoryFraction_projected s.registry fresh
  refine ⟨congrArg (1.0 + Breakdown.quadraticMean ·) hmemory,
    congrArg (1.0 + Breakdown.peak ·) hmemory, fun last => ?_⟩
  have hcpu := map_cpuFraction_projected s.registry fresh last
  exact ⟨congrArg (1.0 + Breakdown.quadraticMean ·) hcpu,
    congrArg (1.0 + Breakdown.peak ·) hcpu⟩

/-- Two nodes, of which the first has less memory than its services asked for. -/
def stuffed : Scheduler :=
  empty.run [.addNode ⟨"n", ⟨1, 0x4000000000000000⟩⟩, .addNode ⟨"m", ⟨2, 1⟩⟩,
    .addUsage ⟨"a", "n", .whole 1 2⟩, .addUsage ⟨"aa", "n", .whole 2 0xFFFFFFFFFFFFFFFF⟩,
    .addUsage ⟨"d", "m", .whole 2 28⟩]

/-- A service that comes last on its node but not last of all. In use are then 7 and 1 times the
processing units of the two nodes, and 4 and 28 times their memory. -/
theorem projection_agrees_last :
    ∃ t, stuffed.addUsage ⟨"b", "n", .whole 4 4⟩ = .ok t ∧
      t.observedLoads.map Load.cpuFraction = [1.0, 7.0] ∧
      t.observedLoads.map Load.memoryFraction = [28.0, 4.0] ∧
      ∃ x, (stuffed.engine.evaluate stuffed.registry stuffed.ledger (.whole 4 4)).filter
          (·.node == "n") = [x] ∧
        x.breakdown.averageCpu = 6.0 ∧ x.breakdown.highestCpu = 8.0 ∧
        x.breakdown.averageMemory = 21.0 ∧ x.breakdown.highestMemory = 29.0 := by
  obtain ⟨t, ht, x, hx, haverage, hhighest, last⟩ := projection_agrees stuffed
    ⟨"b", "n", .whole 4 4⟩ (by decide +kernel) (by decide +kernel)
  obtain ⟨haverage', hhighest'⟩ := last (by decide +kernel)
  obtain rfl : stuffed.step (.addUsage ⟨"b", "n", .whole 4 4⟩) = t := by
    rw [step, perform, ht]
  have cpu : (stuffed.step (.addUsage ⟨"b", "n", .whole 4 4⟩)).observedLoads.map
      Load.cpuFraction = [1.0, 7.0] := by decide +kernel
  have memory : (stuffed.step (.addUsage ⟨"b", "n", .whole 4 4⟩)).observedLoads.map
      Load.memoryFraction = [28.0, 4.0] := by decide +kernel
  rw [memory] at haverage hhighest
  rw [cpu] at haverage' hhighest'
  refine ⟨_, ht, cpu, memory, x, hx, haverage'.trans ?_, hhighest'.trans ?_, haverage.trans ?_,
    hhighest.trans ?_⟩ <;> decide +kernel

end Scheduler

end Placement
