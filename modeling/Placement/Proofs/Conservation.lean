import Placement.Proofs.Accounts
import Placement.Proofs.History

/-!
# Conservation of services

Every service of a scheduler runs on one of its nodes, so the nodes together host as many services
as there are records. A node that is taken out takes its own services along and leaves the other
nodes as they are; one that is registered under its name again starts with nothing. A service that
moves is still one service: its former node has in use what it would have without the service. How
much is in use on the node that it moves to is not treated here.
-/
namespace Placement

namespace Scheduler

/-- A node has the same capacity and the same usage in both. -/
def Untouched (s t : Scheduler) (name : String) : Prop :=
  t.capacity? name = s.capacity? name ∧ t.usageOfNode? name = s.usageOfNode? name

section
variable {s t : Scheduler} {name other : String}

theorem usageOfNode?_of_contains (h : s.containsNode name = true) :
    s.usageOfNode? name = some (s.ledger.usageOf name) := if_pos h

theorem containsNode_of_capacity? (h : t.capacity? name = s.capacity? name) :
    t.containsNode name = s.containsNode name := by
  rw [Bool.eq_iff_iff, containsNode_iff, containsNode_iff, h]

theorem untouched_of_ledger (capacity : t.capacity? name = s.capacity? name)
    (usage : t.ledger.usageOf name = s.ledger.usageOf name) : s.Untouched t name := by
  have hcontains : t.registry.contains name = s.registry.contains name :=
    containsNode_of_capacity? capacity
  refine ⟨capacity, ?_⟩
  rw [usageOfNode?, usageOfNode?, hcontains, usage]

theorem mapM_usageOfNode? {names : List String}
    (h : ∀ name ∈ names, s.containsNode name = true) :
    names.mapM s.usageOfNode? = some (names.map s.ledger.usageOf) := by
  induction names with
  | nil => rfl
  | cons name names ih =>
    obtain ⟨hname, hnames⟩ := List.forall_mem_cons.mp h
    rw [List.mapM_cons, usageOfNode?_of_contains hname, ih hnames]
    rfl

theorem sum_services (hosted : s.Hosted) :
    ((s.nodeNames.map s.ledger.usageOf).map Usage.services).sum = s.serviceCount := by
  have hservices : Usage.services ∘ s.ledger.usageOf =
      fun node => (s.ledger.hostedOn node).length :=
    funext s.ledger.services_usageOf
  rw [List.map_map, hservices]
  apply Ledger.sum_length_hostedOn s.registry.nodes.nodup_keys
  intro r hr
  apply Catalog.mem_keys.mpr
  exact hosted r.service r (Ledger.mem_toList_iff.mp hr)

theorem removeNode_of_not_contains (h : s.containsNode name = false) : s.removeNode name = s :=
  (s.removeNode_eq name).trans (if_neg (Bool.eq_false_iff.mp h))

theorem ledger_removeNode (h : s.containsNode name = true) :
    (s.removeNode name).ledger = s.ledger.evict name :=
  congrArg ledger ((s.removeNode_eq name).trans (if_pos h))

theorem serviceCount_removeNode (h : s.containsNode name = true) :
    (s.removeNode name).serviceCount + (s.ledger.usageOf name).services = s.serviceCount := by
  rw [serviceCount, ledger_removeNode h, Ledger.services_usageOf]
  exact s.ledger.size_evict name

theorem untouched_removeNode (h : s.containsNode name = true) (hother : other ≠ name) :
    s.Untouched (s.removeNode name) other := by
  apply untouched_of_ledger
  · have hsettles : (Operation.removeNode name).settles other = false :=
      beq_eq_false_iff_ne.mpr hother.symm
    rw [← step_removeNode, capacity?_step, hsettles]
    rfl
  · rw [ledger_removeNode h, Ledger.usageOf_evict_other hother]

/-- A node that is registered again after its removal starts with nothing. -/
theorem usageOfNode?_addNode_removeNode (h : s.containsNode name = true) {c : Capacity}
    (positive : c.Positive) :
    ∃ t, (s.removeNode name).addNode ⟨name, c⟩ = .ok t ∧ t.usageOfNode? name = some .none := by
  have hadd := perform_of_succeeds ((succeeds_addNode (s := s.removeNode name)
    (n := ⟨name, c⟩)).mpr positive)
  refine ⟨_, hadd, ?_⟩
  have hcontains : ((s.removeNode name).step (.addNode ⟨name, c⟩)).containsNode name = true := by
    rw [containsNode_step]
    simp [Operation.settles, Operation.offer?, positive]
  rw [usageOfNode?_of_contains hcontains, (step_addNode positive).2, ledger_removeNode h,
    Ledger.usageOf, Ledger.hostedOn_evict_self]
  rfl

section
variable {q r : Record} (recorded : s.usage? r.service = some q)
include recorded

theorem serviceCount_insert :
    (⟨s.ledger.records.insert r⟩ : Ledger).size = s.serviceCount := by
  have hsize := s.ledger.size_insert r
  have hget : s.ledger.get? r.service = some q := recorded
  rw [hget] at hsize
  exact Nat.succ.inj hsize

theorem usageOf_insert_of_apart (hq : other ≠ q.node) (hr : other ≠ r.node) :
    (⟨s.ledger.records.insert r⟩ : Ledger).usageOf other = s.ledger.usageOf other := by
  rw [Ledger.usageOf_insert_of_ne hr]
  apply Ledger.usageOf_remove_other
  intro p hp
  cases hp.symm.trans recorded
  exact hq

/-- A service that moves is one service still. Nodes that it neither leaves nor enters are untouched,
and the one that it leaves is left as if the service were forgotten. -/
theorem addUsage_of_recorded (registered : s.containsNode r.node = true) :
    ∃ t, s.addUsage r = .ok t ∧ t.serviceCount = s.serviceCount ∧
      (∀ other, other ≠ q.node → other ≠ r.node → s.Untouched t other) ∧
      (q.node ≠ r.node → t.usageOfNode? q.node =
        (s.removeUsage r.service).usageOfNode? q.node) := by
  have hadd := perform_of_succeeds (succeeds_addUsage.mpr registered)
  rw [step_addUsage registered] at hadd
  refine ⟨_, hadd, serviceCount_insert recorded, fun other hq hr => ?_, fun hne => ?_⟩
  · exact untouched_of_ledger rfl (usageOf_insert_of_apart recorded hq hr)
  · rw [usageOfNode?, usageOfNode?, Ledger.usageOf_insert_of_ne hne]
    rfl

end

end

/-- The nodes together host as many services as there are. Taking a registered node out takes away
the services that it hosts, leaves all other nodes untouched and no trace on the node itself; taking
out another name changes nothing. Recording a service anew on a registered node keeps the number of
services and touches no third node, and the node that the service leaves is left as if the service
were forgotten. -/
theorem services_are_conserved {s : Scheduler} (reachable : Reachable s) :
    (∃ usages, s.nodeNames.mapM s.usageOfNode? = some usages ∧
      (usages.map Usage.services).sum = s.serviceCount) ∧
    (∀ name, s.containsNode name = true → ∃ u, s.usageOfNode? name = some u ∧
      (s.removeNode name).serviceCount + u.services = s.serviceCount ∧
      (∀ other, other ≠ name → s.Untouched (s.removeNode name) other) ∧
      ∀ c : Capacity, c.Positive →
        ∃ t, (s.removeNode name).addNode ⟨name, c⟩ = .ok t ∧
          t.usageOfNode? name = some .none) ∧
    (∀ name, s.containsNode name = false → s.removeNode name = s) ∧
    ∀ r q, s.usage? r.service = some q → s.containsNode r.node = true →
      ∃ t, s.addUsage r = .ok t ∧ t.serviceCount = s.serviceCount ∧
        (∀ other, other ≠ q.node → other ≠ r.node → s.Untouched t other) ∧
        (q.node ≠ r.node → t.usageOfNode? q.node =
          (s.removeUsage r.service).usageOfNode? q.node) := by
  refine ⟨⟨_, mapM_usageOfNode? fun name hname => Catalog.mem_keys.mp hname,
    sum_services reachable.hosted⟩, fun name h => ?_, fun name => removeNode_of_not_contains,
    fun r q => addUsage_of_recorded⟩
  exact ⟨_, usageOfNode?_of_contains h, serviceCount_removeNode h,
    fun other => untouched_removeNode h, fun c => usageOfNode?_addNode_removeNode h⟩

/-- Three nodes with two services on the first one, one that has moved to the second one, and none
on the third one. -/
def spread : Scheduler :=
  empty.run [.addNode ⟨"a", ⟨4, 64⟩⟩, .addNode ⟨"b", ⟨2, 32⟩⟩, .addNode ⟨"c", ⟨1, 16⟩⟩,
    .addUsage ⟨"x", "a", .whole 1 2⟩, .addUsage ⟨"y", "a", .whole 2 4⟩,
    .addUsage ⟨"z", "a", .whole 3 8⟩, .addUsage ⟨"z", "b", .whole 3 16⟩]

theorem services_are_conserved_spread :
    (∃ usages, spread.nodeNames.mapM spread.usageOfNode? = some usages ∧
      (usages.map Usage.services).sum = 3) ∧
    (spread.removeNode "a").serviceCount = 1 ∧
    spread.Untouched (spread.removeNode "a") "b" ∧
    ∃ t, spread.addUsage ⟨"z", "c", .whole 1 1⟩ = .ok t ∧ t.serviceCount = 3 ∧
      spread.Untouched t "a" ∧
      t.usageOfNode? "b" = (spread.removeUsage "z").usageOfNode? "b" := by
  have reachable : spread.Reachable := (Reachable.initial .empty).run _
  have count : spread.serviceCount = 3 := by decide +kernel
  obtain ⟨total, removal, -, move⟩ := services_are_conserved reachable
  rw [count] at total
  obtain ⟨u, hu, hcount, untouched, -⟩ := removal "a" (by decide +kernel)
  have two : u.services = 2 := by
    have hservices : (spread.usageOfNode? "a").map Usage.services = some 2 := by decide +kernel
    rw [hu] at hservices
    exact Option.some.inj hservices
  obtain ⟨t, ht, hkept, others, former⟩ := move ⟨"z", "c", .whole 1 1⟩ ⟨"z", "b", .whole 3 16⟩
    rfl (by decide +kernel)
  refine ⟨total, by omega, untouched "b" (by decide), t, ht, hkept.trans count, ?_, ?_⟩
  · exact others "a" (by decide) (by decide)
  · exact former (by decide)

end Scheduler

end Placement
