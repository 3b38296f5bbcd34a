import Placement.Double.Whole
import Placement.Snapshot
import Placement.Proofs.Double.Order
import Placement.Proofs.Operation

/-!
# What holds of every scheduler

A scheduler comes from nothing, from weights, from a list of nodes or from a snapshot, and changes
by operations of which some are refused. Whatever its origin, it is the outcome of some operations
on a scheduler without nodes, so one step is all that an invariant has to be checked for. The
invariant here ties the two catalogues together: no record names a node that is not registered.
What ranking makes of such a state is not treated.
-/
namespace Placement.Scheduler

/-- The schedulers that callers begin with. -/
inductive Initial : Scheduler → Prop
  | empty : Initial empty
  | ofWeights {w : Weights} {s : Scheduler} : ofWeights w = .ok s → Initial s
  | ofNodes {nodes : List Node} {s : Scheduler} : ofNodes nodes = .ok s → Initial s
  | restore {saved : Snapshot} {w : Weights} {s : Scheduler} :
      restore saved w = .ok s → Initial s

/-- The schedulers that callers can come to; a refused operation is a step as well. -/
inductive Reachable : Scheduler → Prop
  | initial {s : Scheduler} : Initial s → Reachable s
  | step {s : Scheduler} (op : Operation) : Reachable s → Reachable (s.step op)

theorem Reachable.run {s : Scheduler} (h : Reachable s) (ops : List Operation) :
    Reachable (s.run ops) := by
  induction ops generalizing s with
  | nil => exact h
  | cons op ops ih => exact ih (h.step op)

theorem step_of_perform {s t : Scheduler} {op : Operation} (h : s.perform op = .ok t) :
    s.step op = t := by
  unfold step
  rw [h]

theorem ok_of_bind {α β : Type} {x : Except Refusal α} {f : α → Except Refusal β} {b : β}
    (h : x.bind f = .ok b) : ∃ a, x = .ok a ∧ f a = .ok b := by
  cases x with
  | error e => cases h
  | ok a => exact ⟨a, rfl, h⟩

theorem run_of_foldlM {α : Type} (asOp : α → Operation)
    (f : Scheduler → α → Except Refusal Scheduler)
    (hf : ∀ s a, s.perform (asOp a) = f s a) {s t : Scheduler} {l : List α}
    (h : l.foldlM f s = .ok t) : t = s.run (l.map asOp) := by
  induction l generalizing s with
  | nil => cases h; rfl
  | cons a l ih =>
    obtain ⟨u, ha, hl⟩ := ok_of_bind h
    have hu : s.step (asOp a) = u := step_of_perform ((hf s a).trans ha)
    rw [List.map_cons, run_cons, hu]
    exact ih hl

theorem run_of_addNodes {s t : Scheduler} {nodes : List Node} (h : s.addNodes nodes = .ok t) :
    t = s.run (nodes.map .addNode) :=
  run_of_foldlM .addNode addNode (fun _ _ => rfl) h

theorem run_of_addUsages {s t : Scheduler} {records : List Record}
    (h : s.addUsages records = .ok t) : t = s.run (records.map .addUsage) :=
  run_of_foldlM .addUsage addUsage (fun _ _ => rfl) h

theorem ofWeights_eq_ok {w : Weights} {s : Scheduler} (h : ofWeights w = .ok s) :
    ∃ e, Engine.ofWeights w = .ok e ∧ s = ofEngine e := by
  unfold ofWeights at h
  match he : Engine.ofWeights w with
  | .error x => rw [he] at h; cases h
  | .ok e => rw [he] at h; cases h; exact ⟨e, rfl, rfl⟩

theorem Initial.eq_run {s : Scheduler} (h : Initial s) :
    ∃ w e ops, Engine.ofWeights w = .ok e ∧ s = (ofEngine e).run ops := by
  cases h with
  | empty => exact ⟨{}, .standard, [], Engine.ofWeights_standard, rfl⟩
  | @ofWeights w _ h =>
    obtain ⟨e, he, rfl⟩ := ofWeights_eq_ok h
    exact ⟨w, e, [], he, rfl⟩
  | @ofNodes nodes _ h =>
    exact ⟨{}, .standard, nodes.map .addNode, Engine.ofWeights_standard, run_of_addNodes h⟩
  | @restore saved w s h =>
    obtain ⟨u, hw, h⟩ := ok_of_bind h
    obtain ⟨v, hn, hs⟩ := ok_of_bind h
    obtain ⟨e, he, rfl⟩ := ofWeights_eq_ok hw
    refine ⟨w, e, saved.nodes.map .addNode ++ saved.services.map .addUsage, he, ?_⟩
    rw [run_append, ← run_of_addNodes hn]
    exact run_of_addUsages hs

/-- Whatever a scheduler came from, operations on a scheduler without nodes lead to it. -/
theorem Reachable.eq_run {s : Scheduler} (h : Reachable s) :
    ∃ w e ops, Engine.ofWeights w = .ok e ∧ s = (ofEngine e).run ops := by
  induction h with
  | initial h => exact h.eq_run
  | step op _ ih =>
    obtain ⟨w, e, ops, he, rfl⟩ := ih
    refine ⟨w, e, ops ++ [op], he, ?_⟩
    rw [run_append]
    rfl

theorem engine_run (s : Scheduler) (ops : List Operation) : (s.run ops).engine = s.engine := by
  induction ops generalizing s with
  | nil => rfl
  | cons op ops ih => rw [run_cons, ih, engine_step]

/-- Every scheduler judges by weights that were accepted. -/
theorem Reachable.accepted {s : Scheduler} (h : Reachable s) :
    ∃ w, Engine.ofWeights w = .ok s.engine := by
  obtain ⟨w, e, ops, he, rfl⟩ := h.eq_run
  rw [engine_run]
  exact ⟨w, he⟩

theorem hosted_ofEngine (e : Engine) : (ofEngine e).Hosted := by
  intro service r h
  cases h

theorem hosted_run {s : Scheduler} (h : s.Hosted) (ops : List Operation) : (s.run ops).Hosted := by
  induction ops generalizing s with
  | nil => exact h
  | cons op ops ih => exact ih (hosted_step h op)

theorem Reachable.hosted {s : Scheduler} (h : Reachable s) : s.Hosted := by
  obtain ⟨w, e, ops, -, rfl⟩ := h.eq_run
  exact hosted_run (hosted_ofEngine e) ops

theorem usage?_eq_some_iff {s : Scheduler} {service : String} {r : Record} :
    s.usage? service = some r ↔ r ∈ s.ledger.toList ∧ r.service = service :=
  Catalog.get?_eq_some_iff

theorem positive_of_capacity? {s : Scheduler} {name : String} {c : Capacity}
    (h : s.capacity? name = some c) : 0 < c.cpu ∧ 0 < c.memory := by
  obtain ⟨n, hn, rfl⟩ := Option.map_eq_some_iff.mp h
  have hp := s.registry.positive n (Catalog.mem_of_get? hn)
  have hcpu : n.capacity.cpu.toNat ≠ 0 := fun h => hp.cpu (UInt32.toNat_inj.mp h)
  have hmem : n.capacity.memory.toNat ≠ 0 := fun h => hp.memory (UInt64.toNat_inj.mp h)
  rw [UInt32.lt_iff_toNat_lt, UInt64.lt_iff_toNat_lt]
  exact ⟨Nat.pos_of_ne_zero hcpu, Nat.pos_of_ne_zero hmem⟩

/-- What is true of the registry and the ledger of every scheduler that callers can come to. -/
structure Consistent (s : Scheduler) : Prop where
  hosted : ∀ r ∈ s.ledger.toList, s.containsNode r.node = true
  filed : ∀ service r, s.usage? service = some r ↔ r ∈ s.ledger.toList ∧ r.service = service
  positive : ∀ name c, s.capacity? name = some c → 0 < c.cpu ∧ 0 < c.memory
  bounded : ∀ r ∈ s.ledger.toList, r.footprint.cpu.isFinite = true ∧
    0.0 ≤ r.footprint.cpu ∧ r.footprint.cpu ≤ 4294967295.0

theorem consistent_of_reachable {s : Scheduler} (h : Reachable s) : s.Consistent where
  hosted r hr := h.hosted r.service r (usage?_eq_some_iff.mpr ⟨hr, rfl⟩)
  filed _ _ := usage?_eq_some_iff
  positive _ _ := positive_of_capacity?
  bounded r _ := r.footprint.admissible.mem_range

/-- A service that moved survives its first node, and refusals leave no trace. -/
theorem consistent_after_migration :
    ∃ s, s = empty.run
        [.addNode ⟨"a", ⟨4, 8⟩⟩, .addNode ⟨"b", ⟨2, 4⟩⟩, .addUsage ⟨"x", "a", .whole 1 2⟩,
          .addUsage ⟨"x", "b", .whole 3 5⟩, .addNode ⟨"c", ⟨0, 4⟩⟩,
          .addUsage ⟨"y", "c", .whole 1 1⟩, .removeNode "a"] ∧
      s.Reachable ∧ s.nodeNames = ["b"] ∧ s.serviceCount = 1 ∧ s.Consistent := by
  refine ⟨_, rfl, ?_⟩
  have h := (Reachable.initial .empty).run
    [.addNode ⟨"a", ⟨4, 8⟩⟩, .addNode ⟨"b", ⟨2, 4⟩⟩, .addUsage ⟨"x", "a", .whole 1 2⟩,
      .addUsage ⟨"x", "b", .whole 3 5⟩, .addNode ⟨"c", ⟨0, 4⟩⟩,
      .addUsage ⟨"y", "c", .whole 1 1⟩, .removeNode "a"]
  exact ⟨h, by decide +kernel, by decide +kernel, consistent_of_reachable h⟩

end Placement.Scheduler
