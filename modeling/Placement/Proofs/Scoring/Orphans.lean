import Placement.Proofs.History
import Placement.Proofs.Scoring.Choice

/-!
# Records without a node

A ledger does not follow the registry. When a node is taken out of the registry alone, the records
that name it stay, between the others in the order of service names. Evaluation sums them into
accounts that no registered node asks for. Two ledgers that agree on the registered nodes are
evaluated alike, to the last bit, however they came about. A scheduler forgets such records, and
ranks as it would with them.
-/
namespace Placement

/-- The records that name a registered node are the same. -/
def Ledger.AgreeOn (registry : Registry) (l m : Ledger) : Prop :=
  ∀ r : Record, registry.contains r.node = true → (r ∈ l.toList ↔ r ∈ m.toList)

namespace Engine

variable {registry : Registry} {l m : Ledger}

theorem evaluate_eq_of_agreeOn (e : Engine) (f : Footprint) (agree : l.AgreeOn registry m) :
    e.evaluate registry l f = e.evaluate registry m f := by
  apply e.evaluate_congr
  intro n hn
  apply Ledger.usageOf_congr
  rintro r hnode
  apply agree
  exact Registry.contains_iff.mpr ⟨n, hn, hnode.symm⟩

end Engine

theorem Registry.contains_remove (registry : Registry) (name other : String) :
    (registry.remove name).contains other = true ↔
      registry.contains other = true ∧ other ≠ name := by
  rw [contains, contains, Catalog.contains, Catalog.contains, get?_remove]
  by_cases h : other = name
  · simp [h]
  · simp [h]

theorem Registry.remove_of_not_contains {registry : Registry} {name : String}
    (h : ¬ registry.contains name = true) : registry.remove name = registry := by
  apply Registry.ext
  apply Catalog.ext_get?
  intro other
  rw [get?_remove]
  split
  case isTrue same =>
    have hnone : registry.nodes.get? name = none := Option.not_isSome_iff_eq_none.mp h
    rw [same, hnone]
  case isFalse => rfl

theorem Ledger.agreeOn_evict (registry : Registry) (l : Ledger) (name : String) :
    (l.evict name).AgreeOn (registry.remove name) l := by
  intro r hr
  obtain ⟨-, hne⟩ := (registry.contains_remove name r.node).mp hr
  rw [mem_evict, and_iff_left hne]

/-- A scheduler without the node, in which the records that named it are left in place. -/
def Scheduler.abandonNode (s : Scheduler) (name : String) : Scheduler :=
  { s with registry := s.registry.remove name }

/-- A ranking does not tell whether the records of a node went with it. -/
theorem Scheduler.rankNodes_removeNode (s : Scheduler) (name : String) (f : Footprint) :
    (s.removeNode name).rankNodes f = (s.abandonNode name).rankNodes f := by
  rw [removeNode_eq]
  split
  case isTrue h =>
    apply congrArg NodeScore.rank
    apply Engine.evaluate_eq_of_agreeOn
    exact Ledger.agreeOn_evict s.registry s.ledger name
  case isFalse h =>
    rw [abandonNode, Registry.remove_of_not_contains h]

/-- Ledgers with the same records on the registered nodes are evaluated alike: one entry for each
registered node, in the order of names, with the capacity of that node. Ranking after a scheduler
has removed a node is ranking with the records of that node left in place. -/
theorem Engine.orphans_are_invisible (f : Footprint) :
    (∀ (e : Engine) (registry : Registry) (l m : Ledger), l.AgreeOn registry m →
      e.evaluate registry l f = e.evaluate registry m f ∧
        ((e.evaluate registry l f).Pairwise fun x y => Text.bytes x.node < Text.bytes y.node) ∧
        ∀ name c, (∃ x ∈ e.evaluate registry l f, x.node = name ∧ x.capacity = c) ↔
          registry.capacity? name = some c) ∧
      ∀ (s : Scheduler) (name : String),
        (s.removeNode name).rankNodes f = (s.abandonNode name).rankNodes f :=
  ⟨fun e registry l _ agree => ⟨e.evaluate_eq_of_agreeOn f agree, e.pairwise_evaluate registry l f,
    e.exists_entry_iff registry l f⟩, fun s name => s.rankNodes_removeNode name f⟩

/-- Two nodes, with a service on each. -/
def Scheduler.hosts : Scheduler :=
  empty.run [.addNode ⟨"a", ⟨3, 64⟩⟩, .addNode ⟨"b", ⟨7, 32⟩⟩, .addUsage ⟨"m", "a", .whole 1 2⟩,
    .addUsage ⟨"s", "b", .whole 2 3⟩]

/-- The same, once services of two nodes that are gone stand before and between the others. -/
def Scheduler.haunted : Scheduler :=
  ((empty.run [.addNode ⟨"c", ⟨1, 1⟩⟩, .addNode ⟨"0", ⟨1, 1⟩⟩, .addUsage ⟨"a", "c", .whole 9 9⟩,
    .addUsage ⟨"n", "0", .whole 5 0xFFFFFFFFFFFFFFFF⟩, .addUsage ⟨"s", "c", .whole 8 8⟩,
    .addNode ⟨"b", ⟨7, 32⟩⟩, .addNode ⟨"a", ⟨3, 64⟩⟩, .addUsage ⟨"s", "b", .whole 2 3⟩,
    .addUsage ⟨"m", "a", .whole 1 2⟩]).abandonNode "c").abandonNode "0"

/-- The services left behind show neither in an evaluation nor in a ranking. -/
theorem Engine.orphans_are_invisible_between :
    Scheduler.haunted.serviceCount = 4 ∧ Scheduler.hosts.serviceCount = 2 ∧
      Engine.standard.evaluate Scheduler.hosts.registry Scheduler.hosts.ledger (.whole 1 1) =
        Engine.standard.evaluate Scheduler.hosts.registry Scheduler.haunted.ledger (.whole 1 1) ∧
      (Scheduler.haunted.removeNode "a").rankNodes (.whole 1 1) =
        (Scheduler.haunted.abandonNode "a").rankNodes (.whole 1 1) := by
  obtain ⟨law, ranking⟩ := orphans_are_invisible (.whole 1 1)
  have agree :
      Scheduler.hosts.ledger.AgreeOn Scheduler.hosts.registry Scheduler.haunted.ledger := by
    have kept : Scheduler.hosts.ledger.toList = Scheduler.haunted.ledger.toList.filter
        (fun r => Scheduler.hosts.registry.contains r.node) := rfl
    intro r hr
    rw [kept, List.mem_filter, and_iff_left hr]
  obtain ⟨same, -, -⟩ := law .standard _ _ _ agree
  exact ⟨by decide +kernel, by decide +kernel, same, ranking .haunted "a"⟩

end Placement
