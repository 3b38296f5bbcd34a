import Placement.Scheduler

/-!
# Snapshots

A snapshot lists the nodes and the records of a scheduler. Taking one lists them in ascending order;
one that came from elsewhere may list anything in any order, and restoring it is where the entries
are checked: nodes first, then services, each in the order of the list, the first refusal final.
-/

namespace Placement

/-- Nodes and records as they are stored. -/
structure Snapshot where
  nodes : List Node := []
  services : List Record := []

namespace Scheduler

/-- The nodes and records of a scheduler, by name and by service. -/
def snapshot (s : Scheduler) : Snapshot := ⟨s.registry.toList, s.ledger.toList⟩

def addNodes (s : Scheduler) (nodes : List Node) : Except Refusal Scheduler :=
  nodes.foldlM addNode s

def addUsages (s : Scheduler) (records : List Record) : Except Refusal Scheduler :=
  records.foldlM addUsage s

/-- The scheduler of a list of nodes, with the default weights. -/
def ofNodes (nodes : List Node) : Except Refusal Scheduler := empty.addNodes nodes

/-- The scheduler of a snapshot, with the given weights. -/
def restore (snapshot : Snapshot) (w : Weights) : Except Refusal Scheduler := do
  let s ← ofWeights w
  let s ← s.addNodes snapshot.nodes
  s.addUsages snapshot.services

end Scheduler

end Placement
