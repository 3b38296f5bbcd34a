import Placement.Document.Schema
import Placement.Snapshot

/-!
# Stored forms

The names and the order of the fields under which footprints, nodes, records, snapshots and weights
are stored, in both directions. Missing lists of a snapshot are empty and missing weights have their
defaults; every other field has to be there. A footprint is checked as soon as its own fields are
read.
-/

namespace Placement

open Document

namespace Footprint

/-- A footprint of which some fields may not have been read yet. -/
structure Draft where
  cpu : Option Float := none
  memory : Option UInt64 := none

def fields : List (FieldReader Draft) :=
  [field "cpu" readFloat fun draft x => { draft with cpu := some x },
    field "memory" readUInt64 fun draft n => { draft with memory := some n }]

/-- The footprint of a draft that has both fields. -/
def complete (draft : Draft) : Except Fault Footprint := do
  let cpu ← required draft.cpu
  let memory ← required draft.memory
  match ofRequest cpu memory with
  | .ok f => .ok f
  | .error cause => .error (.refused cause)

def ofDocument (format : Format) : Reader Footprint := readRecord format fields {} complete

def toDocument (f : Footprint) : Document :=
  .record [("cpu", .number (.real f.cpu)), ("memory", .number (.int f.memory.toNat))] true

end Footprint

namespace Node

structure Draft where
  name : Option String := none
  cpu : Option UInt32 := none
  memory : Option UInt64 := none

def fields : List (FieldReader Draft) :=
  [field "name" readText fun draft s => { draft with name := some s },
    field "cpu" readUInt32 fun draft n => { draft with cpu := some n },
    field "memory" readUInt64 fun draft n => { draft with memory := some n }]

def complete (draft : Draft) : Except Fault Node := do
  let name ← required draft.name
  let cpu ← required draft.cpu
  let memory ← required draft.memory
  return ⟨name, cpu, memory⟩

def ofDocument (format : Format) : Reader Node := readRecord format fields {} complete

def toDocument (n : Node) : Document :=
  .record
    [("name", .text n.name), ("cpu", .number (.int n.capacity.cpu.toNat)),
      ("memory", .number (.int n.capacity.memory.toNat))] true

end Node

namespace Record

structure Draft where
  service : Option String := none
  node : Option String := none
  footprint : Option Footprint := none

def fields (format : Format) : List (FieldReader Draft) :=
  [field "id" readText fun draft s => { draft with service := some s },
    field "node" readText fun draft s => { draft with node := some s },
    field "footprint" (Footprint.ofDocument format) fun draft f =>
      { draft with footprint := some f }]

def complete (draft : Draft) : Except Fault Record := do
  let service ← required draft.service
  let node ← required draft.node
  let footprint ← required draft.footprint
  return ⟨service, node, footprint⟩

def ofDocument (format : Format) : Reader Record := readRecord format (fields format) {} complete

def toDocument (r : Record) : Document :=
  .record
    [("id", .text r.service), ("node", .text r.node), ("footprint", r.footprint.toDocument)] true

end Record

namespace Snapshot

def fields (format : Format) : List (FieldReader Snapshot) :=
  [field "nodes" (readList (Node.ofDocument format)) fun s nodes => { s with nodes },
    field "services" (readList (Record.ofDocument format)) fun s services => { s with services }]

def ofDocument (format : Format) : Reader Snapshot := readRecord format (fields format) {} .ok

def toDocument (s : Snapshot) : Document :=
  .record
    [("nodes", .list (s.nodes.map Node.toDocument) true),
      ("services", .list (s.services.map Record.toDocument) true)] true

end Snapshot

namespace Weights

def fields : List (FieldReader Weights) :=
  [field "average_cpu" readFloat fun w x => { w with averageCpu := x },
    field "highest_cpu" readFloat fun w x => { w with highestCpu := x },
    field "average_memory" readFloat fun w x => { w with averageMemory := x },
    field "highest_memory" readFloat fun w x => { w with highestMemory := x }]

def ofDocument (format : Format) : Reader Weights := readRecord format fields {} .ok

end Weights

namespace NodeScore

def toDocument (s : NodeScore) : Document :=
  .record
    [("node", .text s.node),
      ("score", .number (.real s.score)),
      ("capacity", .record
        [("cpu", .number (.int s.capacity.cpu.toNat)),
          ("memory", .number (.int s.capacity.memory.toNat))] true),
      ("breakdown", .record
        [("average_cpu", .number (.real s.breakdown.averageCpu)),
          ("highest_cpu", .number (.real s.breakdown.highestCpu)),
          ("average_memory", .number (.real s.breakdown.averageMemory)),
          ("highest_memory", .number (.real s.breakdown.highestMemory))] true)] true

end NodeScore

end Placement
