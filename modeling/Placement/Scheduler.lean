import Placement.Ranking

/-!
# The scheduler

A scheduler owns a registry, a ledger and an engine. Four operations change it; each either succeeds
or is refused and changes nothing. Taking a node out also forgets every service that it hosts, so a
record never names a node that is not registered. Placement itself is a question: ranking the nodes
for a footprint changes nothing, and the caller records where the service went.
-/

namespace Placement

/-- The nodes of the domain, what runs on them, and how placements are judged. -/
structure Scheduler where
  registry : Registry
  ledger : Ledger
  engine : Engine

namespace Scheduler

def ofEngine (engine : Engine) : Scheduler := ⟨.empty, .empty, engine⟩

/-- A scheduler without nodes and with the default weights. -/
def empty : Scheduler := ofEngine .standard

instance : Inhabited Scheduler := ⟨empty⟩

def ofWeights (w : Weights) : Except Refusal Scheduler := (Engine.ofWeights w).map ofEngine

/-- Registers a node, or gives a registered one its new capacity; what runs on it stays. -/
def addNode (s : Scheduler) (n : Node) : Except Refusal Scheduler :=
  (s.registry.add n).map fun registry => { s with registry }

/-- Takes a node out together with the services that it hosts. -/
def removeNode (s : Scheduler) (name : String) : Scheduler :=
  match s.registry.take name with
  | (none, _) => s
  | (some _, registry) => { s with registry, ledger := (s.ledger.clear name).2 }

/-- Records a service on a registered node. A record that the service had is replaced. -/
def addUsage (s : Scheduler) (r : Record) : Except Refusal Scheduler :=
  (s.ledger.add s.registry r).map fun ledger => { s with ledger }

/-- Forgets a service and tells its record. -/
def takeUsage (s : Scheduler) (service : String) : Option Record × Scheduler :=
  let (taken, ledger) := s.ledger.take service
  (taken, { s with ledger })

def removeUsage (s : Scheduler) (service : String) : Scheduler := (s.takeUsage service).2

theorem removeNode_eq (s : Scheduler) (name : String) :
    s.removeNode name = if s.registry.contains name then
      { s with registry := s.registry.remove name, ledger := s.ledger.evict name } else s := by
  unfold removeNode Registry.take
  rw [Registry.contains, Catalog.contains, Ledger.clear_eq]
  cases found : s.registry.nodes.get? name with
  | none => simp [Registry.capacity?, found]
  | some n => simp [Registry.capacity?, found, Registry.remove, Registry.take]

/-- A change that a caller may ask for. -/
inductive Operation where
  | addNode (n : Node)
  | removeNode (name : String)
  | addUsage (r : Record)
  | removeUsage (service : String)

/-- Carries out an operation, unless it is refused. -/
def perform (s : Scheduler) : Operation → Except Refusal Scheduler
  | .addNode n => s.addNode n
  | .removeNode name => .ok (s.removeNode name)
  | .addUsage r => s.addUsage r
  | .removeUsage service => .ok (s.removeUsage service)

/-- The scheduler after an operation: a refused one changes nothing. -/
def step (s : Scheduler) (op : Operation) : Scheduler :=
  match s.perform op with
  | .ok next => next
  | .error _ => s

/-- The scheduler after a sequence of operations. -/
def run (s : Scheduler) (ops : List Operation) : Scheduler := ops.foldl step s

theorem run_cons (s : Scheduler) (op : Operation) (ops : List Operation) :
    s.run (op :: ops) = (s.step op).run ops := rfl

theorem run_append (s : Scheduler) (ops later : List Operation) :
    s.run (ops ++ later) = (s.run ops).run later := List.foldl_append

def containsNode (s : Scheduler) (name : String) : Bool := s.registry.contains name

def nodeNames (s : Scheduler) : List String := s.registry.names

def capacity? (s : Scheduler) (name : String) : Option Capacity := s.registry.capacity? name

def nodeCount (s : Scheduler) : Nat := s.registry.size

def usage? (s : Scheduler) (service : String) : Option Record := s.ledger.get? service

/-- What is in use on a registered node. -/
def usageOfNode? (s : Scheduler) (name : String) : Option Usage :=
  if s.registry.contains name then some (s.ledger.usageOf name) else none

def serviceCount (s : Scheduler) : Nat := s.ledger.size

/-- Every registered node with its score for one more footprint. -/
def scoreNodes (s : Scheduler) (f : Footprint) : List (String × Float) :=
  s.engine.scoreNodes s.registry s.ledger f

/-- Every registered node scored for one more footprint, the most preferred one first. -/
def rankNodes (s : Scheduler) (f : Footprint) : List NodeScore :=
  NodeScore.rank (s.engine.evaluate s.registry s.ledger f)

/-- The most preferred node for one more footprint. -/
def bestNode? (s : Scheduler) (f : Footprint) : Option String :=
  (s.rankNodes f).head?.map NodeScore.node

end Scheduler

end Placement
