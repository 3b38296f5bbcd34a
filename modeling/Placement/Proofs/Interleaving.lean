import Placement.Proofs.Reachability

/-!
# Clients that take turns

Two clients share a scheduler, and each has a sequence of operations of its own. Which of them is
served next is decided elsewhere. Where no service is used by both of them, no node is taken in or
out by both, and no node that one takes in or out is one that the other records services on, that
decision makes no difference: nodes and records end up the same, and each operation is refused or
carried out as if its client were alone. A node that is taken out may still host services that the
other client moves or forgets at the same time. What the clients ask in between is not treated.
-/
namespace Placement

theorem Registry.ext_capacity? {r q : Registry} (h : ∀ name, r.capacity? name = q.capacity? name) :
    r = q := by
  apply ext
  apply Catalog.ext_get?
  intro name
  have hname := h name
  unfold capacity? at hname
  cases hr : r.nodes.get? name with
  | none =>
    rw [hr] at hname
    exact (Option.map_eq_none_iff.mp hname.symm).symm
  | some n =>
    rw [hr] at hname
    obtain ⟨m, hm, hcapacity⟩ := Option.map_eq_some_iff.mp hname.symm
    have hkey : m.name = n.name := (Catalog.key_of_get? hm).trans (Catalog.key_of_get? hr).symm
    rw [hm]
    cases m
    cases n
    simp_all

namespace Scheduler

variable {s t : Scheduler}

/-- Schedulers that answer alike are the same. -/
theorem ext_lookups (engine : s.engine = t.engine)
    (capacity : ∀ name, s.capacity? name = t.capacity? name)
    (usage : ∀ service, s.usage? service = t.usage? service) : s = t := by
  have hregistry : s.registry = t.registry := Registry.ext_capacity? capacity
  have hrecords : s.ledger.records = t.ledger.records := Catalog.ext_get? usage
  cases s with
  | mk r l e =>
    cases t with
    | mk q m f =>
      cases l
      cases m
      simp_all

/-- The service that an operation records or forgets. -/
def Operation.service? : Operation → Option String
  | .addUsage r => some r.service
  | .removeUsage service => some service
  | _ => none

/-- The node that an operation takes in or out. -/
def Operation.member? : Operation → Option String
  | .addNode n => some n.name
  | .removeNode name => some name
  | _ => none

/-- The node that an operation records a service on. -/
def Operation.host? : Operation → Option String
  | .addUsage r => some r.node
  | _ => none

/-- Two operations that do not get into each other's way. -/
structure Independent (a b : Operation) : Prop where
  services : ∀ service, a.service? = some service → b.service? ≠ some service
  members : ∀ name, a.member? = some name → b.member? ≠ some name
  hosts : ∀ name, a.member? = some name → b.host? ≠ some name
  targets : ∀ name, a.host? = some name → b.member? ≠ some name

variable {a b : Operation}

theorem Independent.symm (h : Independent a b) : Independent b a where
  services service hb ha := h.services service ha hb
  members name hb ha := h.members name ha hb
  hosts name hb ha := h.targets name ha hb
  targets name hb ha := h.hosts name ha hb

theorem member?_of_settles {name : String} (h : a.settles name = true) : a.member? = some name := by
  cases a with
  | addNode n =>
    simp only [Operation.settles, Bool.and_eq_true, beq_iff_eq] at h
    exact congrArg some h.1
  | removeNode removed => exact congrArg some (beq_iff_eq.mp h)
  | addUsage r => cases h
  | removeUsage service => cases h

theorem containsNode_step_of_ne {name : String} (h : a.member? ≠ some name) :
    (s.step a).containsNode name = s.containsNode name := by
  rw [containsNode_step, if_neg fun hs => h (member?_of_settles hs)]

/-- Why an operation is refused, if it is. -/
def refusal? (s : Scheduler) (op : Operation) : Option Refusal :=
  match s.perform op with
  | .ok _ => none
  | .error cause => some cause

/-- Whether an operation is refused is a matter of the node that it records a service on. -/
theorem refusal?_congr
    (h : ∀ name, a.host? = some name → s.containsNode name = t.containsNode name) :
    s.refusal? a = t.refusal? a := by
  cases a with
  | addNode n =>
    simp only [refusal?, perform, addNode, Registry.add, Registry.replace]
    split_ifs <;> rfl
  | removeNode name => rfl
  | addUsage r =>
    have hnode : s.registry.contains r.node = t.registry.contains r.node := h r.node rfl
    simp only [refusal?, perform, addUsage, Ledger.add, Ledger.replace, hnode]
    split_ifs <;> rfl
  | removeUsage service => rfl

theorem refusal?_step (h : Independent a b) : (s.step a).refusal? b = s.refusal? b :=
  refusal?_congr fun name hhost =>
    containsNode_step_of_ne fun hmember => h.hosts name hmember hhost

/-- What an operation makes of the record of a service, where some nodes are registered. -/
def Operation.alter (registered : String → Bool) (service : String) (found : Option Record) :
    Operation → Option Record
  | .addNode _ => found
  | .removeNode name => if registered name then found.filter (·.node != name) else found
  | .addUsage r => if service = r.service ∧ registered r.node = true then some r else found
  | .removeUsage forgotten => if service = forgotten then none else found

theorem usage?_step_eq_alter (s : Scheduler) (op : Operation) (service : String) :
    (s.step op).usage? service = op.alter s.containsNode service (s.usage? service) := by
  cases op with
  | addNode n => exact usage?_addNode s n service
  | removeNode name =>
    rw [step_removeNode, removeNode_eq, Operation.alter, containsNode]
    split_ifs
    · exact Ledger.get?_evict ..
    · rfl
  | addUsage r => exact usage?_addUsage s r service
  | removeUsage forgotten => exact usage?_removeUsage s forgotten service

theorem alter_congr {registered registered' : String → Bool}
    (hmember : ∀ name, a.member? = some name → registered name = registered' name)
    (hhost : ∀ name, a.host? = some name → registered name = registered' name)
    (service : String) (found : Option Record) :
    a.alter registered service found = a.alter registered' service found := by
  cases a with
  | addNode n => rfl
  | removeNode name => rw [Operation.alter, Operation.alter, hmember name rfl]
  | addUsage r => rw [Operation.alter, Operation.alter, hhost r.node rfl]
  | removeUsage forgotten => rfl

theorem alter_step (h : Independent a b) (service : String) (found : Option Record) :
    b.alter (s.step a).containsNode service found = b.alter s.containsNode service found :=
  alter_congr
    (fun name hb => containsNode_step_of_ne fun ha => h.members name ha hb)
    (fun name hb => containsNode_step_of_ne fun ha => h.hosts name ha hb) service found

/-- Taking a node out and recording a service elsewhere: the record stays either way. -/
theorem filter_alter_addUsage {registered : String → Bool} {service name : String} {r : Record}
    (h : r.node ≠ name) (found : Option Record) :
    ((Operation.addUsage r).alter registered service found).filter (·.node != name) =
      (Operation.addUsage r).alter registered service (found.filter (·.node != name)) := by
  rw [Operation.alter, Operation.alter]
  split_ifs
  · simp [Option.filter, h]
  · rfl

theorem alter_removeNode_comm {name : String} (h : Independent (.removeNode name) b)
    (registered : String → Bool) (service : String) (found : Option Record) :
    b.alter registered service ((Operation.removeNode name).alter registered service found) =
      (Operation.removeNode name).alter registered service (b.alter registered service found) := by
  cases b with
  | addNode m => rfl
  | removeNode other =>
    simp only [Operation.alter]
    split_ifs
    · rw [Option.filter_filter, Option.filter_filter]
      simp only [Bool.and_comm]
    all_goals rfl
  | addUsage r =>
    have hne : r.node ≠ name := fun he => h.hosts name rfl (congrArg some he)
    rw [Operation.alter, Operation.alter]
    split_ifs
    · exact (filter_alter_addUsage hne found).symm
    · rfl
  | removeUsage forgotten =>
    simp only [Operation.alter]
    split_ifs <;> rfl

theorem alter_comm (h : Independent a b) (registered : String → Bool) (service : String)
    (found : Option Record) :
    b.alter registered service (a.alter registered service found) =
      a.alter registered service (b.alter registered service found) := by
  cases a with
  | addNode n => rfl
  | removeNode name => exact alter_removeNode_comm h registered service found
  | addUsage r =>
    cases b with
    | addNode m => rfl
    | removeNode other => exact (alter_removeNode_comm h.symm registered service found).symm
    | addUsage q =>
      have hne : r.service ≠ q.service := fun he => h.services r.service rfl (congrArg some he.symm)
      simp only [Operation.alter]
      split_ifs <;> simp_all
    | removeUsage forgotten =>
      have hne : r.service ≠ forgotten := fun he => h.services r.service rfl (congrArg some he.symm)
      simp only [Operation.alter]
      split_ifs <;> simp_all
  | removeUsage forgotten =>
    cases b with
    | addNode m => rfl
    | removeNode other => exact (alter_removeNode_comm h.symm registered service found).symm
    | addUsage q =>
      have hne : forgotten ≠ q.service := fun he => h.services forgotten rfl (congrArg some he.symm)
      simp only [Operation.alter]
      split_ifs <;> simp_all
    | removeUsage other =>
      simp only [Operation.alter]
      split_ifs <;> rfl

/-- Independent operations lead to the same scheduler in either order. -/
theorem step_comm (h : Independent a b) (s : Scheduler) :
    (s.step a).step b = (s.step b).step a := by
  refine ext_lookups ?_ (fun name => ?_) fun service => ?_
  · rw [engine_step, engine_step, engine_step, engine_step]
  · rw [capacity?_step, capacity?_step, capacity?_step, capacity?_step]
    split_ifs with hb ha
    · exact absurd (member?_of_settles hb) (h.members name (member?_of_settles ha))
    all_goals rfl
  · rw [usage?_step_eq_alter, usage?_step_eq_alter, usage?_step_eq_alter, usage?_step_eq_alter,
      alter_step h, alter_step h.symm, alter_comm h]

theorem run_step {ops : List Operation} (h : ∀ a ∈ ops, Independent a b) (s : Scheduler) :
    (s.step b).run ops = (s.run ops).step b := by
  induction ops generalizing s with
  | nil => rfl
  | cons a ops ih =>
    obtain ⟨ha, hops⟩ := List.forall_mem_cons.mp h
    rw [run_cons, run_cons, ← step_comm ha, ih hops]

inductive Client where
  | first
  | second
  deriving Repr, DecidableEq

/-- An operation and the client that asks for it. -/
structure Call where
  client : Client
  operation : Operation

/-- The operations of one client, in the order in which it asks for them. -/
def operationsOf (c : Client) (calls : List Call) : List Operation :=
  (calls.filter (·.client = c)).map Call.operation

/-- Why the operations of a sequence are refused, if they are. -/
def refusals (s : Scheduler) : List Operation → List (Option Refusal)
  | [] => []
  | op :: ops => s.refusal? op :: (s.step op).refusals ops

/-- What one client meets while both take turns: why its operations are refused, if they are. -/
def refusalsOf (c : Client) (s : Scheduler) : List Call → List (Option Refusal)
  | [] => []
  | call :: calls =>
    if call.client = c then s.refusal? call.operation :: refusalsOf c (s.step call.operation) calls
    else refusalsOf c (s.step call.operation) calls

/-- The operations of different clients are independent. -/
def Apart (calls : List Call) : Prop :=
  ∀ x ∈ calls, ∀ y ∈ calls, x.client ≠ y.client → Independent x.operation y.operation

variable {call : Call} {calls : List Call} {c : Client}

theorem operationsOf_cons_self (h : call.client = c) :
    operationsOf c (call :: calls) = call.operation :: operationsOf c calls := by
  simp [operationsOf, h]

theorem operationsOf_cons_other (h : call.client ≠ c) :
    operationsOf c (call :: calls) = operationsOf c calls := by
  simp [operationsOf, h]

theorem Apart.tail (h : Apart (call :: calls)) : Apart calls := fun x hx y hy =>
  h x (List.mem_cons_of_mem call hx) y (List.mem_cons_of_mem call hy)

theorem Apart.independent (h : Apart (call :: calls)) (hc : call.client ≠ c) :
    ∀ op ∈ operationsOf c calls, Independent op call.operation := by
  intro op hop
  obtain ⟨x, hx, rfl⟩ := List.mem_map.mp hop
  obtain ⟨hmem, hclient⟩ := List.mem_filter.mp hx
  have hxc : x.client = c := of_decide_eq_true hclient
  exact h x (List.mem_cons_of_mem call hmem) call List.mem_cons_self (hxc ▸ hc.symm)

/-- Taking turns comes to the same as the second client waiting for the first one to finish. -/
theorem run_calls (h : Apart calls) (s : Scheduler) :
    s.run (calls.map Call.operation) =
      (s.run (operationsOf .first calls)).run (operationsOf .second calls) := by
  induction calls generalizing s with
  | nil => rfl
  | cons call calls ih =>
    rw [List.map_cons, run_cons, ih h.tail]
    cases hc : call.client with
    | first =>
      rw [operationsOf_cons_self hc, operationsOf_cons_other (by rw [hc]; decide), run_cons]
    | second =>
      have hother : call.client ≠ .first := by rw [hc]; decide
      rw [operationsOf_cons_other hother, operationsOf_cons_self hc, run_cons,
        run_step (h.independent hother)]

theorem refusals_step {ops : List Operation} (h : ∀ a ∈ ops, Independent a b) (s : Scheduler) :
    (s.step b).refusals ops = s.refusals ops := by
  induction ops generalizing s with
  | nil => rfl
  | cons a ops ih =>
    obtain ⟨ha, hops⟩ := List.forall_mem_cons.mp h
    rw [refusals, refusals, refusal?_step ha.symm, ← step_comm ha, ih hops]

/-- A client meets the refusals that it would meet alone. -/
theorem refusalsOf_eq (h : Apart calls) (c : Client) (s : Scheduler) :
    refusalsOf c s calls = s.refusals (operationsOf c calls) := by
  induction calls generalizing s with
  | nil => rfl
  | cons call calls ih =>
    rw [refusalsOf, ih h.tail]
    by_cases hc : call.client = c
    · rw [if_pos hc, operationsOf_cons_self hc, refusals]
    · rw [if_neg hc, operationsOf_cons_other hc, refusals_step (h.independent hc)]

theorem mem_operationsOf {op : Operation} :
    op ∈ operationsOf c calls ↔ (⟨c, op⟩ : Call) ∈ calls := by
  constructor
  · intro h
    obtain ⟨x, hx, rfl⟩ := List.mem_map.mp h
    obtain ⟨hmem, hclient⟩ := List.mem_filter.mp hx
    obtain rfl : x.client = c := of_decide_eq_true hclient
    exact hmem
  · intro h
    exact List.mem_map.mpr ⟨_, List.mem_filter.mpr ⟨h, by simp⟩, rfl⟩

/-- Two sequences of operations with their order kept, and one of them served at a time. -/
structure Interleaves (first second : List Operation) (calls : List Call) : Prop where
  first : operationsOf .first calls = first
  second : operationsOf .second calls = second

theorem Interleaves.apart {first second : List Operation} (h : Interleaves first second calls)
    (independent : ∀ a ∈ first, ∀ b ∈ second, Independent a b) : Apart calls := by
  obtain ⟨rfl, rfl⟩ := h
  intro x hx y hy hne
  have hxop : x.operation ∈ operationsOf x.client calls := mem_operationsOf.mpr hx
  have hyop : y.operation ∈ operationsOf y.client calls := mem_operationsOf.mpr hy
  cases hxc : x.client <;> cases hyc : y.client <;> rw [hxc, hyc] at hne <;>
    rw [hxc] at hxop <;> rw [hyc] at hyop
  · exact absurd rfl hne
  · exact independent _ hxop _ hyop
  · exact (independent _ hyop _ hxop).symm
  · exact absurd rfl hne

/-- Where the operations of two clients are independent, all ways of taking turns lead to the same
scheduler and to the same refusals. -/
theorem interleavings_agree (s : Scheduler) {first second : List Operation}
    (independent : ∀ a ∈ first, ∀ b ∈ second, Independent a b) {calls calls' : List Call}
    (h : Interleaves first second calls) (h' : Interleaves first second calls') :
    s.run (calls.map Call.operation) = s.run (calls'.map Call.operation) ∧
      ∀ c, refusalsOf c s calls = refusalsOf c s calls' := by
  have same : ∀ c, operationsOf c calls = operationsOf c calls'
    | .first => h.first.trans h'.first.symm
    | .second => h.second.trans h'.second.symm
  refine ⟨?_, fun c => ?_⟩
  · rw [run_calls (h.apart independent), run_calls (h'.apart independent), same, same]
  · rw [refusalsOf_eq (h.apart independent), refusalsOf_eq (h'.apart independent), same]

/-- Two nodes, of which the first hosts two services. -/
def crowded : Scheduler :=
  empty.run [.addNode ⟨"a", ⟨4, 8⟩⟩, .addNode ⟨"b", ⟨4, 8⟩⟩, .addUsage ⟨"x", "a", .whole 1 2⟩,
    .addUsage ⟨"y", "a", .whole 1 2⟩]

/-- A node is taken out while its services are moved away and forgotten. -/
theorem interleavings_agree_evacuating :
    ∃ (first second : List Operation) (calls calls' : List Call),
      first = [.removeNode "a", .addNode ⟨"c", ⟨0, 8⟩⟩] ∧
      second = [.addUsage ⟨"x", "b", .whole 1 2⟩, .removeUsage "y"] ∧
      (∀ a ∈ first, ∀ b ∈ second, Independent a b) ∧
      Interleaves first second calls ∧ Interleaves first second calls' ∧
      calls.map Call.client = [.first, .second, .first, .second] ∧
      calls'.map Call.client = [.second, .second, .first, .first] ∧
      crowded.run (calls.map Call.operation) = crowded.run (calls'.map Call.operation) ∧
      ∀ c, refusalsOf c crowded calls = refusalsOf c crowded calls' := by
  have independent : ∀ a ∈ [Operation.removeNode "a", .addNode ⟨"c", ⟨0, 8⟩⟩],
      ∀ b ∈ [Operation.addUsage ⟨"x", "b", .whole 1 2⟩, .removeUsage "y"], Independent a b := by
    simp only [List.forall_mem_cons, List.not_mem_nil, false_imp_iff, implies_true, and_true]
    refine ⟨⟨?_, ?_⟩, ?_, ?_⟩ <;>
      constructor <;> simp [Operation.service?, Operation.member?, Operation.host?]
  have h : Interleaves [.removeNode "a", .addNode ⟨"c", ⟨0, 8⟩⟩]
      [.addUsage ⟨"x", "b", .whole 1 2⟩, .removeUsage "y"]
      [⟨.first, .removeNode "a"⟩, ⟨.second, .addUsage ⟨"x", "b", .whole 1 2⟩⟩,
        ⟨.first, .addNode ⟨"c", ⟨0, 8⟩⟩⟩, ⟨.second, .removeUsage "y"⟩] := ⟨rfl, rfl⟩
  have h' : Interleaves [.removeNode "a", .addNode ⟨"c", ⟨0, 8⟩⟩]
      [.addUsage ⟨"x", "b", .whole 1 2⟩, .removeUsage "y"]
      [⟨.second, .addUsage ⟨"x", "b", .whole 1 2⟩⟩, ⟨.second, .removeUsage "y"⟩,
        ⟨.first, .removeNode "a"⟩, ⟨.first, .addNode ⟨"c", ⟨0, 8⟩⟩⟩] := ⟨rfl, rfl⟩
  exact ⟨_, _, _, _, rfl, rfl, independent, h, h', rfl, rfl,
    interleavings_agree crowded independent h h'⟩

end Scheduler

end Placement
