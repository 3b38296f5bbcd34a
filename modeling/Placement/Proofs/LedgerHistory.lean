import Mathlib
import Placement.Proofs.Accounts
import Placement.Proofs.History

/-!
# Accounts and the history of a ledger

A ledger holds a record if it was added on a registered node and nothing since has replaced it,
removed its service or evicted its node. Which records a node hosts is all that its account depends
on: the sum runs over them in the order of service names, whatever order they came in, and nothing
remains of records that have gone. The registry may be another one with each addition. How a ledger
and a registry are kept in step is not treated here.
-/
namespace Placement.Ledger

/-- What a ledger may be asked to do. -/
inductive Operation where
  | add (registry : Registry) (r : Record)
  | remove (service : String)
  | evict (node : String)

/-- The ledger after an operation: a refused one changes nothing. -/
def step (l : Ledger) : Operation → Ledger
  | .add registry r =>
    match l.add registry r with
    | .ok m => m
    | .error _ => l
  | .remove service => l.remove service
  | .evict node => l.evict node

def run (l : Ledger) (ops : List Operation) : Ledger := ops.foldl step l

theorem run_snoc (l : Ledger) (ops : List Operation) (op : Operation) :
    l.run (ops ++ [op]) = (l.run ops).step op := by
  rw [run, List.foldl_append]
  rfl

/-- An operation that records a service. -/
def Operation.Enters (r : Record) (op : Operation) : Prop :=
  ∃ registry : Registry, op = .add registry r ∧ registry.contains r.node = true

/-- An operation after which a ledger does not have a record, unless that one enters it anew. -/
def Operation.Ends (r : Record) : Operation → Prop
  | .add registry next => registry.contains next.node = true ∧ next.service = r.service
  | .remove service => service = r.service
  | .evict node => node = r.node

section
variable {l : Ledger} {ops : List Operation} {r : Record}

theorem enters_add {registry : Registry} {next : Record} :
    Operation.Enters r (.add registry next) ↔
      next = r ∧ registry.contains next.node = true := by
  constructor
  · rintro ⟨registry, h, hnode⟩
    cases h
    exact ⟨rfl, hnode⟩
  · rintro ⟨rfl, hnode⟩
    exact ⟨registry, rfl, hnode⟩

theorem mem_step_add_iff {registry : Registry} {next : Record} :
    r ∈ (l.step (.add registry next)).toList ↔
      Operation.Enters r (.add registry next) ∨
        r ∈ l.toList ∧ ¬ Operation.Ends r (.add registry next) := by
  rw [enters_add]
  unfold Operation.Ends
  by_cases hnode : registry.contains next.node = true
  · have hstep : l.step (.add registry next) = ⟨l.records.insert next⟩ := by
      simp only [step, add_eq_ok_iff.mpr ⟨hnode, rfl⟩]
    rw [hstep, mem_insert, and_iff_left hnode]
    exact or_congr eq_comm (and_congr_right fun _ => ⟨fun h he => h he.2.symm,
      fun h he => h ⟨hnode, he.symm⟩⟩)
  · have hstep : l.step (.add registry next) = l := by
      simp only [step, add, replace, if_neg hnode, Except.map]
    rw [hstep, or_iff_right fun h => hnode h.2, and_iff_left fun h => hnode h.1]

/-- One operation enters a record, or ends it, or does neither. -/
theorem mem_step_iff {op : Operation} :
    r ∈ (l.step op).toList ↔ op.Enters r ∨ r ∈ l.toList ∧ ¬ op.Ends r := by
  cases op with
  | add registry next => exact mem_step_add_iff
  | remove service =>
    have henters : ¬ Operation.Enters r (.remove service) := fun ⟨_, h, _⟩ => nomatch h
    rw [or_iff_right henters]
    exact mem_remove.trans (and_congr_right fun _ => ne_comm)
  | evict node =>
    have henters : ¬ Operation.Enters r (.evict node) := fun ⟨_, h, _⟩ => nomatch h
    rw [or_iff_right henters]
    exact mem_evict.trans (and_congr_right fun _ => ne_comm)

/-- An operation of a sequence enters a record, and no later one ends it. -/
def Leaves (ops : List Operation) (r : Record) : Prop :=
  ∃ before op after, ops = before ++ op :: after ∧ op.Enters r ∧ ∀ later ∈ after, ¬ later.Ends r

theorem leaves_snoc {op : Operation} :
    Leaves (ops ++ [op]) r ↔ op.Enters r ∨ Leaves ops r ∧ ¬ op.Ends r := by
  constructor
  · rintro ⟨before, first, after, hops, henters, hends⟩
    rcases Scheduler.snoc_eq_append_cons.mp hops with ⟨-, -, rfl⟩ | ⟨rest, rfl, hl⟩
    · exact .inl henters
    · obtain ⟨hrest, hlast⟩ := List.forall_mem_append.mp hends
      exact .inr ⟨⟨before, first, rest, hl, henters, hrest⟩, hlast op List.mem_cons_self⟩
  · rintro (henters | ⟨⟨before, first, after, rfl, henters, hends⟩, hlast⟩)
    · exact ⟨ops, op, [], rfl, henters, fun _ h => nomatch h⟩
    · refine ⟨before, first, after ++ [op], by simp, henters, ?_⟩
      exact List.forall_mem_append.mpr ⟨hends, by simpa using hlast⟩

theorem mem_run_iff : r ∈ (empty.run ops).toList ↔ Leaves ops r := by
  induction ops using List.reverseRecOn with
  | nil =>
    constructor
    · intro h
      cases h
    · rintro ⟨before, op, after, h, -⟩
      exact absurd h (List.append_ne_nil_of_right_ne_nil _ (List.cons_ne_nil _ _)).symm
  | append_singleton ops op ih => rw [run_snoc, mem_step_iff, leaves_snoc, ih]

end

theorem hostedOn_ascending (l : Ledger) (node : String) :
    (l.hostedOn node).Pairwise fun a b => Text.bytes a.service < Text.bytes b.service :=
  (l.records.ascending.filter _).imp Text.bytes_lt

/-- After any sequence of operations a node has an account if some record is left on it, and its
account and its usage are the sum of the records that are left there, in the order of their
services. -/
theorem accounts_tell_history (ops : List Operation) (node : String) :
    ∃ hosted : List Record,
      (hosted.Pairwise fun a b => Text.bytes a.service < Text.bytes b.service) ∧
      (∀ r, r ∈ hosted ↔ Leaves ops r ∧ r.node = node) ∧
      (empty.run ops).accounts.get? node =
        (if hosted.isEmpty then none else some ⟨node, (empty.run ops).usageOf node⟩) ∧
      (hosted = [] → (empty.run ops).usageOf node = .none) ∧
      ((empty.run ops).usageOf node).cpu =
        (hosted.map fun r => r.footprint.cpu).foldl (· + ·) 0.0 ∧
      ((empty.run ops).usageOf node).memory.toNat =
        min (2 ^ 64 - 1) (hosted.map fun r => r.footprint.memory.toNat).sum ∧
      ((empty.run ops).usageOf node).services = hosted.length := by
  refine ⟨(empty.run ops).hostedOn node, hostedOn_ascending _ node, fun r => ?_,
    get?_accounts _ node, fun hnone => ?_, ?_, ?_, services_usageOf _ node⟩
  · rw [mem_hostedOn, mem_run_iff]
  · rw [usageOf, hnone]
    rfl
  · rw [usageOf, Usage.total, Usage.cpu_foldl_add, List.foldl_map, List.foldl_map]
    rfl
  · rw [usageOf, Usage.toNat_memory_total, List.map_map, min_comm]
    rfl

end Placement.Ledger
