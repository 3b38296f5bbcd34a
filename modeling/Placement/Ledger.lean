import Placement.Registry
import Placement.Usage

/-!
# The ledger of services

The ledger says which node hosts each service and what the service reserved there. A service has at
most one record: a second one replaces the first, which is how a service moves. The usage of a node
is summed anew in the order of service names whenever it is asked for, so it does not depend on how
the ledger came about. `accounts` sums all nodes in one pass over the records, `usageOf` one node
alone. The ledger does not follow the registry: it is told when a node is gone.
-/

namespace Placement

/-- A service, its host and what it reserved there. -/
structure Record where
  service : String
  node : String
  footprint : Footprint

instance : Keyed Record := ⟨Record.service⟩

/-- A node and what is in use on it. -/
structure Account where
  node : String
  usage : Usage

instance : Keyed Account := ⟨Account.node⟩

/-- The usage of a node by a catalogue of accounts; a node without an account uses nothing. -/
def Catalog.usageOf (accounts : Catalog Account) (node : String) : Usage :=
  ((accounts.get? node).map Account.usage).getD .none

/-- The records of all services, by service. -/
structure Ledger where
  records : Catalog Record

namespace Ledger

def empty : Ledger := ⟨.empty⟩

instance : Inhabited Ledger := ⟨empty⟩

def toList (l : Ledger) : List Record := l.records.toList

def get? (l : Ledger) (service : String) : Option Record := l.records.get? service

def size (l : Ledger) : Nat := l.records.size

def isEmpty (l : Ledger) : Bool := l.records.isEmpty

/-- Records a service on a registered node, and tells the record that it is in place of. -/
def replace (l : Ledger) (registry : Registry) (r : Record) :
    Except Refusal (Option Record × Ledger) :=
  if registry.contains r.node then .ok (l.get? r.service, ⟨l.records.insert r⟩)
  else .error (.unknownNode r.node)

/-- The ledger with a record in it, when nobody asks for the one that it is in place of. -/
def add (l : Ledger) (registry : Registry) (r : Record) : Except Refusal Ledger :=
  (l.replace registry r).map Prod.snd

/-- Forgets a service and tells its record; one that is not recorded changes nothing. -/
def take (l : Ledger) (service : String) : Option Record × Ledger :=
  (l.get? service, ⟨l.records.erase service⟩)

def remove (l : Ledger) (service : String) : Ledger := (l.take service).2

/-- Forgets services one after the other and tells the records that there were. -/
def takeAll (l : Ledger) : List String → List Record × Ledger
  | [] => ([], l)
  | service :: rest =>
    let (taken, m) := l.take service
    let (others, last) := takeAll m rest
    (taken.toList ++ others, last)

def hostedOn (l : Ledger) (node : String) : List Record := l.toList.filter (·.node == node)

/-- Forgets every service that a node hosts and tells their records. -/
def clear (l : Ledger) (node : String) : List Record × Ledger :=
  l.takeAll ((l.hostedOn node).map Record.service)

/-- The services that other nodes host. -/
def evict (l : Ledger) (node : String) : Ledger := ⟨l.records.filter (·.node != node)⟩

/-- What is in use on a node. -/
def usageOf (l : Ledger) (node : String) : Usage :=
  .total ((l.hostedOn node).map Record.footprint)

/-- Adds the footprint of a record to the account of its node. -/
def credit (accounts : Catalog Account) (r : Record) : Catalog Account :=
  accounts.insert ⟨r.node, (accounts.usageOf r.node).add r.footprint⟩

/-- The accounts of all nodes that host a service. -/
def accounts (l : Ledger) : Catalog Account := l.toList.foldl credit .empty

theorem add_eq_ok_iff {l m : Ledger} {registry : Registry} {r : Record} :
    l.add registry r = .ok m ↔ registry.contains r.node = true ∧ m = ⟨l.records.insert r⟩ := by
  unfold add replace
  split
  case isTrue h => simp only [Except.map, Except.ok.injEq, h, true_and, eq_comm]
  case isFalse h => simp [Except.map, h]

theorem takeAll_snd (l : Ledger) (services : List String) :
    (l.takeAll services).2.records = l.records.filter fun r => !services.contains r.service := by
  induction services generalizing l with
  | nil =>
    exact Catalog.ext_mem fun r => (List.mem_filter.trans (and_iff_left rfl)).symm
  | cons service rest ih =>
    show (takeAll (l.take service).2 rest).2.records = _
    rw [ih]
    refine Catalog.ext_mem fun r => ?_
    simp [take, Catalog.erase, Catalog.filter, key, and_comm]

theorem takeAll_fst {l : Ledger} {rs : List Record} (recorded : ∀ r ∈ rs, r ∈ l.toList)
    (distinct : rs.Pairwise fun a b => a.service ≠ b.service) :
    (l.takeAll (rs.map Record.service)).1 = rs := by
  induction rs generalizing l with
  | nil => rfl
  | cons r rest ih =>
    have ⟨head, tail⟩ := List.pairwise_cons.1 distinct
    have ⟨here, others⟩ := List.forall_mem_cons.1 recorded
    have taken : l.get? r.service = some r := Catalog.get?_eq_some_iff.2 ⟨here, rfl⟩
    have kept : ∀ q ∈ rest, q ∈ (l.take r.service).2.toList := fun q hq =>
      List.mem_filter.2 ⟨others q hq, bne_iff_ne.2 (head q hq).symm⟩
    show (l.get? r.service).toList ++ (takeAll (l.take r.service).2 (rest.map _)).1 = _
    rw [ih kept tail, taken]
    rfl

theorem mem_services_hostedOn {l : Ledger} {r : Record} (recorded : r ∈ l.toList) {node : String} :
    r.service ∈ (l.hostedOn node).map Record.service ↔ r.node = node := by
  constructor
  · intro h
    have ⟨q, hq, same⟩ := List.mem_map.1 h
    have ⟨mem, host⟩ := List.mem_filter.1 hq
    have := Catalog.eq_of_key_eq l.records.ascending mem recorded same
    exact this ▸ eq_of_beq host
  · rintro rfl
    exact List.mem_map.2 ⟨r, List.mem_filter.2 ⟨recorded, beq_self_eq_true _⟩, rfl⟩

/-- What is taken off a node is what it hosts, in the order of services, and what is left is what
other nodes host. -/
theorem clear_eq (l : Ledger) (node : String) : l.clear node = (l.hostedOn node, l.evict node) := by
  have distinct : (l.hostedOn node).Pairwise fun a b => a.service ≠ b.service :=
    (l.records.ascending.filter _).imp fun {a b} (before : a.service < b.service) same =>
      String.lt_irrefl _ (same ▸ before)
  have kept : (l.clear node).2.records = (l.evict node).records := by
    rw [clear, takeAll_snd]
    refine Catalog.filter_congr fun r hr => ?_
    have hosted := (mem_services_hostedOn hr).trans (beq_iff_eq (b := node)).symm
    exact congrArg not (Bool.eq_iff_iff.2 (List.contains_iff_mem.trans hosted))
  exact Prod.ext (takeAll_fst (fun r hr => (List.mem_filter.1 hr).1) distinct) (congrArg mk kept)

theorem get?_remove (l : Ledger) (service other : String) :
    (l.remove service).get? other = if other = service then none else l.get? other :=
  Catalog.get?_erase ..

theorem get?_evict (l : Ledger) (node service : String) :
    (l.evict node).get? service = (l.get? service).filter (·.node != node) :=
  Catalog.get?_filter ..

theorem services_usageOf (l : Ledger) (node : String) :
    (l.usageOf node).services = (l.hostedOn node).length := by
  simp [usageOf, Usage.services_total]

end Ledger

end Placement
