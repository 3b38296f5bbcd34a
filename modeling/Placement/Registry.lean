import Placement.Catalog
import Placement.Node
import Placement.Refusal

/-!
# The registry of nodes

The registry knows which nodes belong to the domain and what they offer. Every capacity in it is
positive, by type. A node that is registered again takes its new capacity. What runs on a node is
not the registry's business.
-/

namespace Placement

instance : Keyed Node := ⟨Node.name⟩

/-- The nodes of the domain, by name. -/
structure Registry where
  nodes : Catalog Node
  positive : ∀ n ∈ nodes.toList, n.capacity.Positive

namespace Registry

def empty : Registry := ⟨.empty, by simp [Catalog.empty]⟩

instance : Inhabited Registry := ⟨empty⟩

def toList (r : Registry) : List Node := r.nodes.toList

def names (r : Registry) : List String := r.nodes.keys

def capacity? (r : Registry) (name : String) : Option Capacity :=
  (r.nodes.get? name).map Node.capacity

def contains (r : Registry) (name : String) : Bool := r.nodes.contains name

def size (r : Registry) : Nat := r.nodes.size

def isEmpty (r : Registry) : Bool := r.nodes.isEmpty

/-- Registers a node, or gives a registered one its new capacity, and tells the capacity that the
node had. Processing units are checked before memory. -/
def replace (r : Registry) (n : Node) : Except Refusal (Option Capacity × Registry) :=
  if noCpu : n.capacity.cpu = 0 then .error (.noCpu n.name)
  else if noMemory : n.capacity.memory = 0 then .error (.noMemory n.name)
  else .ok (r.capacity? n.name,
    { nodes := r.nodes.insert n
      positive := fun m hm => by
        rcases Catalog.mem_place hm with rfl | hm
        · exact ⟨noCpu, noMemory⟩
        · exact r.positive m hm })

/-- The registry with a node in it, when nobody asks for the capacity that the node had. -/
def add (r : Registry) (n : Node) : Except Refusal Registry := (r.replace n).map Prod.snd

/-- Takes a node out and tells what it offered; a name that is not registered changes nothing. -/
def take (r : Registry) (name : String) : Option Capacity × Registry :=
  (r.capacity? name,
    { nodes := r.nodes.erase name
      positive := fun m hm => r.positive m (List.mem_filter.1 hm).1 })

def remove (r : Registry) (name : String) : Registry := (r.take name).2

@[ext] theorem ext {r s : Registry} (h : r.nodes = s.nodes) : r = s := by
  cases r; cases s; simp_all

theorem replace_eq_ok_iff {r s : Registry} {n : Node} {previous : Option Capacity} :
    r.replace n = .ok (previous, s) ↔
      n.capacity.Positive ∧ previous = r.capacity? n.name ∧ s.nodes = r.nodes.insert n := by
  unfold replace
  split
  case isTrue h => exact ⟨nofun, fun p => absurd h p.1.cpu⟩
  case isFalse hc =>
    split
    case isTrue h => exact ⟨nofun, fun p => absurd h p.1.memory⟩
    case isFalse hm =>
      constructor
      · intro h; cases h; exact ⟨⟨hc, hm⟩, rfl, rfl⟩
      · rintro ⟨_, rfl, h⟩; congr 2; ext1; exact h.symm

theorem add_eq_ok_iff {r s : Registry} {n : Node} :
    r.add n = .ok s ↔ n.capacity.Positive ∧ s.nodes = r.nodes.insert n := by
  constructor
  · intro h
    unfold add at h
    match found : r.replace n with
    | .error e => rw [found] at h; cases h
    | .ok (previous, t) =>
      rw [found] at h
      cases h
      have := replace_eq_ok_iff.1 found
      exact ⟨this.1, this.2.2⟩
  · rintro ⟨positive, h⟩
    rw [add, replace_eq_ok_iff.2 ⟨positive, rfl, h⟩]
    rfl

theorem get?_remove (r : Registry) (name other : String) :
    (r.remove name).nodes.get? other = if other = name then none else r.nodes.get? other :=
  Catalog.get?_erase ..

theorem contains_iff {r : Registry} {name : String} :
    r.contains name = true ↔ ∃ n ∈ r.toList, n.name = name := by
  rw [contains, Catalog.contains_iff]
  exact exists_congr fun n => Catalog.get?_eq_some_iff

end Registry

end Placement
