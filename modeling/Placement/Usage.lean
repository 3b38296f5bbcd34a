import Placement.Footprint

/-!
# Usage of a node

The usage of a node is the sum of the footprints it hosts, and how many there are. Processing units
are added as doubles in the order given. Memory stays at the largest 64-bit number once it would
pass it, so the order does not matter for memory.
-/

namespace Placement

/-- The sum of two amounts of memory, held at the largest 64-bit number. -/
def saturatingAdd (a b : UInt64) : UInt64 := UInt64.ofNatClamp (a.toNat + b.toNat)

theorem toNat_saturatingAdd (a b : UInt64) :
    (saturatingAdd a b).toNat = min (a.toNat + b.toNat) (UInt64.size - 1) := by
  unfold saturatingAdd
  by_cases h : a.toNat + b.toNat < UInt64.size
  · rw [UInt64.toNat_ofNatClamp_of_lt h]; omega
  · rw [UInt64.toNat_ofNatClamp_of_le (Nat.le_of_not_lt h)]; omega

/-- What is in use on one node. -/
structure Usage where
  cpu : Float
  memory : UInt64
  services : Nat

namespace Usage

def none : Usage := ⟨0.0, 0, 0⟩

/-- Accounts for one more footprint. -/
def add (u : Usage) (f : Footprint) : Usage :=
  ⟨u.cpu + f.cpu, saturatingAdd u.memory f.memory, u.services + 1⟩

def total (fs : List Footprint) : Usage := fs.foldl add none

theorem total_append_singleton (fs : List Footprint) (f : Footprint) :
    total (fs ++ [f]) = (total fs).add f := by
  simp [total]

theorem services_foldl_add (u : Usage) (fs : List Footprint) :
    (fs.foldl add u).services = u.services + fs.length := by
  induction fs generalizing u with
  | nil => rfl
  | cons f fs ih => rw [List.foldl_cons, ih]; simp [add]; omega

theorem services_total (fs : List Footprint) : (total fs).services = fs.length := by
  simp [total, services_foldl_add, none]

end Usage

end Placement
