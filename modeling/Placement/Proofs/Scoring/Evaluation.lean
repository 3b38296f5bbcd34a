import Placement.Proofs.Accounts
import Placement.Proofs.Text.ByteOrder
import Placement.Scoring.Engine

/-!
# What evaluation reports

Evaluation reports the registered nodes in the order of their names, each with its own capacity and
with the criteria values of the domain in which the candidate runs on that node. The three lists it
is put together from never get out of step. What the scores are is a matter of the criteria values
alone and is not treated here.
-/
namespace Placement.Engine

/-- The load of a registered node. -/
def load (ledger : Ledger) (n : Node) : Load := ⟨n.capacity, ledger.usageOf n.name⟩

/-- The loads of the domain with the candidate on the node of that name. -/
def projected (registry : Registry) (ledger : Ledger) (f : Footprint) (name : String) :
    List Load :=
  registry.toList.map fun n =>
    if n.name = name then (load ledger n).host f else load ledger n

theorem loads_eq_map (registry : Registry) (ledger : Ledger) :
    loads registry ledger = registry.toList.map (load ledger) := by
  unfold loads
  refine List.map_congr_left fun n _ => ?_
  rw [Ledger.usageOf_accounts]
  rfl

/-- Evaluation looks at what is in use on the registered nodes, and at nothing else of a ledger. -/
theorem evaluate_congr (e : Engine) {registry : Registry} {ledger other : Ledger}
    (usage : ∀ n ∈ registry.toList, ledger.usageOf n.name = other.usageOf n.name) (f : Footprint) :
    e.evaluate registry ledger f = e.evaluate registry other f := by
  have hloads : loads registry ledger = loads registry other := by
    rw [loads_eq_map, loads_eq_map]
    exact List.map_congr_left fun n hn => congrArg (Load.mk n.capacity) (usage n hn)
  unfold evaluate
  rw [hloads]

/-- Where names differ, changing the entry at a position is changing the entry of a name. -/
theorem modify_map_of_ascending {β : Type} {nodes : List Node}
    (h : nodes.Pairwise (fun a b => a.name < b.name)) (f : Node → β) (g : β → β)
    (i : ℕ) (hi : i < nodes.length) :
    (nodes.map f).modify i g =
      nodes.map fun n => if n.name = nodes[i].name then g (f n) else f n := by
  induction nodes generalizing i with
  | nil => exact absurd hi (Nat.not_lt_zero i)
  | cons n nodes ih =>
    obtain ⟨head, tail⟩ := List.pairwise_cons.mp h
    cases i with
    | zero =>
      have hne : ∀ m ∈ nodes, ¬ m.name = n.name := fun m hm he =>
        absurd (head m hm) (he ▸ String.lt_irrefl _)
      simp only [List.map_cons, List.modify_zero_cons, List.getElem_cons_zero, if_true]
      congr 1
      refine List.map_congr_left fun m hm => ?_
      rw [if_neg (hne m hm)]
    | succ i =>
      have hi' : i < nodes.length := Nat.lt_of_succ_lt_succ hi
      have hlt : n.name < nodes[i].name := head nodes[i] (List.getElem_mem hi')
      have hne : ¬ n.name = nodes[i].name := fun he => by
        rw [he] at hlt
        exact String.lt_irrefl _ hlt
      simp only [List.map_cons, List.modify_succ_cons, List.getElem_cons_succ, if_neg hne]
      rw [ih tail i hi']

theorem ascending_toList (registry : Registry) :
    registry.toList.Pairwise (fun a b => a.name < b.name) :=
  registry.nodes.ascending

theorem alternatives_eq_map (registry : Registry) (ledger : Ledger) (f : Footprint) :
    Breakdown.alternatives f (loads registry ledger) =
      registry.toList.map fun n => Breakdown.ofLoads (projected registry ledger f n.name) := by
  apply List.ext_getElem
  · simp
  · intro i hi hj
    have hn : i < registry.toList.length := by simpa using hj
    simp only [Breakdown.alternatives, List.getElem_map, List.getElem_range, Breakdown.placing]
    rw [loads_eq_map,
      modify_map_of_ascending (ascending_toList registry) (load ledger) (Load.host f) i hn]
    rfl

theorem map_node_evaluate (e : Engine) (registry : Registry) (ledger : Ledger) (f : Footprint) :
    (e.evaluate registry ledger f).map NodeScore.node = registry.names := by
  apply List.ext_getElem
  · simp [Registry.names, Registry.toList, Catalog.keys]
  · intro i hi hj
    simp only [evaluate, List.getElem_map, List.getElem_zipWith, entry]
    simp [Registry.names, Registry.toList, Catalog.keys, Keyed.key]

theorem mem_evaluate {e : Engine} {registry : Registry} {ledger : Ledger} {f : Footprint}
    {x : NodeScore} (h : x ∈ e.evaluate registry ledger f) :
    ∃ n ∈ registry.toList, x.node = n.name ∧ x.capacity = n.capacity ∧
      x.breakdown = Breakdown.ofLoads (projected registry ledger f n.name) := by
  obtain ⟨i, hi, rfl⟩ := List.mem_iff_getElem.mp h
  have hn : i < registry.toList.length := by simpa using hi
  refine ⟨registry.toList[i], List.getElem_mem hn, ?_⟩
  simp only [evaluate, List.getElem_zipWith, List.getElem_zip, entry, alternatives_eq_map,
    List.getElem_map, true_and]

theorem nodup_names (registry : Registry) : registry.names.Nodup := registry.nodes.nodup_keys

theorem nodup_evaluate (e : Engine) (registry : Registry) (ledger : Ledger) (f : Footprint) :
    ((e.evaluate registry ledger f).map NodeScore.node).Nodup := by
  rw [map_node_evaluate]
  exact nodup_names registry

/-- Evaluation reports the names of the registered nodes in the order of their bytes. -/
theorem pairwise_evaluate (e : Engine) (registry : Registry) (ledger : Ledger) (f : Footprint) :
    (e.evaluate registry ledger f).Pairwise fun x y => Text.bytes x.node < Text.bytes y.node := by
  have hnames : registry.names.Pairwise (· < ·) := List.pairwise_map.mpr (ascending_toList registry)
  rw [← map_node_evaluate e registry ledger f] at hnames
  exact (List.pairwise_map.mp hnames).imp Text.bytes_lt

/-- What evaluation reports of capacities is what the registry knows of them. -/
theorem exists_entry_iff (e : Engine) (registry : Registry) (ledger : Ledger) (f : Footprint)
    (name : String) (c : Capacity) :
    (∃ x ∈ e.evaluate registry ledger f, x.node = name ∧ x.capacity = c) ↔
      registry.capacity? name = some c := by
  rw [Registry.capacity?, Option.map_eq_some_iff]
  constructor
  · rintro ⟨x, hx, rfl, rfl⟩
    obtain ⟨n, hn, hname, hcapacity, -⟩ := mem_evaluate hx
    exact ⟨n, Catalog.get?_eq_some_iff.mpr ⟨hn, hname.symm⟩, hcapacity.symm⟩
  · rintro ⟨n, hget, rfl⟩
    obtain ⟨hn, hname⟩ := Catalog.get?_eq_some_iff.mp hget
    have hmem : name ∈ (e.evaluate registry ledger f).map NodeScore.node := by
      rw [map_node_evaluate]
      exact Catalog.mem_keys.mpr (Catalog.contains_iff.mpr ⟨n, hget⟩)
    obtain ⟨x, hx, hnode⟩ := List.mem_map.mp hmem
    obtain ⟨other, hother, hname', hcapacity, -⟩ := mem_evaluate hx
    obtain rfl : other = n :=
      Catalog.eq_of_key_eq registry.nodes.ascending hother hn
        (hname'.symm.trans (hnode.trans hname.symm))
    exact ⟨x, hx, hnode, hcapacity⟩

theorem filter_eq_singleton {α : Type} {f : α → String} {l : List α} {k : String}
    (distinct : (l.map f).Nodup) (h : k ∈ l.map f) :
    ∃ x ∈ l, f x = k ∧ l.filter (f · == k) = [x] := by
  induction l with
  | nil => cases h
  | cons a l ih =>
    obtain ⟨hnot, hl⟩ := List.nodup_cons.mp distinct
    by_cases ha : f a = k
    · have hnone : l.filter (f · == k) = [] := by
        refine List.filter_eq_nil_iff.mpr fun b hb he => hnot ?_
        rw [ha, ← beq_iff_eq.mp he]
        exact List.mem_map_of_mem hb
      refine ⟨a, List.mem_cons_self, ha, ?_⟩
      rw [List.filter_cons, if_pos (beq_iff_eq.mpr ha), hnone]
    · have hk : k ∈ l.map f := by
        rcases List.mem_cons.mp h with rfl | hk
        · exact absurd rfl ha
        · exact hk
      obtain ⟨x, hx, hf, hl⟩ := ih hl hk
      refine ⟨x, List.mem_cons_of_mem a hx, hf, ?_⟩
      rw [List.filter_cons, if_neg (fun he => ha (beq_iff_eq.mp he)), hl]

/-- A registered node is reported once, with the criteria values of its projection. -/
theorem filter_evaluate {registry : Registry} {name : String} (e : Engine) (ledger : Ledger)
    (f : Footprint) (h : registry.contains name = true) :
    ∃ x, (e.evaluate registry ledger f).filter (·.node == name) = [x] ∧
      x.breakdown = Breakdown.ofLoads (projected registry ledger f name) := by
  have hnames := map_node_evaluate e registry ledger f
  have hmem : name ∈ (e.evaluate registry ledger f).map NodeScore.node := by
    rw [hnames]
    exact Catalog.mem_keys.mpr h
  obtain ⟨x, hx, rfl, hl⟩ := filter_eq_singleton (nodup_evaluate e registry ledger f) hmem
  obtain ⟨n, -, hn, -, hb⟩ := mem_evaluate hx
  exact ⟨x, hl, by rw [hn]; exact hb⟩

end Placement.Engine
