import Mathlib
import Placement.Proofs.Double.Sums
import Placement.Proofs.Interleaving
import Placement.Proofs.Scoring.Evaluation
import Placement.Proofs.Scoring.Weights

/-!
# Names of services

Renaming services changes the order in which a node adds up the processing units that they ask for.
Whole units are added exactly up to `2 ^ 53`, and memory is summed in any order, so for whole units
the names make no difference to what a node has in use, nor to how nodes are scored, ranked and
chosen. Requests of parts of a unit are not treated here; for these the order of a sum may show.
-/
namespace Placement
open Double

/-- The processing units that a footprint asks for, without a part of one. -/
noncomputable def Footprint.units (f : Footprint) : ℕ := ⌊value f.cpu⌋₊

theorem Footprint.value_eq_units {f : Footprint} (whole : IsWhole f.cpu) :
    value f.cpu = f.units := by
  obtain ⟨n, hn⟩ := whole
  rw [units, hn, Nat.floor_natCast]

theorem Footprint.value_cpu_whole (cpu : UInt32) (memory : UInt64) :
    value (whole cpu memory).cpu = cpu.toNat := by
  have hsmall : cpu.toNat ≤ 2 ^ 53 := cpu.toNat_lt.le.trans (by norm_num)
  exact (below_toFloat_uint32 cpu).2.trans
    (rounded_of_representable (representable_natCast hsmall))

theorem Footprint.units_whole (cpu : UInt32) (memory : UInt64) :
    (whole cpu memory).units = cpu.toNat := by
  rw [units, value_cpu_whole, Nat.floor_natCast]

namespace Usage

variable {fs gs : List Footprint}

/-- What is in use is exact while whole units make up a small sum. -/
theorem cpu_total_of_isWhole (whole : ∀ f ∈ fs, IsWhole f.cpu)
    (bound : (fs.map Footprint.units).sum ≤ 2 ^ 53) :
    (total fs).cpu = Float.ofNat (fs.map Footprint.units).sum := by
  have hunits : (fs.map fun f => value f.cpu).sum = ((fs.map Footprint.units).sum : ℕ) := by
    rw [Nat.cast_list_sum, List.map_map,
      List.map_congr_left fun f hf => Footprint.value_eq_units (whole f hf)]
    rfl
  have hstart : IsWhole 0.0 := ⟨0, by rw [value_zero, Nat.cast_zero]⟩
  have hbound : value 0.0 + (fs.map fun f => value f.cpu).sum ≤ 2 ^ 53 := by
    rw [value_zero, zero_add, hunits]
    exact_mod_cast bound
  obtain ⟨hamount, hvalue⟩ := foldl_add_of_isWhole (g := Footprint.cpu) amount_zero hstart
    (fun f hf => ⟨f.admissible.finite, whole f hf⟩) hbound
  obtain ⟨hunit, hexact⟩ := amount_ofNat bound
  rw [total, cpu_foldl_add]
  apply hamount.ext hunit
  rw [hexact, hvalue, value_zero, zero_add, hunits]

theorem total_perm_of_isWhole (perm : fs.Perm gs) (whole : ∀ f ∈ fs, IsWhole f.cpu)
    (bound : (fs.map Footprint.units).sum ≤ 2 ^ 53) : total fs = total gs := by
  have hsum := (perm.map Footprint.units).sum_eq
  have hcpu : (total fs).cpu = (total gs).cpu := by
    rw [cpu_total_of_isWhole whole bound, hsum,
      cpu_total_of_isWhole (fun f hf => whole f (perm.mem_iff.mpr hf)) (hsum ▸ bound)]
  have hservices : (total fs).services = (total gs).services := by
    rw [services_total, services_total, perm.length_eq]
  have hmemory := memory_total_perm perm
  cases h : total fs
  cases h' : total gs
  simp_all

end Usage

namespace Scheduler

/-- The services of two schedulers correspond to each other: each service of the one is a service of
the other under its new name, on the same node and with the same request. -/
structure Renames (rename : String → String) (s t : Scheduler) : Prop where
  bijective : Set.BijOn rename {service | (s.usage? service).isSome}
    {service | (t.usage? service).isSome}
  kept : ∀ service r, s.usage? service = some r →
    t.usage? (rename service) = some { r with service := rename service }

section
variable {rename : String → String} {s t : Scheduler} {f : Footprint}

theorem mem_toList_of_usage? {service : String} {r : Record} (h : s.usage? service = some r) :
    r ∈ s.ledger.toList := (usage?_eq_some_iff.mp h).1

/-- Schedulers correspond if the records of one are those of the other under new names. -/
theorem renames_of_perm
    (h : (s.ledger.toList.map fun r => { r with service := rename r.service }).Perm
      t.ledger.toList) : Renames rename s t := by
  have hkept : ∀ service r, s.usage? service = some r →
      t.usage? (rename service) = some { r with service := rename service } := by
    intro service r hr
    obtain rfl := service_of_usage? hr
    have hmem := h.mem_iff.mp (List.mem_map_of_mem (mem_toList_of_usage? hr))
    exact Ledger.mem_toList_iff.mp hmem
  refine ⟨⟨fun service hservice => ?_, fun a ha b hb heq => ?_, fun service hservice => ?_⟩, hkept⟩
  · obtain ⟨r, hr⟩ := Option.isSome_iff_exists.mp hservice
    exact Option.isSome_of_eq_some (hkept service r hr)
  · obtain ⟨r, hr⟩ := Option.isSome_iff_exists.mp ha
    obtain ⟨q, hq⟩ := Option.isSome_iff_exists.mp hb
    obtain rfl := service_of_usage? hr
    obtain rfl := service_of_usage? hq
    have hnames : ((s.ledger.toList.map fun r => { r with service := rename r.service }).map
        Record.service).Nodup :=
      (h.map Record.service).nodup_iff.mpr t.ledger.records.nodup_keys
    rw [List.map_map] at hnames
    rw [List.inj_on_of_nodup_map hnames (mem_toList_of_usage? hr) (mem_toList_of_usage? hq) heq]
  · obtain ⟨q, hq⟩ := Option.isSome_iff_exists.mp hservice
    obtain ⟨r, hr, rfl⟩ := List.mem_map.mp (h.mem_iff.mpr (mem_toList_of_usage? hq))
    exact ⟨r.service, Option.isSome_of_eq_some (Ledger.mem_toList_iff.mp hr),
      service_of_usage? hq⟩

section
variable (h : Renames rename s t)
include h

theorem Renames.mem_toList {q : Record} :
    q ∈ t.ledger.toList ↔
      ∃ r ∈ s.ledger.toList, { r with service := rename r.service } = q := by
  constructor
  · intro hq
    have husage : t.usage? q.service = some q := Ledger.mem_toList_iff.mp hq
    obtain ⟨service, hservice, hname⟩ := h.bijective.surjOn (Option.isSome_of_eq_some husage)
    obtain ⟨r, hr⟩ := Option.isSome_iff_exists.mp hservice
    obtain rfl := service_of_usage? hr
    have hkept := h.kept r.service r hr
    rw [hname, husage] at hkept
    refine ⟨r, mem_toList_of_usage? hr, ?_⟩
    rw [hname]
    exact (Option.some.inj hkept).symm
  · rintro ⟨r, hr, rfl⟩
    exact mem_toList_of_usage? (h.kept r.service r (Ledger.mem_toList_iff.mp hr))

theorem Renames.injOn : Set.InjOn (fun r : Record => { r with service := rename r.service })
    {r | r ∈ s.ledger.toList} := by
  intro r hr q hq heq
  have hr' : s.usage? r.service = some r := Ledger.mem_toList_iff.mp hr
  have hq' : s.usage? q.service = some q := Ledger.mem_toList_iff.mp hq
  have hservice := h.bijective.injOn (Option.isSome_of_eq_some hr') (Option.isSome_of_eq_some hq')
    (congrArg Record.service heq)
  rw [hservice, hq'] at hr'
  exact (Option.some.inj hr').symm

/-- A node hosts the same requests under other names, possibly in another order. -/
theorem Renames.hostedOn_perm (node : String) :
    ((s.ledger.hostedOn node).map Record.footprint).Perm
      ((t.ledger.hostedOn node).map Record.footprint) := by
  have hnodup (u : Scheduler) : (u.ledger.hostedOn node).Nodup :=
    (List.Nodup.of_map Record.service u.ledger.records.nodup_keys).filter _
  have hrenamed : ((s.ledger.hostedOn node).map
      fun r => { r with service := rename r.service }).Nodup := by
    refine (hnodup s).map_on fun r hr q hq => ?_
    exact h.injOn (Ledger.mem_hostedOn.mp hr).1 (Ledger.mem_hostedOn.mp hq).1
  have hperm : ((s.ledger.hostedOn node).map
      fun r => { r with service := rename r.service }).Perm (t.ledger.hostedOn node) := by
    rw [List.perm_ext_iff_of_nodup hrenamed (hnodup t)]
    intro q
    rw [List.mem_map, Ledger.mem_hostedOn, h.mem_toList]
    constructor
    · rintro ⟨r, hr, rfl⟩
      obtain ⟨hr, hnode⟩ := Ledger.mem_hostedOn.mp hr
      exact ⟨⟨r, hr, rfl⟩, hnode⟩
    · rintro ⟨⟨r, hr, rfl⟩, hnode⟩
      exact ⟨r, Ledger.mem_hostedOn.mpr ⟨hr, hnode⟩, rfl⟩
  have hfootprints := hperm.map Record.footprint
  rwa [List.map_map] at hfootprints

end

/-- The units that the services on a node ask for, added up exactly. -/
noncomputable def unitsOn (s : Scheduler) (node : String) : ℕ :=
  ((s.ledger.hostedOn node).map fun r => r.footprint.units).sum

/-- All services ask for whole units, and those on one node not for too many. -/
structure WholeRequests (s : Scheduler) : Prop where
  whole : ∀ service r, s.usage? service = some r → IsWhole r.footprint.cpu
  bounded : ∀ node ∈ s.nodeNames, s.unitsOn node ≤ 2 ^ 53

section
variable {node : String}

theorem WholeRequests.isWhole (h : s.WholeRequests) (node : String) :
    ∀ f ∈ (s.ledger.hostedOn node).map Record.footprint, IsWhole f.cpu := by
  intro f hf
  obtain ⟨r, hr, rfl⟩ := List.mem_map.mp hf
  exact h.whole r.service r (Ledger.mem_toList_iff.mp (Ledger.mem_hostedOn.mp hr).1)

theorem WholeRequests.sum_le (h : s.WholeRequests) (hnode : node ∈ s.nodeNames) :
    (((s.ledger.hostedOn node).map Record.footprint).map Footprint.units).sum ≤ 2 ^ 53 := by
  rw [List.map_map]
  exact h.bounded node hnode

theorem WholeRequests.cpu_usageOf (h : s.WholeRequests) (hnode : node ∈ s.nodeNames) :
    (s.ledger.usageOf node).cpu = Float.ofNat (s.unitsOn node) := by
  rw [Ledger.usageOf, Usage.cpu_total_of_isWhole (h.isWhole node) (h.sum_le hnode), List.map_map]
  rfl

theorem Renames.usageOf (h : Renames rename s t) (requests : s.WholeRequests)
    (hnode : node ∈ s.nodeNames) : s.ledger.usageOf node = t.ledger.usageOf node :=
  Usage.total_perm_of_isWhole (h.hostedOn_perm node) (requests.isWhole node)
    (requests.sum_le hnode)

end

/-- Weights decide how a scheduler judges. -/
theorem Reachable.engine_eq (hs : s.Reachable) (ht : t.Reachable)
    (weights : s.engine.weights = t.engine.weights) : s.engine = t.engine := by
  obtain ⟨w, hw⟩ := hs.accepted
  obtain ⟨v, hv⟩ := ht.accepted
  obtain ⟨-, hengine⟩ := Engine.ofWeights_eq_ok_iff.mp hw
  obtain ⟨-, hengine'⟩ := Engine.ofWeights_eq_ok_iff.mp hv
  rw [hengine, hengine'] at weights ⊢
  obtain rfl : w = v := weights
  rfl

/-- If all services ask for whole units, and those on one node not for more than `2 ^ 53` together,
then their names are without influence: what is in use on a node is exact, and it is the same under
other names, and so are the evaluation, the ranking and the choice for every footprint. -/
theorem service_names_make_no_difference (hs : s.Reachable) (ht : t.Reachable)
    (weights : s.engine.weights = t.engine.weights)
    (nodes : ∀ name, s.capacity? name = t.capacity? name) (renames : Renames rename s t)
    (requests : s.WholeRequests) :
    (∀ name, s.usageOfNode? name = t.usageOfNode? name) ∧
      (∀ name u, s.usageOfNode? name = some u → u.cpu = Float.ofNat (s.unitsOn name)) ∧
      ∀ f, s.engine.evaluate s.registry s.ledger f = t.engine.evaluate t.registry t.ledger f ∧
        s.rankNodes f = t.rankNodes f ∧ s.bestNode? f = t.bestNode? f := by
  have hregistry : s.registry = t.registry := Registry.ext_capacity? nodes
  have hmem {name : String} (h : s.registry.contains name = true) : name ∈ s.nodeNames :=
    Catalog.mem_keys.mpr h
  have hevaluate (f : Footprint) : s.engine.evaluate s.registry s.ledger f =
      t.engine.evaluate t.registry t.ledger f := by
    rw [← hs.engine_eq ht weights, ← hregistry]
    apply s.engine.evaluate_congr
    intro n hn
    exact renames.usageOf requests (hmem (Registry.contains_iff.mpr ⟨n, hn, rfl⟩))
  have hrank (f : Footprint) : s.rankNodes f = t.rankNodes f :=
    congrArg NodeScore.rank (hevaluate f)
  refine ⟨fun name => ?_, fun name u hu => ?_, fun f => ⟨hevaluate f, hrank f, ?_⟩⟩
  · rw [usageOfNode?, usageOfNode?, ← hregistry]
    split
    · next h => rw [renames.usageOf requests (hmem h)]
    · rfl
  · rw [usageOfNode?] at hu
    split at hu
    · next h =>
      cases hu
      exact requests.cpu_usageOf (hmem h)
    · cases hu
  · rw [bestNode?, bestNode?, hrank f]

end

/-- Two nodes with whole requests, two of them on one node. -/
def forward : Scheduler :=
  empty.run [.addNode ⟨"a", ⟨4, 64⟩⟩, .addNode ⟨"b", ⟨7, 32⟩⟩,
    .addUsage ⟨"p", "a", .whole 0xFFFFFFFF 0xFFFFFFFFFFFFFFFF⟩, .addUsage ⟨"q", "b", .whole 2 8⟩,
    .addUsage ⟨"r", "a", .whole 1 16⟩]

/-- The same requests under names in the opposite order, of which one has been on the other node. -/
def backward : Scheduler :=
  empty.run [.addNode ⟨"b", ⟨7, 32⟩⟩, .addUsage ⟨"z", "b", .whole 3 3⟩, .addNode ⟨"a", ⟨4, 64⟩⟩,
    .addUsage ⟨"x", "a", .whole 1 16⟩, .addUsage ⟨"y", "b", .whole 2 8⟩,
    .addUsage ⟨"z", "a", .whole 0xFFFFFFFF 0xFFFFFFFFFFFFFFFF⟩]

def turn (service : String) : String :=
  if service = "p" then "z" else if service = "q" then "y" else "x"

theorem wholeRequests_forward : forward.WholeRequests := by
  have hrecords : forward.ledger.toList = [⟨"p", "a", .whole 0xFFFFFFFF 0xFFFFFFFFFFFFFFFF⟩,
      ⟨"q", "b", .whole 2 8⟩, ⟨"r", "a", .whole 1 16⟩] := rfl
  constructor
  · intro service r hr
    have hmem := mem_toList_of_usage? hr
    rw [hrecords] at hmem
    simp only [List.mem_cons, List.not_mem_nil, or_false] at hmem
    rcases hmem with rfl | rfl | rfl <;> exact ⟨_, Footprint.value_cpu_whole _ _⟩
  · intro node hnode
    have hnodes : forward.nodeNames = ["a", "b"] := by decide +kernel
    rw [hnodes] at hnode
    simp only [List.mem_cons, List.not_mem_nil, or_false] at hnode
    rcases hnode with rfl | rfl <;>
      simp [unitsOn, Ledger.hostedOn, hrecords, Footprint.units_whole]

theorem service_names_make_no_difference_backward :
    forward.usageOfNode? "a" = backward.usageOfNode? "a" ∧
      (∃ u, forward.usageOfNode? "a" = some u ∧ u.cpu = Float.ofNat 4294967296) ∧
      forward.rankNodes (.whole 5 7) = backward.rankNodes (.whole 5 7) := by
  have hs : forward.Reachable := (Reachable.initial .empty).run _
  have ht : backward.Reachable := (Reachable.initial .empty).run _
  have hrenames : Renames turn forward backward :=
    renames_of_perm (List.reverse_perm _).symm
  have hregistry : forward.registry = backward.registry := rfl
  obtain ⟨husage, hexact, hsame⟩ := service_names_make_no_difference hs ht rfl
    (fun name => congrArg (Registry.capacity? · name) hregistry) hrenames wholeRequests_forward
  obtain ⟨u, hu⟩ : ∃ u, forward.usageOfNode? "a" = some u := ⟨_, rfl⟩
  refine ⟨husage "a", ⟨u, hu, ?_⟩, (hsame (.whole 5 7)).2.1⟩
  rw [hexact "a" u hu]
  have hrecords : forward.ledger.hostedOn "a" =
      [⟨"p", "a", .whole 0xFFFFFFFF 0xFFFFFFFFFFFFFFFF⟩, ⟨"r", "a", .whole 1 16⟩] := rfl
  rw [unitsOn, hrecords]
  simp [Footprint.units_whole]

end Scheduler

end Placement
