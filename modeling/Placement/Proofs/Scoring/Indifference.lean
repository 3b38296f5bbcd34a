import Mathlib
import Placement.Proofs.Reachability
import Placement.Proofs.Scoring.Magnitude

/-!
# Resources without weight

Criteria of weight zero are computed like all others, and what they come to is multiplied by zero.
Every number on the way is finite, so zero is what comes of it, in every row and in both ideal
points; and adding the square of zero changes no distance. Two domains that differ in nothing but a
resource without weight are therefore scored alike, to the last bit. Weights that are so small that
their shares vanish are not treated here.
-/
namespace Placement.Topsis
open Double

section
variable {n : ℕ} {ι : Type} {criteria : Criteria n} {names : List ι} {f g : ι → Vector Float n}

/-- Two tables with rows of the same names, whose points agree. -/
def Agree (criteria : Criteria n) (names : List ι) (f g : ι → Vector Float n) : Prop :=
  ∀ a ∈ names, ∀ i : Fin n,
    value ((point criteria (names.map f) (f a)).get i) =
      value ((point criteria (names.map g) (g a)).get i)

theorem Agree.symm (agree : Agree criteria names f g) : Agree criteria names g f :=
  fun a ha i => (agree a ha i).symm

theorem map_ne_nil (hne : names ≠ []) (f : ι → Vector Float n) : names.map f ≠ [] :=
  mt List.map_eq_nil_iff.mp hne

variable (hf : Comparable criteria (names.map f)) (hg : Comparable criteria (names.map g))
include hf hg

/-- Points agree if every criterion has no weight or the same column. -/
theorem agree_of_unweighted (h : ∀ i : Fin n, value (criteria.toVector.get i).weight = 0 ∨
    ∀ a ∈ names, (f a).get i = (g a).get i) : Agree criteria names f g := by
  intro a ha i
  rw [(point_spec hf (List.mem_map_of_mem ha) i).2, (point_spec hg (List.mem_map_of_mem ha) i).2]
  rcases h i with hzero | hsame
  · rw [hzero, mul_zero, mul_zero]
  · have hcolumn : column (names.map f) i = column (names.map g) i := by
      simp only [column, List.map_map]
      exact List.map_congr_left hsame
    rw [hcolumn, hsame a ha]

theorem merit_best_le (agree : Agree criteria names f g) (hne : names ≠ []) (i : Fin n) :
    merit criteria (best criteria (weighted criteria (names.map f))) i ≤
      merit criteria (best criteria (weighted criteria (names.map g))) i := by
  obtain ⟨⟨r, hr, heq⟩, -⟩ := best_spec hf (map_ne_nil hne f) i
  obtain ⟨a, ha, rfl⟩ := List.mem_map.mp hr
  have hle := (best_spec hg (map_ne_nil hne g) i).2 (g a) (List.mem_map_of_mem ha)
  unfold merit at hle ⊢
  rwa [heq, agree a ha i]

theorem merit_worst_le (agree : Agree criteria names f g) (hne : names ≠ []) (i : Fin n) :
    merit criteria (worst criteria (weighted criteria (names.map f))) i ≤
      merit criteria (worst criteria (weighted criteria (names.map g))) i := by
  obtain ⟨⟨r, hr, heq⟩, -⟩ := worst_spec hg (map_ne_nil hne g) i
  obtain ⟨a, ha, rfl⟩ := List.mem_map.mp hr
  have hle := (worst_spec hf (map_ne_nil hne f) i).2 (f a) (List.mem_map_of_mem ha)
  unfold merit at hle ⊢
  rwa [heq, ← agree a ha i]

theorem value_best_eq (agree : Agree criteria names f g) (hne : names ≠ []) (i : Fin n) :
    value ((best criteria (weighted criteria (names.map f))).get i) =
      value ((best criteria (weighted criteria (names.map g))).get i) :=
  Criterion.eq_of_merit_eq (c := criteria.toVector.get i)
    (le_antisymm (merit_best_le hf hg agree hne i) (merit_best_le hg hf agree.symm hne i))

theorem value_worst_eq (agree : Agree criteria names f g) (hne : names ≠ []) (i : Fin n) :
    value ((worst criteria (weighted criteria (names.map f))).get i) =
      value ((worst criteria (weighted criteria (names.map g))).get i) :=
  Criterion.eq_of_merit_eq (c := criteria.toVector.get i)
    (le_antisymm (merit_worst_le hf hg agree hne i) (merit_worst_le hg hf agree.symm hne i))

/-- Where points agree, so do distances and scores. -/
theorem score_eq_of_agree (agree : Agree criteria names f g) {a : ι} (ha : a ∈ names) :
    score criteria (names.map f) (f a) = score criteria (names.map g) (g a) := by
  have hne := List.ne_nil_of_mem ha
  have hfa : f a ∈ names.map f := List.mem_map_of_mem ha
  have hga : g a ∈ names.map g := List.mem_map_of_mem ha
  have hpoint := agree a ha
  have hbest : toBest criteria (names.map f) (f a) = toBest criteria (names.map g) (g a) :=
    (below_toBest hf hfa).amount.ext (below_toBest hg hga).amount
      (distance_congr (by norm_num) (within_point hf hfa) (within_point hg hga)
        (within_best hf (map_ne_nil hne f)) (within_best hg (map_ne_nil hne g)) hpoint
        (value_best_eq hf hg agree hne))
  have hworst : toWorst criteria (names.map f) (f a) = toWorst criteria (names.map g) (g a) :=
    (below_toWorst hf hfa).amount.ext (below_toWorst hg hga).amount
      (distance_congr (by norm_num) (within_point hf hfa) (within_point hg hga)
        (within_worst hf (map_ne_nil hne f)) (within_worst hg (map_ne_nil hne g)) hpoint
        (value_worst_eq hf hg agree hne))
  exact congrArg₂ closeness hbest hworst

end

end Placement.Topsis

namespace Placement
open Double

namespace Engine
variable {registry : Registry} {ledger : Ledger} {f : Footprint}

/-- The criteria values of placing a footprint on the node of that name. -/
def row (registry : Registry) (ledger : Ledger) (f : Footprint) (name : String) : Vector Float 4 :=
  (Breakdown.ofLoads (projected registry ledger f name)).toVector

theorem rows_eq_map_row (registry : Registry) (ledger : Ledger) (f : Footprint) :
    rows registry ledger f = registry.names.map (row registry ledger f) := by
  change _ = (registry.toList.map Node.name).map (row registry ledger f)
  rw [rows, alternatives_eq_map, List.map_map, List.map_map]
  rfl

theorem scoreNodes_eq_map (e : Engine) (registry : Registry) (ledger : Ledger) (f : Footprint) :
    e.scoreNodes registry ledger f = registry.names.map fun name =>
      (name, Topsis.score e.criteria (registry.names.map (row registry ledger f))
        (row registry ledger f name)) := by
  rw [← map_node_evaluate e registry ledger f, List.map_map, map_node_evaluate,
    ← rows_eq_map_row]
  refine List.map_congr_left fun x hx => ?_
  obtain ⟨n, -, hnode, -, hbreakdown⟩ := mem_evaluate hx
  rw [score_of_mem_evaluate hx, hbreakdown, ← hnode]
  rfl

end Engine

theorem map_eq_of_keys {α β κ : Type} (key : α → κ) {f g : α → β} {l l' : List α}
    (keys : l.map key = l'.map key)
    (h : ∀ a ∈ l, ∀ b ∈ l', key a = key b → f a = g b) : l.map f = l'.map g := by
  induction l generalizing l' with
  | nil => rw [List.map_eq_nil_iff.mp keys.symm]; rfl
  | cons a l ih =>
    cases l' with
    | nil => cases keys
    | cons b l' =>
      obtain ⟨hkey, hkeys⟩ := List.cons.inj keys
      have hhead := h a List.mem_cons_self b List.mem_cons_self hkey
      have htail := ih hkeys fun a ha b hb =>
        h a (List.mem_cons_of_mem _ ha) b (List.mem_cons_of_mem _ hb)
      rw [List.map_cons, List.map_cons, hhead, htail]

namespace Scheduler

/-- Domains of the same nodes, with the same capacity and the same usage of one resource. -/
structure Alike {α β : Type} (capacity : Capacity → α) (usage : Usage → β) (s t : Scheduler) :
    Prop where
  names : s.nodeNames = t.nodeNames
  capacities : ∀ name, (s.capacity? name).map capacity = (t.capacity? name).map capacity
  usages : ∀ name, (s.usageOfNode? name).map usage = (t.usageOfNode? name).map usage

variable {s t : Scheduler} {f g : Footprint}

theorem usageOfNode?_eq_find (s : Scheduler) (name : String) :
    s.usageOfNode? name =
      (s.registry.toList.find? (·.name == name)).map fun n => s.ledger.usageOf n.name := by
  change (if (s.registry.toList.find? (·.name == name)).isSome then _ else _) = _
  cases h : s.registry.toList.find? (·.name == name) with
  | none => rfl
  | some n =>
    have hname : n.name = name := by simpa using List.find?_some h
    rw [Option.map_some, hname]
    rfl

/-- Domains are alike if one list says the same of both. -/
theorem alike_of_map_eq {α β : Type} {capacity : Capacity → α} {usage : Usage → β}
    (h : (s.registry.toList.map fun n =>
        (n.name, capacity n.capacity, usage (s.ledger.usageOf n.name))) =
      t.registry.toList.map fun n =>
        (n.name, capacity n.capacity, usage (t.ledger.usageOf n.name))) :
    Alike capacity usage s t := by
  have hfind := fun name : String => congrArg (List.find? (·.1 == name)) h
  simp only [List.find?_map] at hfind
  constructor
  case names =>
    have hnames := congrArg (List.map Prod.fst) h
    rw [List.map_map, List.map_map] at hnames
    exact hnames
  case capacities =>
    intro name
    have hname := congrArg (Option.map (·.2.1)) (hfind name)
    rw [Option.map_map, Option.map_map] at hname
    unfold capacity? Registry.capacity? Catalog.get?
    rw [Option.map_map, Option.map_map]
    exact hname
  case usages =>
    intro name
    have hname := congrArg (Option.map (·.2.2)) (hfind name)
    rw [Option.map_map, Option.map_map] at hname
    rw [usageOfNode?_eq_find, usageOfNode?_eq_find, Option.map_map, Option.map_map]
    exact hname

theorem capacity?_of_mem {n : Node} (h : n ∈ s.registry.toList) :
    s.capacity? n.name = some n.capacity := by
  have hget : s.registry.nodes.get? n.name = some n := Catalog.mem_iff_get?.mp h
  rw [capacity?, Registry.capacity?, hget]
  rfl

theorem usageOfNode?_of_mem {n : Node} (h : n ∈ s.registry.toList) :
    s.usageOfNode? n.name = some (s.ledger.usageOf n.name) :=
  if_pos (Registry.contains_iff.mpr ⟨n, h, rfl⟩)

section
variable {α β : Type} {capacity : Capacity → α} {usage : Usage → β}
  (alike : Alike capacity usage s t)
include alike

theorem Alike.load {n m : Node} (hn : n ∈ s.registry.toList) (hm : m ∈ t.registry.toList)
    (hname : n.name = m.name) :
    capacity n.capacity = capacity m.capacity ∧
      usage (s.ledger.usageOf n.name) = usage (t.ledger.usageOf m.name) := by
  have hcapacity := alike.capacities n.name
  have husage := alike.usages n.name
  have hcapacity' : t.capacity? n.name = some m.capacity := by rw [hname, capacity?_of_mem hm]
  have husage' : t.usageOfNode? n.name = some (t.ledger.usageOf m.name) := by
    rw [hname, usageOfNode?_of_mem hm]
  rw [capacity?_of_mem hn, hcapacity'] at hcapacity
  rw [usageOfNode?_of_mem hn, husage'] at husage
  exact ⟨Option.some.inj hcapacity, Option.some.inj husage⟩

/-- Fractions in use that depend on one resource are the same where that resource is. -/
theorem Alike.fractions {fraction : Load → Float}
    (same : ∀ l m : Load, l.Regular → capacity l.capacity = capacity m.capacity →
      usage l.usage = usage m.usage →
        fraction l = fraction m ∧ fraction (l.host f) = fraction (m.host g)) (name : String) :
    (Engine.projected s.registry s.ledger f name).map fraction =
      (Engine.projected t.registry t.ledger g name).map fraction := by
  unfold Engine.projected
  rw [List.map_map, List.map_map]
  refine map_eq_of_keys Node.name alike.names fun n hn m hm hname => ?_
  obtain ⟨hcapacity, husage⟩ := alike.load hn hm hname
  obtain ⟨hplain, hhosting⟩ := same (Engine.load s.ledger n) (Engine.load t.ledger m)
    (Engine.regular_load hn s.ledger) hcapacity husage
  dsimp only [Function.comp_apply]
  rw [← hname]
  split
  · exact hhosting
  · exact hplain

end

/-- A usage takes in equal amounts alike, also if one of them is negative zero. -/
theorem cpuFraction_eq (hcpu : (f.cpu == g.cpu) = true) (l m : Load) (hl : l.Regular)
    (hcapacity : l.capacity.cpu = m.capacity.cpu) (husage : l.usage.cpu = m.usage.cpu) :
    l.cpuFraction = m.cpuFraction ∧ (l.host f).cpuFraction = (m.host g).cpuFraction := by
  have hsum : l.usage.cpu + f.cpu = l.usage.cpu + g.cpu := by
    obtain ⟨hleft, hvalue⟩ := hl.cpu_add f
    obtain ⟨hright, hvalue'⟩ := hl.cpu_add g
    apply hleft.amount.ext hright.amount
    rw [hvalue, hvalue', (beq_iff_value f.admissible.finite g.admissible.finite).mp hcpu]
  unfold Load.cpuFraction Load.host Usage.add
  rw [← husage, ← hcapacity]
  exact ⟨rfl, congrArg (· / l.capacity.cpu.toFloat) hsum⟩

theorem memoryFraction_eq (hmemory : f.memory = g.memory) (l m : Load) (_ : l.Regular)
    (hcapacity : l.capacity.memory = m.capacity.memory)
    (husage : l.usage.memory = m.usage.memory) :
    l.memoryFraction = m.memoryFraction ∧
      (l.host f).memoryFraction = (m.host g).memoryFraction := by
  unfold Load.memoryFraction Load.host Usage.add
  rw [husage, hcapacity, hmemory]
  exact ⟨rfl, rfl⟩

/-- Columns of criteria without weight may differ. -/
theorem scoreNodes_eq_of_unweighted (hs : s.Reachable) (ht : t.Reachable)
    (weights : s.engine.weights = t.engine.weights) (names : s.nodeNames = t.nodeNames)
    (h : ∀ i : Fin 4, ((s.engine.weights.named.get i).2 == 0.0) = true ∨
      ∀ name, (Engine.row s.registry s.ledger f name).get i =
        (Engine.row t.registry t.ledger g name).get i) :
    s.scoreNodes f = t.scoreNodes g := by
  obtain ⟨w, hw⟩ := hs.accepted
  obtain ⟨v, hv⟩ := ht.accepted
  obtain ⟨accepted, hengine⟩ := Engine.ofWeights_eq_ok_iff.mp hw
  obtain ⟨-, hengine'⟩ := Engine.ofWeights_eq_ok_iff.mp hv
  rw [hengine, hengine'] at weights
  obtain rfl : w = v := weights
  rw [hengine] at h
  have hleft := (Engine.moderate_rows s.registry s.ledger f).comparable accepted.lessening
  have hright := (Engine.moderate_rows t.registry t.ledger g).comparable accepted.lessening
  rw [Engine.rows_eq_map_row] at hleft hright
  change s.registry.names = t.registry.names at names
  rw [← names] at hright
  have agree := Topsis.agree_of_unweighted hleft hright fun i =>
    (h i).imp accepted.value_scaled_of_beq fun hsame name _ => hsame name
  unfold scoreNodes
  rw [Engine.scoreNodes_eq_map, Engine.scoreNodes_eq_map, ← names, hengine, hengine']
  refine List.map_congr_left fun name hname => ?_
  rw [Topsis.score_eq_of_agree hleft hright agree hname]

/-- What is without weight is without influence: scores depend on nothing but the names of nodes and
the capacity, the usage and the request of what has weight. -/
theorem unweighted_resources_make_no_difference (hs : s.Reachable) (ht : t.Reachable)
    (weights : s.engine.weights = t.engine.weights) (f g : Footprint) :
    ((s.engine.weights.averageMemory == 0.0) = true →
      (s.engine.weights.highestMemory == 0.0) = true → Alike Capacity.cpu Usage.cpu s t →
        (f.cpu == g.cpu) = true →
          (s.engine.evaluate s.registry s.ledger f).map (fun x => (x.node, x.score)) =
            (t.engine.evaluate t.registry t.ledger g).map fun x => (x.node, x.score)) ∧
    ((s.engine.weights.averageCpu == 0.0) = true →
      (s.engine.weights.highestCpu == 0.0) = true → Alike Capacity.memory Usage.memory s t →
        f.memory = g.memory →
          (s.engine.evaluate s.registry s.ledger f).map (fun x => (x.node, x.score)) =
            (t.engine.evaluate t.registry t.ledger g).map fun x => (x.node, x.score)) := by
  refine ⟨fun haverage hhighest alike hcpu => ?_, fun haverage hhighest alike hmemory => ?_⟩
  · refine scoreNodes_eq_of_unweighted hs ht weights alike.names fun i => ?_
    have hfractions := alike.fractions (cpuFraction_eq hcpu)
    match i with
    | 0 => exact .inr fun name => congrArg (1.0 + Breakdown.quadraticMean ·) (hfractions name)
    | 1 => exact .inr fun name => congrArg (1.0 + Breakdown.peak ·) (hfractions name)
    | 2 => exact .inl haverage
    | 3 => exact .inl hhighest
  · refine scoreNodes_eq_of_unweighted hs ht weights alike.names fun i => ?_
    have hfractions := alike.fractions (memoryFraction_eq hmemory)
    match i with
    | 0 => exact .inl haverage
    | 1 => exact .inl hhighest
    | 2 => exact .inr fun name => congrArg (1.0 + Breakdown.quadraticMean ·) (hfractions name)
    | 3 => exact .inr fun name => congrArg (1.0 + Breakdown.peak ·) (hfractions name)

/-- Weights of one resource; a weight may be negative zero. -/
def cpuOnly : Weights := ⟨1.0, 2.0, 0.0, -0.0⟩

def memoryOnly : Weights := ⟨0.0, 0.0, 5.0, 10.0⟩

theorem reachable_of_accepted {w : Weights} (accepted : w.Accepted) (ops : List Operation) :
    ((ofEngine ⟨w, .scaled w.signed⟩).run ops).Reachable := by
  have origin : ofWeights w = .ok (ofEngine ⟨w, .scaled w.signed⟩) := by
    rw [ofWeights, Engine.ofWeights_eq_ok_iff.mpr ⟨accepted, rfl⟩]
    rfl
  exact (Reachable.initial (.ofWeights origin)).run ops

/-- Two nodes with some processing units and memory, one of them in use. -/
def pair (w : Weights) (a b : Capacity) (f : Footprint) : Scheduler :=
  (ofEngine ⟨w, .scaled w.signed⟩).run
    [.addNode ⟨"b", b⟩, .addNode ⟨"a", a⟩, .addUsage ⟨"x", "a", f⟩]

/-- Two domains that agree in nothing but processing units, and two that do so in memory. -/
theorem unweighted_resources_make_no_difference_pairs :
    (pair cpuOnly ⟨4, 8⟩ ⟨2, 16⟩ (.whole 3 2)).scoreNodes (.whole 1 5) =
        (pair cpuOnly ⟨4, 1⟩ ⟨2, 0xFFFFFFFFFFFFFFFF⟩
          (.whole 3 0xFFFFFFFFFFFFFFFF)).scoreNodes (.whole 1 0) ∧
      (pair memoryOnly ⟨4, 8⟩ ⟨2, 16⟩ (.whole 3 2)).scoreNodes (.whole 1 5) =
        (pair memoryOnly ⟨1, 8⟩ ⟨0xFFFFFFFF, 16⟩ (.whole 0 2)).scoreNodes
          (.whole 0xFFFFFFFF 5) := by
  have cpu : cpuOnly.Accepted := ⟨by decide +kernel, by decide +kernel, by decide +kernel⟩
  have memory : memoryOnly.Accepted := ⟨by decide +kernel, by decide +kernel, by decide +kernel⟩
  constructor
  · exact (unweighted_resources_make_no_difference (reachable_of_accepted cpu _)
      (reachable_of_accepted cpu _) (by rw [engine_run, engine_run]) (.whole 1 5)
      (.whole 1 0)).1 (by decide +kernel) (by decide +kernel)
      (alike_of_map_eq (by decide +kernel)) (by decide +kernel)
  · exact (unweighted_resources_make_no_difference (reachable_of_accepted memory _)
      (reachable_of_accepted memory _) (by rw [engine_run, engine_run]) (.whole 1 5)
      (.whole 0xFFFFFFFF 5)).2 (by decide +kernel) (by decide +kernel)
      (alike_of_map_eq (by decide +kernel)) rfl

end Scheduler

end Placement
