import Mathlib
import Placement.Proofs.Scoring.Placing
import Placement.Proofs.Scoring.Twins

/-!
# What a further service does to criteria values

A service that is recorded on a node lowers no criteria value of any alternative: sums, fractions,
means and peaks only grow with it, rounded as they are and wherever its footprint comes in the sum
of its node. The alternative of another node keeps the lower peaks if it had them. Where it is
nowhere worse than the alternative of the loaded node, the loaded node is not ahead, up to rounding.
What load in one resource does to a lead in the other one is not treated here.
-/
namespace Placement
open Double

namespace Load

/-- A load before and after, with no less in use after. -/
structure Grows (l m : Load) : Prop where
  before : l.Regular
  after : m.Regular
  more : l.NoMore m

section
variable {l m : Load}

theorem Regular.grows (h : l.Regular) : l.Grows l := by
  have hfinite := h.below_cpu.amount.finite
  exact ⟨h, h, rfl, (le_iff_value hfinite hfinite).mpr le_rfl, UInt64.le_refl _⟩

theorem Regular.grows_host (h : l.Regular) (f : Footprint) : l.Grows (l.host f) :=
  ⟨h, h.host f, noMore_host h f⟩

theorem Grows.host (h : l.Grows m) (f : Footprint) : (l.host f).Grows (m.host f) :=
  ⟨h.before.host f, h.after.host f, h.more.host h.before h.after f⟩

/-- One more footprint among those of a node, at any place. -/
theorem grows_insert {c : Capacity} (positive : c.Positive) (before after : List Footprint)
    (f : Footprint) :
    (⟨c, .total (before ++ after)⟩ : Load).Grows ⟨c, .total (before ++ f :: after)⟩ := by
  induction after using List.reverseRecOn with
  | nil =>
    rw [List.append_nil, Usage.total_append_singleton]
    exact Regular.grows_host ⟨positive, before, rfl⟩ f
  | append_singleton after g ih =>
    rw [← List.cons_append, ← List.append_assoc, ← List.append_assoc,
      Usage.total_append_singleton, Usage.total_append_singleton]
    exact ih.host g

end

end Load

namespace Breakdown

section
variable {fraction : Load → Float} (gauge : Load.Gauge fraction) {ls ms : List Load}
  (h : List.Forall₂ Load.Grows ls ms)
include gauge h

theorem forall₂_fractions :
    List.Forall₂ (fun x y => Below 86 x ∧ Below 86 y ∧ value x ≤ value y) (ls.map fraction)
      (ms.map fraction) := by
  rw [List.forall₂_map_left_iff, List.forall₂_map_right_iff]
  exact h.imp fun l m hlm => ⟨gauge.below l hlm.before, gauge.below m hlm.after,
    gauge.mono l m hlm.before hlm.after hlm.more⟩

theorem below_fractions_of_grows :
    (∀ x ∈ ls.map fraction, Below 86 x) ∧ ∀ y ∈ ms.map fraction, Below 86 y := by
  have hall := forall₂_fractions gauge h
  constructor
  · intro x hx
    obtain ⟨i, hi, rfl⟩ := List.getElem_of_mem hx
    exact ((List.forall₂_iff_get.mp hall).2 i hi (hall.length_eq ▸ hi)).1
  · intro y hy
    obtain ⟨i, hi, rfl⟩ := List.getElem_of_mem hy
    exact ((List.forall₂_iff_get.mp hall).2 i (hall.length_eq ▸ hi) hi).2.1

theorem peak_le_of_grows :
    1.0 + peak (ls.map fraction) ≤ 1.0 + peak (ms.map fraction) := by
  obtain ⟨hx, hy⟩ := below_fractions_of_grows gauge h
  refine one_add_mono (below_peak hx) (below_peak hy) (by norm_num) (peak_mono hx hy ?_)
  intro x hmem
  obtain ⟨i, hi, rfl⟩ := List.getElem_of_mem hmem
  have hall := forall₂_fractions gauge h
  have hi' : i < (ms.map fraction).length := hall.length_eq ▸ hi
  exact ⟨_, List.getElem_mem hi', ((List.forall₂_iff_get.mp hall).2 i hi hi').2.2⟩

theorem quadraticMean_le_of_grows (hne : ls ≠ []) :
    1.0 + quadraticMean (ls.map fraction) ≤ 1.0 + quadraticMean (ms.map fraction) := by
  obtain ⟨hx, hy⟩ := below_fractions_of_grows gauge h
  have hall := forall₂_fractions gauge h
  have hne' : ls.map fraction ≠ [] := mt List.map_eq_nil_iff.mp hne
  have hne'' : ms.map fraction ≠ [] := by
    rw [← List.length_pos_iff, ← hall.length_eq]
    exact List.length_pos_iff.mpr hne'
  have hsquares : value (addSquares 0.0 (ls.map fraction)) ≤
      value (addSquares 0.0 (ms.map fraction)) := by
    refine addSquares_mono (k := 86) (by norm_num) (below_zero _) (below_zero _) le_rfl
      (fun x hmem => (hx x hmem).within) (fun y hmem => (hy y hmem).within) ?_
    refine hall.imp fun x y ⟨hx, hy, hle⟩ => ?_
    rwa [abs_of_nonneg hx.amount.nonneg, abs_of_nonneg hy.amount.nonneg]
  exact one_add_mono (below_quadraticMean hne' hx (by norm_num))
    (below_quadraticMean hne'' hy (by norm_num)) (by norm_num)
    (quadraticMean_mono (by norm_num) hne' hall.length_eq hx hy hsquares)

end

theorem one_add_le_trans {x y z : Float} (hx : Below 86 x) (hy : Below 86 y) (hz : Below 86 z)
    (hxy : 1.0 + x ≤ 1.0 + y) (hyz : 1.0 + y ≤ 1.0 + z) : 1.0 + x ≤ 1.0 + z := by
  have finite {w : Float} (hw : Below 86 w) : (1.0 + w).isFinite = true :=
    (below_one_add hw (by norm_num)).1.amount.finite
  rw [le_iff_value (finite hx) (finite hy)] at hxy
  rw [le_iff_value (finite hy) (finite hz)] at hyz
  exact (le_iff_value (finite hx) (finite hz)).mpr (hxy.trans hyz)

theorem one_add_peak_le {xs ys : List Float} (hx : ∀ x ∈ xs, Below 86 x)
    (hy : ∀ y ∈ ys, Below 86 y) (h : ∀ x ∈ xs, 1.0 + x ≤ 1.0 + peak ys) :
    1.0 + peak xs ≤ 1.0 + peak ys := by
  rcases List.mem_cons.mp (peak_spec hx).1 with hzero | hmem
  · rw [hzero]
    exact one_add_mono (below_zero 86) (below_peak hy) (by norm_num)
      ((peak_spec hy).2 0.0 List.mem_cons_self)
  · exact h _ hmem

theorem one_add_le_peak {ys : List Float} (hy : ∀ y ∈ ys, Below 86 y) {x y : Float}
    (hx : Below 86 x) (hmem : y ∈ ys) (h : value x ≤ value y) : 1.0 + x ≤ 1.0 + peak ys :=
  one_add_mono hx (below_peak hy) (by norm_num)
    (h.trans ((peak_spec hy).2 y (List.mem_cons_of_mem _ hmem)))

/-- Criteria values do not fall when loads grow. -/
theorem noWorse_of_grows {ls ms : List Load} (h : List.Forall₂ Load.Grows ls ms) (hne : ls ≠ []) :
    (ofLoads ls).NoWorse (ofLoads ms) :=
  ⟨quadraticMean_le_of_grows Load.gauge_cpuFraction h hne,
    peak_le_of_grows Load.gauge_cpuFraction h,
    quadraticMean_le_of_grows Load.gauge_memoryFraction h hne,
    peak_le_of_grows Load.gauge_memoryFraction h⟩

end Breakdown

namespace Engine

section
variable {registry : Registry} {l : Ledger} {r : Record} (fresh : l.get? r.service = none)
include fresh

theorem grows_load {n : Node} (hn : n ∈ registry.toList) :
    (load l n).Grows (load ⟨l.records.insert r⟩ n) := by
  have positive := registry.positive n hn
  by_cases hname : n.name = r.node
  · obtain ⟨before, after, hl, hi, -⟩ := Ledger.toList_of_fresh fresh
    unfold load Ledger.usageOf Ledger.hostedOn
    rw [hl, hi]
    simp only [List.filter_append, List.filter_cons, hname, beq_self_eq_true, if_true,
      List.map_append, List.map_cons]
    exact Load.grows_insert positive _ _ _
  · have hsame : load ⟨l.records.insert r⟩ n = load l n := by
      rw [load, Ledger.usageOf_insert_other fresh hname]
      rfl
    rw [hsame]
    exact (regular_load hn l).grows

variable (registry) in
theorem grows_projected (f : Footprint) (name : String) :
    List.Forall₂ Load.Grows (projected registry l f name)
      (projected registry ⟨l.records.insert r⟩ f name) := by
  unfold projected
  rw [List.forall₂_map_left_iff, List.forall₂_map_right_iff, List.forall₂_same]
  intro n hn
  split
  · exact (grows_load fresh hn).host f
  · exact grows_load fresh hn

omit fresh in
theorem mem_projected {n : Node} (hn : n ∈ registry.toList) (ledger : Ledger) (f : Footprint)
    (name : String) :
    (if n.name = name then (load ledger n).host f else load ledger n) ∈
      projected registry ledger f name :=
  List.mem_map_of_mem hn

/-- Load on a node does not raise the peak of the alternative of another one above its own. -/
theorem peak_projected_insert {fraction : Load → Float} (gauge : Load.Gauge fraction)
    {f : Footprint} {other : String}
    (h : 1.0 + Breakdown.peak ((projected registry l f other).map fraction) ≤
      1.0 + Breakdown.peak ((projected registry l f r.node).map fraction)) :
    1.0 + Breakdown.peak ((projected registry ⟨l.records.insert r⟩ f other).map fraction) ≤
      1.0 + Breakdown.peak ((projected registry ⟨l.records.insert r⟩ f r.node).map fraction) := by
  have hbelow (ledger : Ledger) (name : String) :
      ∀ x ∈ (projected registry ledger f name).map fraction, Below 86 x :=
    below_fractions gauge name
  apply Breakdown.one_add_peak_le (hbelow _ _) (hbelow _ _)
  intro x hx
  obtain ⟨m, hm, rfl⟩ := List.mem_map.mp hx
  obtain ⟨n, hn, rfl⟩ := List.mem_map.mp hm
  by_cases hframe : n.name = other ∧ other ≠ r.node
  · -- the fraction with the candidate is one that was there before the load
    obtain ⟨rfl, hne⟩ := hframe
    have hload : load ⟨l.records.insert r⟩ n = load l n := by
      rw [load, Ledger.usageOf_insert_other fresh hne]
      rfl
    have hmem := List.mem_map_of_mem (f := fraction) (mem_projected (f := f) hn l n.name)
    rw [if_pos rfl] at hmem ⊢
    rw [hload]
    have hold := Breakdown.one_add_le_peak (hbelow l _) (hbelow l _ _ hmem) hmem le_rfl
    have hgrown := Breakdown.peak_le_of_grows gauge (grows_projected registry fresh f r.node)
    have hpeak (ledger : Ledger) (name : String) := Breakdown.below_peak (hbelow ledger name)
    apply Breakdown.one_add_le_trans (hbelow l _ _ hmem) (hpeak l n.name) (hpeak _ r.node) hold
    exact Breakdown.one_add_le_trans (hpeak l _) (hpeak l r.node) (hpeak _ _) h hgrown
  · have hmem := List.mem_map_of_mem (f := fraction)
      (mem_projected (f := f) hn ⟨l.records.insert r⟩ r.node)
    refine Breakdown.one_add_le_peak (hbelow _ _) (hbelow _ _ _ hx) hmem ?_
    have hgrows : (if n.name = other then (load ⟨l.records.insert r⟩ n).host f
        else load ⟨l.records.insert r⟩ n).Grows
          (if n.name = r.node then (load ⟨l.records.insert r⟩ n).host f
            else load ⟨l.records.insert r⟩ n) := by
      have hregular := regular_load hn ⟨l.records.insert r⟩
      split_ifs with hother hnode hnode
      · exact (hregular.host f).grows
      · exact absurd hother fun he => hframe ⟨he, fun hr => hnode (he.trans hr)⟩
      · exact hregular.grows_host f
      · exact hregular.grows
    exact gauge.mono _ _ hgrows.before hgrows.after hgrows.more

end

end Engine

namespace Scheduler

variable {s t : Scheduler} {r : Record} {f : Footprint} {x y : NodeScore}

theorem breakdown_of_report (hx : x ∈ s.reports f) :
    x.breakdown = Breakdown.ofLoads (Engine.projected s.registry s.ledger f x.node) := by
  obtain ⟨n, -, hnode, -, hbreakdown⟩ := Engine.mem_evaluate hx
  rw [hnode, hbreakdown]

/-- A recorded usage leaves the nodes and the engine as they are. -/
theorem eq_of_addUsage (added : s.addUsage r = .ok t) :
    s.containsNode r.node = true ∧ t = { s with ledger := ⟨s.ledger.records.insert r⟩ } := by
  have hnode := succeeds_addUsage.mp ⟨t, added⟩
  have hstep := perform_of_succeeds (succeeds_addUsage.mpr hnode)
  rw [step_addUsage hnode] at hstep
  exact ⟨hnode, Except.ok.inj (added.symm.trans hstep)⟩

section
variable (fresh : s.usage? r.service = none) (added : s.addUsage r = .ok t)
include fresh added

/-- A further service lowers no criteria value of any alternative. -/
theorem noWorse_of_addUsage (hx : x ∈ s.reports f) (hy : y ∈ t.reports f)
    (same : x.node = y.node) : x.breakdown.NoWorse y.breakdown := by
  obtain ⟨-, rfl⟩ := eq_of_addUsage added
  rw [breakdown_of_report hx, breakdown_of_report hy, same]
  obtain ⟨n, hn, -⟩ := Engine.mem_evaluate hx
  exact Breakdown.noWorse_of_grows (Engine.grows_projected s.registry fresh f y.node)
    (mt List.map_eq_nil_iff.mp (List.ne_nil_of_mem hn))

theorem highest_le_of_addUsage {x' y' : NodeScore} (hx : x ∈ s.reports f) (hy : y ∈ s.reports f)
    (hx' : x' ∈ t.reports f) (hy' : y' ∈ t.reports f) (loaded : x.node = r.node)
    (loaded' : x'.node = r.node) (same : y'.node = y.node) :
    (y.breakdown.highestCpu ≤ x.breakdown.highestCpu →
        y'.breakdown.highestCpu ≤ x'.breakdown.highestCpu) ∧
      (y.breakdown.highestMemory ≤ x.breakdown.highestMemory →
        y'.breakdown.highestMemory ≤ x'.breakdown.highestMemory) := by
  obtain ⟨-, rfl⟩ := eq_of_addUsage added
  rw [breakdown_of_report hx, breakdown_of_report hy, breakdown_of_report hx',
    breakdown_of_report hy', loaded, loaded', same]
  exact ⟨Engine.peak_projected_insert fresh Load.gauge_cpuFraction,
    Engine.peak_projected_insert fresh Load.gauge_memoryFraction⟩

end

theorem average_le_of_settled (hx : x ∈ s.reports f) (hy : y ∈ s.reports f) :
    (Settled (s.cpuFractions f y.node) (s.cpuFractions f x.node) →
        y.breakdown.averageCpu ≤ x.breakdown.averageCpu) ∧
      (Settled (s.memoryFractions f y.node) (s.memoryFractions f x.node) →
        y.breakdown.averageMemory ≤ x.breakdown.averageMemory) := by
  obtain ⟨m, hm, hnode, -⟩ := Engine.mem_evaluate hx
  obtain ⟨n, hn, hnode', -⟩ := Engine.mem_evaluate hy
  rw [breakdown_of_report hx, breakdown_of_report hy, hnode, hnode']
  exact ⟨Engine.quadraticMean_projected_le Load.gauge_cpuFraction hn,
    Engine.quadraticMean_projected_le Load.gauge_memoryFraction hn⟩

/-- A further service on a node lowers no criteria value of any alternative, and leaves another node
the lower peaks if it had them. Where the alternative of the other node is nowhere worse afterwards,
the loaded node is not ahead up to rounding, and not at all at the ends of the scale and where there
are no third nodes; so it is where the other node leads. Where one of the two nodes leads and the
other one trails, load helps only from or to a tie: when the node was behind and they tie now, or
when they tied and it is ahead now. -/
theorem load_never_helps_without_trade {other : String} (f : Footprint)
    (standard : s.engine = .standard) (added : s.addUsage r = .ok t)
    (registered : s.containsNode other = true) :
    ∃ x ∈ s.reports f, ∃ y ∈ s.reports f, ∃ x' ∈ t.reports f, ∃ y' ∈ t.reports f,
      (x.node = r.node ∧ y.node = other ∧ x'.node = r.node ∧ y'.node = other) ∧
      s.score? f r.node = some x.score ∧ s.score? f other = some y.score ∧
      t.score? f r.node = some x'.score ∧ t.score? f other = some y'.score ∧
      (s.usage? r.service = none →
        (∀ v ∈ s.reports f, ∀ w ∈ t.reports f, v.node = w.node →
          v.breakdown.NoWorse w.breakdown) ∧
        (y.breakdown.highestCpu ≤ x.breakdown.highestCpu →
          y'.breakdown.highestCpu ≤ x'.breakdown.highestCpu) ∧
        (y.breakdown.highestMemory ≤ x.breakdown.highestMemory →
          y'.breakdown.highestMemory ≤ x'.breakdown.highestMemory)) ∧
      (Settled (t.cpuFractions f other) (t.cpuFractions f r.node) →
        y'.breakdown.averageCpu ≤ x'.breakdown.averageCpu) ∧
      (Settled (t.memoryFractions f other) (t.memoryFractions f r.node) →
        y'.breakdown.averageMemory ≤ x'.breakdown.averageMemory) ∧
      (y'.breakdown.NoWorse x'.breakdown →
        value x'.score ≤ value y'.score + 2 ^ (-51 : ℤ) ∧
        (t.Leads f other ∨ t.Trails f r.node ∨
            (∀ name ∈ t.nodeNames, name = other ∨ name = r.node) → x'.score ≤ y'.score)) ∧
      (t.Leads f other → ¬ y'.score < x'.score) ∧
      (t.Leads f other → t.Trails f r.node →
        (Unhelped x.score y.score x'.score y'.score ↔ x'.score ≠ y'.score ∨ y.score ≤ x.score)) ∧
      (s.Leads f r.node → s.Trails f other →
        (Unhelped x.score y.score x'.score y'.score ↔
          x.score ≠ y.score ∨ x'.score ≤ y'.score)) := by
  obtain ⟨hnode, heq⟩ := eq_of_addUsage added
  have standard' : t.engine = .standard := heq ▸ standard
  have hnode' : t.containsNode r.node = true := heq ▸ hnode
  have registered' : t.containsNode other = true := heq ▸ registered
  have lessening : s.engine.criteria.Lessening := standard ▸ Engine.lessening_standard
  have lessening' : t.engine.criteria.Lessening := standard' ▸ Engine.lessening_standard
  obtain ⟨x, hx, hxnode, xscore⟩ := exists_report hnode f
  obtain ⟨y, hy, hynode, yscore⟩ := exists_report registered f
  obtain ⟨x', hx', hxnode', xscore'⟩ := exists_report hnode' f
  obtain ⟨y', hy', hynode', yscore'⟩ := exists_report registered' f
  have xBelow := Engine.below_score lessening hx
  have yBelow := Engine.below_score lessening hy
  have xBelow' := Engine.below_score lessening' hx'
  have yBelow' := Engine.below_score lessening' hy'
  have settled := average_le_of_settled hx' hy'
  rw [hxnode', hynode'] at settled
  refine ⟨x, hx, y, hy, x', hx', y', hy', ⟨hxnode, hynode, hxnode', hynode'⟩, xscore, yscore,
    xscore', yscore', fun fresh => ⟨fun v hv w hw => noWorse_of_addUsage fresh added hv hw,
      highest_le_of_addUsage fresh added hx hy hx' hy' hxnode hxnode' (hynode'.trans hynode.symm)⟩,
    settled.1, settled.2, fun h => ⟨score_le_add_of_noWorse lessening' hy' hx' h, fun hends => ?_⟩,
    fun leads => ?_, fun leads trails => ?_, fun leads trails => ?_⟩
  · refine score_le_of_noWorse lessening' hy' hx' h ?_
    rcases hends with leads | trails | alone
    · exact .inl (leads y' hy' hynode')
    · exact .inr (trails x' hx' hxnode')
    · exact .inl (noWorse_of_alone hy' hx' (by rwa [hxnode', hynode']) h)
  · rw [score_of_leads lessening' hy' (hynode'.symm ▸ leads), not_lt_iff_le xBelow' below_one,
      le_iff_value xBelow'.amount.finite amount_one.finite, value_one]
    simpa using xBelow'.le
  · rw [score_of_leads lessening' hy' (hynode'.symm ▸ leads)]
    exact unhelped_to_first xBelow yBelow (score_of_trails lessening' hx' (hxnode'.symm ▸ trails))
  · rw [score_of_leads lessening hx (hxnode.symm ▸ leads)]
    exact unhelped_from_first xBelow' yBelow' (score_of_trails lessening hy (hynode.symm ▸ trails))

/-- Two nodes with as much memory, of which the second has more processing units. -/
def ordered : Scheduler :=
  empty.run [.addNode ⟨"a", ⟨1, 0x100000000⟩⟩, .addNode ⟨"b", ⟨8, 0x100000000⟩⟩]

/-- Seven processing units in use on the smaller one of two ordered nodes. -/
theorem load_never_helps_smaller_node :
    ∃ t, ordered.addUsage ⟨"y", "a", .whole 7 0⟩ = .ok t ∧ t.Leads (.whole 4 0x40000000) "b" ∧
      t.Trails (.whole 4 0x40000000) "a" ∧
      ∃ x ∈ ordered.reports (.whole 4 0x40000000), ∃ y ∈ ordered.reports (.whole 4 0x40000000),
        ∃ x' ∈ t.reports (.whole 4 0x40000000), ∃ y' ∈ t.reports (.whole 4 0x40000000),
          (x.node = "a" ∧ y.node = "b" ∧ x'.node = "a" ∧ y'.node = "b") ∧
          ordered.score? (.whole 4 0x40000000) "a" = some x.score ∧
          ordered.score? (.whole 4 0x40000000) "b" = some y.score ∧
          t.score? (.whole 4 0x40000000) "a" = some x'.score ∧
          t.score? (.whole 4 0x40000000) "b" = some y'.score ∧
          x.breakdown.NoWorse x'.breakdown ∧ y.breakdown.NoWorse y'.breakdown ∧
          y'.breakdown.highestCpu ≤ x'.breakdown.highestCpu ∧ x'.score ≤ y'.score ∧
          Unhelped x.score y.score x'.score y'.score := by
  let f := Footprint.whole 4 0x40000000
  let t := ordered.step (.addUsage ⟨"y", "a", .whole 7 0⟩)
  have added : ordered.addUsage ⟨"y", "a", .whole 7 0⟩ = .ok t := rfl
  have registered : ordered.containsNode "b" = true := by decide +kernel
  have fresh : ordered.usage? "y" = none := by decide +kernel
  have leads : ordered.Leads f "b" := by decide +kernel
  have leads' : t.Leads f "b" := by decide +kernel
  have trails' : t.Trails f "a" := by decide +kernel
  have differ : t.score? f "a" ≠ t.score? f "b" := by decide +kernel
  obtain ⟨x, hx, y, hy, x', hx', y', hy', ⟨hxnode, hynode, hxnode', hynode'⟩, xscore, yscore,
    xscore', yscore', grow, -, -, order, -, law, -⟩ :=
    load_never_helps_without_trade f rfl added registered
  obtain ⟨lowers, cpu, -⟩ := grow fresh
  have hne : x'.score ≠ y'.score := by
    intro he
    exact differ (by rw [xscore', yscore', he])
  exact ⟨t, added, leads', trails', x, hx, y, hy, x', hx', y', hy',
    ⟨hxnode, hynode, hxnode', hynode'⟩, xscore, yscore, xscore', yscore',
    lowers x hx x' hx' (hxnode.trans hxnode'.symm), lowers y hy y' hy' (hynode.trans hynode'.symm),
    cpu (leads y hy hynode x hx).2.1,
    (order (leads' y' hy' hynode' x' hx')).2 (.inl leads'), (law leads' trails').mpr (.inl hne)⟩

end Scheduler

end Placement
