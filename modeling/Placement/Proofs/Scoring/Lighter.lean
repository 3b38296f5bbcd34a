import Mathlib
import Placement.Proofs.Scoring.Load
import Placement.Proofs.Scoring.Means

/-!
# Placing on the less used of two nodes

Of two nodes with equal capacity one may have no more in use than the other. The domain with the
candidate on the one differs from that with the candidate on the other in these two nodes alone, and
its peaks are no greater. Its means are no greater where it is settled that the sums of squares are
not. What this does to scores is not treated here.
-/
namespace Placement
open Double

/-- No more in use of either resource. -/
structure Usage.NoMore (u v : Usage) : Prop where
  cpu : u.cpu ≤ v.cpu
  memory : u.memory ≤ v.memory

namespace Load

/-- Loads of equal capacity, of which the first has no more in use. -/
structure NoMore (l m : Load) : Prop where
  capacity : l.capacity = m.capacity
  usage : l.usage.NoMore m.usage

section
variable {l m : Load} (hl : l.Regular)
include hl

theorem noMore_host (f : Footprint) : l.NoMore (l.host f) := by
  refine ⟨rfl, ?_, ?_⟩
  · obtain ⟨hsum, hvalue⟩ := hl.cpu_add f
    have hstart := hl.below_cpu.amount.finite
    refine (le_iff_value hstart hsum.amount.finite).mpr ?_
    rw [hvalue]
    exact le_rounded (representable_value hstart)
      (le_add_of_nonneg_right f.admissible.value_mem.1)
  · have hsum := toNat_saturatingAdd l.usage.memory f.memory
    have hlt := l.usage.memory.toNat_lt_size
    change l.usage.memory ≤ saturatingAdd l.usage.memory f.memory
    rw [UInt64.le_iff_toNat_le, hsum]
    omega

variable (hm : m.Regular) (h : l.NoMore m)
include hm h

theorem NoMore.host (f : Footprint) : (l.host f).NoMore (m.host f) := by
  refine ⟨h.capacity, ?_, ?_⟩
  · obtain ⟨hsum, hvalue⟩ := hl.cpu_add f
    obtain ⟨hsum', hvalue'⟩ := hm.cpu_add f
    refine (le_iff_value hsum.amount.finite hsum'.amount.finite).mpr ?_
    have hle := (le_iff_value hl.below_cpu.amount.finite hm.below_cpu.amount.finite).mp h.usage.cpu
    rw [hvalue, hvalue']
    exact rounded_mono (by linarith)
  · have hle := UInt64.le_iff_toNat_le.mp h.usage.memory
    change saturatingAdd l.usage.memory f.memory ≤ saturatingAdd m.usage.memory f.memory
    rw [UInt64.le_iff_toNat_le, toNat_saturatingAdd, toNat_saturatingAdd]
    omega

theorem cpuFraction_mono : value l.cpuFraction ≤ value m.cpuFraction := by
  have hcapacity := (below_toFloat_uint32 m.capacity.cpu).1.amount
  have hone := one_le_toFloat_uint32 hm.positive.cpu
  have hle := (le_iff_value hl.below_cpu.amount.finite hm.below_cpu.amount.finite).mp h.usage.cpu
  rw [cpuFraction, cpuFraction, h.capacity, (hl.below_cpu.div hcapacity hone (by norm_num)).2,
    (hm.below_cpu.div hcapacity hone (by norm_num)).2]
  exact rounded_mono (div_le_div_of_nonneg_right hle hcapacity.nonneg)

omit hl in
theorem memoryFraction_mono : value l.memoryFraction ≤ value m.memoryFraction := by
  have hcapacity := (below_toFloat_uint64 m.capacity.memory).1.amount
  have hone := one_le_toFloat_uint64 hm.positive.memory
  have hle : value l.usage.memory.toFloat ≤ value m.usage.memory.toFloat := by
    rw [(below_toFloat_uint64 _).2, (below_toFloat_uint64 _).2]
    exact rounded_mono (by exact_mod_cast UInt64.le_iff_toNat_le.mp h.usage.memory)
  rw [memoryFraction, memoryFraction, h.capacity,
    ((below_toFloat_uint64 _).1.div hcapacity hone (by norm_num)).2,
    ((below_toFloat_uint64 _).1.div hcapacity hone (by norm_num)).2]
  exact rounded_mono (div_le_div_of_nonneg_right hle hcapacity.nonneg)

end

theorem cpuFraction_host {l : Load} (hl : l.Regular) {f : Footprint} (h : value f.cpu = 0) :
    (l.host f).cpuFraction = l.cpuFraction := by
  obtain ⟨hsum, hvalue⟩ := hl.cpu_add f
  have hkept : l.usage.cpu + f.cpu = l.usage.cpu := by
    refine hsum.amount.ext hl.below_cpu.amount ?_
    rw [hvalue, h, add_zero,
      rounded_of_representable (representable_value hl.below_cpu.amount.finite)]
  simp only [cpuFraction, host, Usage.add, hkept]

theorem memoryFraction_host (l : Load) {f : Footprint} (h : f.memory = 0) :
    (l.host f).memoryFraction = l.memoryFraction := by
  have hkept : saturatingAdd l.usage.memory f.memory = l.usage.memory := by
    have hlt := l.usage.memory.toNat_lt_size
    rw [← UInt64.toNat_inj, toNat_saturatingAdd, h]
    change min (l.usage.memory.toNat + 0) _ = _
    omega
  simp only [memoryFraction, host, Usage.add, hkept]

/-- A fraction of a load that grows with what is in use. -/
structure Gauge (fraction : Load → Float) : Prop where
  below : ∀ l, l.Regular → Below 86 (fraction l)
  mono : ∀ l m, l.Regular → m.Regular → l.NoMore m → value (fraction l) ≤ value (fraction m)

theorem gauge_cpuFraction : Gauge cpuFraction :=
  ⟨fun _ => below_cpuFraction, fun _ _ => cpuFraction_mono⟩

theorem gauge_memoryFraction : Gauge memoryFraction :=
  ⟨fun _ hl => (below_memoryFraction hl).mono (by norm_num), fun _ _ _ => memoryFraction_mono⟩

theorem Gauge.eq {fraction : Load → Float} (gauge : Gauge fraction) {l m : Load} (hl : l.Regular)
    (hm : m.Regular) (hlm : l.NoMore m) (hml : m.NoMore l) : fraction l = fraction m :=
  (gauge.below l hl).amount.ext (gauge.below m hm).amount
    (le_antisymm (gauge.mono l m hl hm hlm) (gauge.mono m l hm hl hml))

end Load

namespace Engine

variable {registry : Registry} {a b : Node} (ledger : Ledger) (f : Footprint)

/-- Apart from two nodes the domain is the same whichever of them the candidate runs on. -/
theorem projected_perm (ha : a ∈ registry.toList) (hb : b ∈ registry.toList)
    (hne : a.name ≠ b.name) :
    ∃ rest,
      (projected registry ledger f a.name).Perm ((load ledger a).host f :: load ledger b :: rest) ∧
      (projected registry ledger f b.name).Perm
        (load ledger a :: (load ledger b).host f :: rest) := by
  have hba : b ∈ registry.toList.erase a :=
    (List.mem_erase_of_ne (mt (congrArg Node.name) hne.symm)).mpr hb
  have hperm : registry.toList.Perm (a :: b :: (registry.toList.erase a).erase b) :=
    (List.perm_cons_erase ha).trans ((List.perm_cons_erase hba).cons a)
  have hnames : ((a :: b :: (registry.toList.erase a).erase b).map Node.name).Nodup :=
    (hperm.map Node.name).nodup_iff.mp (nodup_names registry)
  have hother : ∀ n ∈ (registry.toList.erase a).erase b, n.name ≠ a.name ∧ n.name ≠ b.name := by
    intro n hn
    have hmem := List.mem_map_of_mem (f := Node.name) hn
    simp only [List.map_cons, List.nodup_cons, List.mem_cons] at hnames
    exact ⟨fun he => hnames.1 (.inr (he ▸ hmem)), fun he => hnames.2.1 (he ▸ hmem)⟩
  refine ⟨((registry.toList.erase a).erase b).map (load ledger), ?_, ?_⟩
  · refine (hperm.map _).trans (.of_eq ?_)
    simp only [List.map_cons, if_true, if_neg hne.symm]
    congr 2
    exact List.map_congr_left fun n hn => if_neg (hother n hn).1
  · refine (hperm.map _).trans (.of_eq ?_)
    simp only [List.map_cons, if_true, if_neg hne]
    congr 2
    exact List.map_congr_left fun n hn => if_neg (hother n hn).2

section
variable {ledger f} {fraction : Load → Float} (gauge : Load.Gauge fraction)
  (ha : a ∈ registry.toList) (hb : b ∈ registry.toList)
  (lighter : (load ledger a).NoMore (load ledger b))
include gauge

theorem below_fractions (name : String) :
    ∀ x ∈ (projected registry ledger f name).map fraction, Below 86 x := by
  intro x hx
  obtain ⟨l, hl, rfl⟩ := List.mem_map.mp hx
  exact gauge.below l (regular_projected hl)

include ha hb lighter

/-- The peak is no greater with the candidate on the less used twin. -/
theorem peak_projected_le :
    1.0 + Breakdown.peak ((projected registry ledger f a.name).map fraction) ≤
      1.0 + Breakdown.peak ((projected registry ledger f b.name).map fraction) := by
  refine Breakdown.one_add_mono (Breakdown.below_peak (below_fractions gauge _))
    (Breakdown.below_peak (below_fractions gauge _)) (by norm_num) ?_
  by_cases hsame : a.name = b.name
  · rw [hsame]
  obtain ⟨rest, hfirst, hsecond⟩ := projected_perm ledger f ha hb hsame
  have hregular := regular_load ha ledger
  have hregular' := regular_load hb ledger
  refine Breakdown.peak_mono (below_fractions gauge _) (below_fractions gauge _) fun x hx => ?_
  have hmem : fraction ((load ledger b).host f) ∈
      (projected registry ledger f b.name).map fraction :=
    List.mem_map_of_mem (hsecond.mem_iff.mpr (List.mem_cons_of_mem _ List.mem_cons_self))
  obtain ⟨l, hl, rfl⟩ := List.mem_map.mp hx
  rcases List.mem_cons.mp (hfirst.mem_iff.mp hl) with rfl | hl
  · exact ⟨_, hmem, gauge.mono _ _ (hregular.host f) (hregular'.host f)
      (lighter.host hregular hregular' f)⟩
  rcases List.mem_cons.mp hl with rfl | hl
  · exact ⟨_, hmem, gauge.mono _ _ hregular' (hregular'.host f) (Load.noMore_host hregular' f)⟩
  · exact ⟨_, List.mem_map_of_mem (hsecond.mem_iff.mpr
      (List.mem_cons_of_mem _ (List.mem_cons_of_mem _ hl))), le_rfl⟩

/-- With the candidate on one or the other of two nodes that are used alike, the fractions are the
same in another order. -/
theorem fractions_perm (heavier : (load ledger b).NoMore (load ledger a)) :
    ((projected registry ledger f a.name).map fraction).Perm
      ((projected registry ledger f b.name).map fraction) := by
  by_cases hsame : a.name = b.name
  · rw [hsame]
  obtain ⟨rest, hfirst, hsecond⟩ := projected_perm ledger f ha hb hsame
  have hregular := regular_load ha ledger
  have hregular' := regular_load hb ledger
  have hload := gauge.eq hregular hregular' lighter heavier
  have hhost := gauge.eq (hregular.host f) (hregular'.host f) (lighter.host hregular hregular' f)
    (heavier.host hregular' hregular f)
  refine (hfirst.map fraction).trans (.trans ?_ (hsecond.map fraction).symm)
  rw [List.map_cons, List.map_cons, List.map_cons, List.map_cons, hhost, hload]
  exact .swap _ _ _

end

/-- A mean is no greater where it is settled that the sum of squares is not. -/
theorem quadraticMean_projected_le {ledger f} {fraction : Load → Float}
    (gauge : Load.Gauge fraction) (ha : a ∈ registry.toList)
    (settled : Settled ((projected registry ledger f a.name).map fraction)
      ((projected registry ledger f b.name).map fraction)) :
    1.0 + Breakdown.quadraticMean ((projected registry ledger f a.name).map fraction) ≤
      1.0 + Breakdown.quadraticMean ((projected registry ledger f b.name).map fraction) := by
  have hbelow : ∀ name, ∀ x ∈ (projected registry ledger f name).map fraction, Below 86 x :=
    below_fractions gauge
  have hne : ∀ name, (projected registry ledger f name).map fraction ≠ [] := fun name => by
    simpa [projected] using List.ne_nil_of_mem ha
  have hmean : ∀ name,
      Below 113 (Breakdown.quadraticMean ((projected registry ledger f name).map fraction)) :=
    fun name => Breakdown.below_quadraticMean (hne name) (hbelow name) (by norm_num)
  have hlength : ((projected registry ledger f a.name).map fraction).length =
      ((projected registry ledger f b.name).map fraction).length := by simp [projected]
  have hsum := settled.addSquares_le (k := 86) (by norm_num)
    (fun x hx => (hbelow _ x hx).within) hlength fun x hx => (hbelow _ x hx).within
  exact Breakdown.one_add_mono (hmean _) (hmean _) (by norm_num)
    (Breakdown.quadraticMean_mono (by norm_num) (hne _) hlength (hbelow _) (hbelow _) hsum)

section
variable {fraction : Load → Float}
  (h : ∀ n ∈ registry.toList, fraction ((load ledger n).host f) = fraction (load ledger n))
include h

/-- Where the candidate changes no fraction, all fractions are as they were. -/
theorem map_projected_of_host (name : String) :
    (projected registry ledger f name).map fraction =
      registry.toList.map fun n => fraction (load ledger n) := by
  rw [projected, List.map_map]
  refine List.map_congr_left fun n hn => ?_
  rw [Function.comp_apply]
  split
  · exact h n hn
  · rfl

theorem settled_of_host (first second : String) :
    Settled ((projected registry ledger f first).map fraction)
      ((projected registry ledger f second).map fraction) := by
  rw [map_projected_of_host ledger f h, map_projected_of_host ledger f h]
  exact .same _

end

theorem noWorse_projected {ledger f} (ha : a ∈ registry.toList) (hb : b ∈ registry.toList)
    (lighter : (load ledger a).NoMore (load ledger b))
    (cpu : Settled ((projected registry ledger f a.name).map Load.cpuFraction)
      ((projected registry ledger f b.name).map Load.cpuFraction))
    (memory : Settled ((projected registry ledger f a.name).map Load.memoryFraction)
      ((projected registry ledger f b.name).map Load.memoryFraction)) :
    (Breakdown.ofLoads (projected registry ledger f a.name)).NoWorse
      (Breakdown.ofLoads (projected registry ledger f b.name)) :=
  ⟨quadraticMean_projected_le Load.gauge_cpuFraction ha cpu,
    peak_projected_le Load.gauge_cpuFraction ha hb lighter,
    quadraticMean_projected_le Load.gauge_memoryFraction ha memory,
    peak_projected_le Load.gauge_memoryFraction ha hb lighter⟩

end Engine

end Placement
