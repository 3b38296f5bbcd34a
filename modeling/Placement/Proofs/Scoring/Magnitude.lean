import Mathlib
import Placement.Proofs.Footprint
import Placement.Proofs.Scoring.Evaluation
import Placement.Proofs.Topsis.Scores

/-!
# How large criteria values get

A footprint is bounded, and so is a sum of footprints, because a large sum takes in no more of
them. Capacities are at least one, so fractions in use are no larger, and means and peaks of
fractions are no larger than fractions. Criteria values are therefore far from the largest double,
for any number of nodes and services; and they are at least one. Nothing more is needed of them for
scores up to one.
-/
namespace Placement
open Double

namespace Usage

/-- However many footprints there are, their sum is bounded. -/
theorem below_cpu_total (fs : List Footprint) : Below 86 (total fs).cpu := by
  unfold total
  rw [cpu_foldl_add]
  refine (below_foldl_add (k := 32) Footprint.cpu (by norm_num) (fun f _ => ?_)
    (below_zero _)).1
  obtain ⟨hnonneg, hle⟩ := f.admissible.value_mem
  exact ⟨f.admissible.finite, hnonneg, hle.trans (by norm_num)⟩

end Usage

namespace Load

/-- A load whose capacity is positive and whose usage is that of some footprints. -/
structure Regular (l : Load) : Prop where
  positive : l.capacity.Positive
  total : ∃ fs, l.usage = .total fs

theorem Regular.host {l : Load} (h : l.Regular) (f : Footprint) : (l.host f).Regular := by
  obtain ⟨hpositive, fs, hfs⟩ := h
  refine ⟨hpositive, fs ++ [f], ?_⟩
  rw [Usage.total_append_singleton, ← hfs]
  rfl

theorem Regular.below_cpu {l : Load} (h : l.Regular) : Below 86 l.usage.cpu := by
  obtain ⟨-, fs, hfs⟩ := h
  rw [hfs]
  exact Usage.below_cpu_total fs

theorem Regular.cpu_add {l : Load} (h : l.Regular) (f : Footprint) :
    Below 86 (l.usage.cpu + f.cpu) ∧
      value (l.usage.cpu + f.cpu) = rounded (value l.usage.cpu + value f.cpu) := by
  obtain ⟨hnonneg, hle⟩ := f.admissible.value_mem
  exact h.below_cpu.add_small (k := 32) f.admissible.finite hnonneg (hle.trans (by norm_num))
    (by norm_num)

theorem below_cpuFraction {l : Load} (h : l.Regular) : Below 86 l.cpuFraction := by
  have hcapacity := (below_toFloat_uint32 l.capacity.cpu).1.amount
  have hone := one_le_toFloat_uint32 h.positive.cpu
  exact (h.below_cpu.div hcapacity hone (by norm_num)).1

theorem below_memoryFraction {l : Load} (h : l.Regular) : Below 64 l.memoryFraction := by
  have hcapacity := (below_toFloat_uint64 l.capacity.memory).1.amount
  have hone := one_le_toFloat_uint64 h.positive.memory
  exact ((below_toFloat_uint64 l.usage.memory).1.div hcapacity hone (by norm_num)).1

end Load

namespace Breakdown

variable {k : ℕ} {xs : List Float}

theorem below_quadraticMean (hne : xs ≠ []) (h : ∀ x ∈ xs, Below k x) (hk : k + k + 54 < 1023) :
    Below (k + 27) (quadraticMean xs) := by
  have hsum := (Topsis.below_sum_squares hk fun x hx => (h x hx).within).1
  have hmean := hsum.div_ofNat (List.length_pos_iff.mpr hne) (by omega)
  have hsplit : k + k + 54 = (k + 27) + (k + 27) := by omega
  rw [hsplit] at hmean
  exact (hmean.sqrt (by omega)).1

theorem below_peak (h : ∀ x ∈ xs, Below k x) : Below k (peak xs) := by
  have hfold : ∀ start, Below k start →
      Below k (xs.foldl (fun peak x => if peak < x then x else peak) start) := by
    induction xs with
    | nil => exact fun start hstart => hstart
    | cons x xs ih =>
      intro start hstart
      refine ih (fun y hy => h y (List.mem_cons_of_mem x hy)) _ ?_
      dsimp only
      split
      · exact h x List.mem_cons_self
      · exact hstart
  exact hfold 0.0 (below_zero k)

theorem below_one_add {x : Float} (h : Below k x) (hk : k + 1 < 1024) :
    Below (k + 1) (1.0 + x) ∧ 1 ≤ value (1.0 + x) := by
  have hone : Below k 1.0 := ⟨amount_one, value_one.trans_le (one_le_pow₀ one_le_two)⟩
  obtain ⟨hsum, hvalue⟩ := hone.add h hk
  rw [value_one] at hvalue
  refine ⟨hsum, ?_⟩
  rw [hvalue]
  exact le_rounded representable_one (by linarith [h.amount.nonneg])

/-- Criteria values are at least one, and bounded. -/
theorem moderate_ofLoads {loads : List Load} (hne : loads ≠ []) (h : ∀ l ∈ loads, l.Regular)
    (i : Fin 4) : Below 114 ((ofLoads loads).toVector.get i) ∧
      1 ≤ value ((ofLoads loads).toVector.get i) := by
  have hcpu : ∀ x ∈ loads.map Load.cpuFraction, Below 86 x := by
    intro x hx
    obtain ⟨l, hl, rfl⟩ := List.mem_map.mp hx
    exact Load.below_cpuFraction (h l hl)
  have hmemory : ∀ x ∈ loads.map Load.memoryFraction, Below 86 x := by
    intro x hx
    obtain ⟨l, hl, rfl⟩ := List.mem_map.mp hx
    exact (Load.below_memoryFraction (h l hl)).mono (by norm_num)
  have hmap : ∀ fraction : Load → Float, loads.map fraction ≠ [] := fun _ =>
    mt List.map_eq_nil_iff.mp hne
  have hpeak : ∀ {xs}, (∀ x ∈ xs, Below 86 x) →
      Below 114 (1.0 + peak xs) ∧ 1 ≤ value (1.0 + peak xs) := fun hxs =>
    below_one_add ((below_peak hxs).mono (by norm_num)) (by norm_num)
  match i with
  | 0 => exact below_one_add (below_quadraticMean (hmap _) hcpu (by norm_num)) (by norm_num)
  | 1 => exact hpeak hcpu
  | 2 => exact below_one_add (below_quadraticMean (hmap _) hmemory (by norm_num)) (by norm_num)
  | 3 => exact hpeak hmemory

end Breakdown

namespace Engine

theorem regular_load {registry : Registry} {n : Node} (h : n ∈ registry.toList) (ledger : Ledger) :
    (load ledger n).Regular :=
  ⟨registry.positive n h, _, rfl⟩

theorem regular_projected {registry : Registry} {ledger : Ledger} {f : Footprint} {name : String}
    {l : Load} (h : l ∈ projected registry ledger f name) : l.Regular := by
  obtain ⟨n, hn, rfl⟩ := List.mem_map.mp h
  split
  · exact (regular_load hn ledger).host f
  · exact regular_load hn ledger

/-- What evaluation compares. -/
def rows (registry : Registry) (ledger : Ledger) (f : Footprint) : List (Vector Float 4) :=
  (Breakdown.alternatives f (loads registry ledger)).map Breakdown.toVector

theorem rows_eq_map (e : Engine) (registry : Registry) (ledger : Ledger) (f : Footprint) :
    rows registry ledger f =
      (e.evaluate registry ledger f).map fun x => x.breakdown.toVector := by
  apply List.ext_getElem
  · simp [rows]
  · intro i hi hj
    simp [rows, evaluate, entry]

theorem mem_rows {e : Engine} {registry : Registry} {ledger : Ledger} {f : Footprint}
    {x : NodeScore} (h : x ∈ e.evaluate registry ledger f) :
    x.breakdown.toVector ∈ rows registry ledger f := by
  rw [rows_eq_map e]
  exact List.mem_map_of_mem h

/-- What is reported as the score of a node is the score of its row. -/
theorem score_of_mem_evaluate {e : Engine} {registry : Registry} {ledger : Ledger} {f : Footprint}
    {x : NodeScore} (h : x ∈ e.evaluate registry ledger f) :
    x.score = Topsis.score e.criteria (rows registry ledger f) x.breakdown.toVector := by
  obtain ⟨i, hi, rfl⟩ := List.mem_iff_getElem.mp h
  simp [evaluate, entry, Topsis.scores_eq_map, rows]

theorem moderate_rows (registry : Registry) (ledger : Ledger) (f : Footprint) :
    Topsis.Moderate (rows registry ledger f) := by
  intro row hrow i
  obtain ⟨b, hb, rfl⟩ := List.mem_map.mp hrow
  rw [alternatives_eq_map] at hb
  obtain ⟨n, hn, rfl⟩ := List.mem_map.mp hb
  have hne : projected registry ledger f n.name ≠ [] :=
    mt List.map_eq_nil_iff.mp (List.ne_nil_of_mem hn)
  exact Breakdown.moderate_ofLoads hne (fun l hl => regular_projected hl) i

theorem below_score {e : Engine} (lessening : e.criteria.Lessening) {registry : Registry}
    {ledger : Ledger} {f : Footprint} {x : NodeScore} (h : x ∈ e.evaluate registry ledger f) :
    Below 0 x.score := by
  rw [score_of_mem_evaluate h]
  obtain ⟨hamount, hle⟩ :=
    Topsis.score_spec (moderate_rows registry ledger f) lessening (mem_rows h)
  exact ⟨hamount, by rwa [pow_zero]⟩

end Engine

end Placement
