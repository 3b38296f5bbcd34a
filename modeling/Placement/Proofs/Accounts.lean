import Mathlib
import Placement.Ledger

/-!
# Usage of a node from its records

The usage of a node depends on the records that name it and on nothing else, so what happens to
other records does not change it. The accounts of all nodes and the usage of one node are summed in
different ways and agree for every node. The memory of a sum is the exact sum held at the largest
64-bit number, so it does not depend on the order of the footprints; the order does matter for
processing units, and what is said of them here keeps it. Each record counts for one node.
-/
namespace Placement

namespace Usage

theorem cpu_foldl_add (fs : List Footprint) (u : Usage) :
    (fs.foldl add u).cpu = fs.foldl (fun sum f => sum + f.cpu) u.cpu := by
  induction fs generalizing u with
  | nil => rfl
  | cons f fs ih => exact ih (u.add f)

theorem toNat_memory_foldl (u : Usage) (fs : List Footprint) :
    (fs.foldl add u).memory.toNat =
      min (u.memory.toNat + (fs.map fun f => f.memory.toNat).sum) (UInt64.size - 1) := by
  induction fs generalizing u with
  | nil =>
    have h := u.memory.toNat_lt_size
    simp only [List.foldl_nil, List.map_nil, List.sum_nil]
    omega
  | cons f fs ih =>
    rw [List.foldl_cons, ih, List.map_cons, List.sum_cons]
    have h : (u.add f).memory.toNat = min (u.memory.toNat + f.memory.toNat) (UInt64.size - 1) :=
      toNat_saturatingAdd u.memory f.memory
    omega

/-- Saturating on the way is the same as saturating at the end. -/
theorem toNat_memory_total (fs : List Footprint) :
    (total fs).memory.toNat = min (fs.map fun f => f.memory.toNat).sum (UInt64.size - 1) := by
  have h := toNat_memory_foldl none fs
  have hz : none.memory.toNat = 0 := rfl
  rwa [hz, Nat.zero_add] at h

theorem memory_total_perm {fs gs : List Footprint} (h : fs.Perm gs) :
    (total fs).memory = (total gs).memory := by
  apply UInt64.toNat_inj.mp
  rw [toNat_memory_total, toNat_memory_total, (h.map _).sum_eq]

end Usage

theorem Catalog.nodup_keys {α : Type} [Keyed α] (c : Catalog α) : c.keys.Nodup := by
  have hkeys : c.keys.Pairwise (· < ·) := List.pairwise_map.mpr c.ascending
  apply hkeys.imp
  rintro a _ hlt rfl
  exact String.lt_irrefl a hlt

/-- A thing with a new name is put between the things with smaller and with greater names. -/
theorem Catalog.place_of_fresh {α : Type} [Keyed α] {a : α} {l : List α}
    (h : l.Pairwise (fun x y => key x < key y)) (fresh : ∀ b ∈ l, key b ≠ key a) :
    ∃ before after, l = before ++ after ∧ place a l = before ++ a :: after ∧
      ∀ b ∈ after, key a < key b := by
  induction l with
  | nil => exact ⟨[], [], rfl, rfl, fun b hb => nomatch hb⟩
  | cons b l ih =>
    obtain ⟨head, tail⟩ := List.pairwise_cons.mp h
    by_cases hlt : key a < key b
    · refine ⟨[], b :: l, rfl, if_pos hlt, fun c hc => ?_⟩
      rcases List.mem_cons.mp hc with rfl | hc
      · exact hlt
      · exact String.lt_trans hlt (head c hc)
    · have hne : ¬ key a = key b := fun he => fresh b List.mem_cons_self he.symm
      obtain ⟨before, after, hl, hp, hafter⟩ :=
        ih tail fun c hc => fresh c (List.mem_cons_of_mem b hc)
      refine ⟨b :: before, after, by rw [hl, List.cons_append], ?_, hafter⟩
      rw [place, if_neg hlt, if_neg hne, hp, List.cons_append]

theorem Catalog.length_place_of_mem {α : Type} [Keyed α] {a b : α} {l : List α}
    (h : l.Pairwise (fun x y => key x < key y)) (hb : b ∈ l) (same : key b = key a) :
    (place a l).length = l.length := by
  induction l with
  | nil => cases hb
  | cons c l ih =>
    obtain ⟨head, tail⟩ := List.pairwise_cons.mp h
    rw [place]
    split_ifs with hlt heq
    · rcases List.mem_cons.mp hb with rfl | hb
      · exact absurd (same ▸ hlt) (String.lt_irrefl _)
      · exact absurd (String.lt_trans hlt (same ▸ head b hb)) (String.lt_irrefl _)
    · rfl
    · rcases List.mem_cons.mp hb with rfl | hb
      · exact absurd same.symm heq
      · rw [List.length_cons, List.length_cons, ih tail hb]

namespace Ledger

section
variable {l m : Ledger} {node : String} {r : Record}

theorem mem_toList_iff : r ∈ l.toList ↔ l.get? r.service = some r :=
  Catalog.mem_iff_get?

theorem mem_hostedOn : r ∈ l.hostedOn node ↔ r ∈ l.toList ∧ r.node = node := by
  rw [hostedOn, List.mem_filter, beq_iff_eq]

theorem mem_insert {q : Record} :
    r ∈ (⟨l.records.insert q⟩ : Ledger).toList ↔
      r = q ∨ r ∈ l.toList ∧ r.service ≠ q.service := by
  have hget : (⟨l.records.insert q⟩ : Ledger).get? r.service =
      if r.service = q.service then some q else l.get? r.service :=
    Catalog.get?_insert ..
  rw [mem_toList_iff, hget, mem_toList_iff]
  by_cases hservice : r.service = q.service
  · rw [if_pos hservice, Option.some_inj, or_iff_left fun h => h.2 hservice, eq_comm]
  · rw [if_neg hservice, or_iff_right fun h => hservice (congrArg Record.service h),
      and_iff_left hservice]

theorem mem_remove {service : String} :
    r ∈ (l.remove service).toList ↔ r ∈ l.toList ∧ r.service ≠ service :=
  List.mem_filter.trans (and_congr_right fun _ => bne_iff_ne)

theorem mem_evict : r ∈ (l.evict node).toList ↔ r ∈ l.toList ∧ r.node ≠ node :=
  List.mem_filter.trans (and_congr_right fun _ => bne_iff_ne)

/-- What other nodes host makes no difference to the records of a node. -/
theorem hostedOn_congr (h : ∀ r : Record, r.node = node → (r ∈ l.toList ↔ r ∈ m.toList)) :
    l.hostedOn node = m.hostedOn node := by
  have hrecords : l.records.filter (·.node == node) = m.records.filter (·.node == node) := by
    apply Catalog.ext_mem
    intro r
    change r ∈ l.hostedOn node ↔ r ∈ m.hostedOn node
    rw [mem_hostedOn, mem_hostedOn]
    exact and_congr_left (h r)
  exact congrArg Catalog.toList hrecords

theorem usageOf_congr (h : ∀ r : Record, r.node = node → (r ∈ l.toList ↔ r ∈ m.toList)) :
    l.usageOf node = m.usageOf node := by
  rw [usageOf, usageOf, hostedOn_congr h]

theorem usageOf_evict_other {other : String} (h : other ≠ node) :
    (l.evict node).usageOf other = l.usageOf other := by
  apply usageOf_congr
  rintro r rfl
  rw [mem_evict, and_iff_left h]

theorem hostedOn_evict_self : (l.evict node).hostedOn node = [] := by
  apply List.filter_eq_nil_iff.mpr
  intro r hr
  rw [beq_iff_eq]
  exact (mem_evict.mp hr).2

/-- To nodes that do not host it, a service that is recorded looks like one that is forgotten. -/
theorem usageOf_insert_of_ne (h : node ≠ r.node) :
    (⟨l.records.insert r⟩ : Ledger).usageOf node = (l.remove r.service).usageOf node := by
  apply usageOf_congr
  rintro q rfl
  rw [mem_insert, mem_remove, or_iff_right fun he => h (congrArg Record.node he)]

theorem usageOf_remove_other {service : String}
    (h : ∀ q, l.get? service = some q → node ≠ q.node) :
    (l.remove service).usageOf node = l.usageOf node := by
  apply usageOf_congr
  rintro q rfl
  rw [mem_remove]
  apply and_iff_left_of_imp
  rintro hq rfl
  exact h q (mem_toList_iff.mp hq) rfl

theorem toList_of_fresh (fresh : l.get? r.service = none) :
    ∃ before after, l.toList = before ++ after ∧
      (⟨l.records.insert r⟩ : Ledger).toList = before ++ r :: after ∧
      ∀ q ∈ after, r.service < q.service := by
  refine Catalog.place_of_fresh l.records.ascending fun q hq he => ?_
  have hget : l.get? r.service = some q := Catalog.get?_eq_some_iff.mpr ⟨hq, he⟩
  rw [fresh] at hget
  cases hget

theorem size_insert (l : Ledger) (r : Record) :
    (⟨l.records.insert r⟩ : Ledger).size + (if (l.get? r.service).isSome then 1 else 0) =
      l.size + 1 := by
  cases hget : l.get? r.service with
  | none =>
    obtain ⟨before, after, hl, hi, -⟩ := toList_of_fresh hget
    have hsize (m : Ledger) : m.size = m.toList.length := rfl
    rw [hsize, hsize, hl, hi]
    simp
    omega
  | some q =>
    obtain ⟨hq, hkey⟩ := Catalog.get?_eq_some_iff.mp hget
    have hlength := Catalog.length_place_of_mem l.records.ascending hq hkey
    exact congrArg (· + 1) hlength

/-- The records that are taken off a node and those that are left are the records that there
were. -/
theorem clear_perm (l : Ledger) (node : String) :
    ((l.clear node).1 ++ (l.clear node).2.toList).Perm l.toList := by
  rw [clear_eq]
  exact List.filter_append_perm _ _

theorem size_evict (l : Ledger) (node : String) :
    (l.evict node).size + (l.hostedOn node).length = l.size := by
  have hlength := (l.clear_perm node).length_eq
  rw [clear_eq, List.length_append, Nat.add_comm] at hlength
  exact hlength

/-- Records are counted once each where their nodes are listed once each. -/
theorem sum_length_hostedOn {nodes : List String} (distinct : nodes.Nodup)
    (hosted : ∀ r ∈ l.toList, r.node ∈ nodes) :
    (nodes.map fun node => (l.hostedOn node).length).sum = l.size := by
  have hcount : ∀ node, (l.hostedOn node).length = (l.toList.map Record.node).count node := by
    intro node
    rw [hostedOn, ← List.countP_eq_length_filter, List.count, List.countP_map]
    rfl
  have hsum := Multiset.sum_count_eq_card (s := nodes.toFinset) (m := ↑(l.toList.map Record.node))
    (by simpa using hosted)
  simp only [hcount]
  rw [← List.sum_toFinset _ distinct]
  simpa [size, toList, Catalog.size] using hsum

end

theorem get?_credit (accounts : Catalog Account) (r : Record) (node : String) :
    (credit accounts r).get? node =
      if node = r.node then some ⟨r.node, (accounts.usageOf r.node).add r.footprint⟩
      else accounts.get? node :=
  Catalog.get?_insert ..

theorem usageOf_credit (accounts : Catalog Account) (r : Record) (node : String) :
    (credit accounts r).usageOf node =
      if node = r.node then (accounts.usageOf node).add r.footprint
      else accounts.usageOf node := by
  by_cases he : node = r.node
  · rw [Catalog.usageOf, get?_credit, if_pos he, if_pos he, he]
    rfl
  · rw [Catalog.usageOf, get?_credit, if_neg he, if_neg he]
    rfl

theorem usageOf_foldl_credit (accounts : Catalog Account) (records : List Record)
    (node : String) :
    (records.foldl credit accounts).usageOf node =
      ((records.filter (·.node == node)).map Record.footprint).foldl Usage.add
        (accounts.usageOf node) := by
  induction records generalizing accounts with
  | nil => rfl
  | cons r records ih =>
    rw [List.foldl_cons, ih, usageOf_credit]
    by_cases he : node = r.node
    · simp [he]
    · have he' : ¬ r.node = node := fun h => he h.symm
      simp [he, he']

/-- One pass over all records sums every node as a pass for that node alone does. -/
theorem usageOf_accounts (l : Ledger) (node : String) :
    l.accounts.usageOf node = l.usageOf node :=
  usageOf_foldl_credit .empty l.toList node

theorem contains_credit (accounts : Catalog Account) (r : Record) (node : String) :
    (credit accounts r).contains node = true ↔
      node = r.node ∨ accounts.contains node = true := by
  rw [Catalog.contains, get?_credit]
  split
  case isTrue he => simp [he]
  case isFalse he =>
    rw [or_iff_right he]
    rfl

theorem contains_foldl_credit (accounts : Catalog Account) (records : List Record)
    (node : String) :
    (records.foldl credit accounts).contains node = true ↔
      accounts.contains node = true ∨ ∃ r ∈ records, node = r.node := by
  induction records generalizing accounts with
  | nil => simp
  | cons r records ih =>
    rw [List.foldl_cons, ih, contains_credit]
    simp only [List.mem_cons, exists_eq_or_imp]
    tauto

/-- A node has an account if it hosts a service. -/
theorem contains_accounts (l : Ledger) (node : String) :
    l.accounts.contains node = true ↔ l.hostedOn node ≠ [] := by
  have hnone : ¬ (Catalog.empty : Catalog Account).contains node = true := Bool.false_ne_true
  rw [accounts, contains_foldl_credit, or_iff_right hnone, hostedOn, Ne, List.filter_eq_nil_iff]
  simp only [not_forall, not_not, exists_prop]
  exact exists_congr fun r => and_congr_right fun _ => by rw [beq_iff_eq, eq_comm]

/-- The account of a node says what the usage of the node alone says. -/
theorem get?_accounts (l : Ledger) (node : String) :
    l.accounts.get? node =
      if (l.hostedOn node).isEmpty then none else some ⟨node, l.usageOf node⟩ := by
  have hcontains := contains_accounts l node
  have husage := usageOf_accounts l node
  cases hget : l.accounts.get? node with
  | none =>
    have hempty : l.hostedOn node = [] := by
      by_contra hne
      have hsome := hcontains.mpr hne
      rw [Catalog.contains, hget] at hsome
      cases hsome
    rw [hempty]
    rfl
  | some account =>
    have hne := hcontains.mp (Catalog.contains_iff.mpr ⟨account, hget⟩)
    obtain ⟨name, usage⟩ := account
    obtain rfl : name = node := Catalog.key_of_get? hget
    rw [Catalog.usageOf, hget] at husage
    rw [if_neg (mt List.isEmpty_iff.mp hne), ← husage]
    rfl

end Ledger

end Placement
