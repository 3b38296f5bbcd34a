import Mathlib
import Placement.Ranking

/-!
# Rankings by standing

A ranking looks at the bits of a score, at a capacity and at a name. These make up a standing.
Standings are totally ordered, whatever word the score is: every NaN, both infinities and both zeros
have places of their own. A ranking of anything that has a standing is sorted, leaves entries of
equal standing in the order in which they came, and where the names differ it is the same in
whatever order they come. Where scores come from, and whether they are numbers, is not treated here.
-/
namespace Placement

theorem toNat_rankOfBits (word : UInt64) :
    (rankOfBits word).toNat =
      if word.toNat < 0x8000000000000000 then word.toNat + 0x8000000000000000
      else 0xFFFFFFFFFFFFFFFF - word.toNat := by
  have hword := word.toNat_lt
  have hhalf : (0x8000000000000000 : UInt64).toNat = 0x8000000000000000 := rfl
  have hbound : word < 0x8000000000000000 ↔ word.toNat < 0x8000000000000000 :=
    UInt64.lt_iff_toNat_lt
  unfold rankOfBits
  by_cases h : word < 0x8000000000000000
  · rw [if_pos h, if_pos (hbound.mp h), UInt64.toNat_add, hhalf]
    have := hbound.mp h
    omega
  · rw [if_neg h, if_neg (mt hbound.mpr h), UInt64.toNat_not]
    rfl

/-- No two words have the same place. -/
theorem rankOfBits_injective : Function.Injective rankOfBits := by
  intro v w h
  have hv := v.toNat_lt
  have hw := w.toNat_lt
  have hplaces := congrArg UInt64.toNat h
  rw [toNat_rankOfBits, toNat_rankOfBits] at hplaces
  apply UInt64.toNat_inj.mp
  split_ifs at hplaces <;> omega

/-- What an entry is ranked by: the bits of its score, its capacity and its name. -/
structure Standing where
  score : UInt64
  capacity : Capacity
  node : String
  deriving DecidableEq

namespace Standing

/-- Compares two standings, the preferred one less than the other. -/
def prefer (a b : Standing) : Ordering :=
  (compare (rankOfBits b.score) (rankOfBits a.score)).then <|
    (compare b.capacity.memory a.capacity.memory).then <|
      (compare b.capacity.cpu a.capacity.cpu).then <|
        compare a.node b.node

theorem prefer_eq_compareLex :
    prefer = compareLex (fun a b => compareOn (fun x : Standing => rankOfBits x.score) b a)
      (compareLex (fun a b => compareOn (fun x : Standing => x.capacity.memory) b a)
        (compareLex (fun a b => compareOn (fun x : Standing => x.capacity.cpu) b a)
          (compareOn node))) := rfl

instance : Std.TransCmp prefer := by
  rw [prefer_eq_compareLex]
  infer_instance

variable {a b c : Standing}

theorem prefer_self (a : Standing) : prefer a a = .eq := Std.ReflCmp.compare_self

theorem prefer_swap (a b : Standing) : prefer b a = (prefer a b).swap := Std.OrientedCmp.eq_swap

theorem isLE_prefer_trans (hab : (prefer a b).isLE = true) (hbc : (prefer b c).isLE = true) :
    (prefer a c).isLE = true :=
  Std.TransCmp.isLE_trans hab hbc

theorem isLE_prefer_total (a b : Standing) :
    ((prefer a b).isLE || (prefer b a).isLE) = true := by
  rw [prefer_swap a b]
  cases prefer a b <;> rfl

/-- Neither of two standings is preferred if all that is compared coincides. -/
theorem prefer_eq_eq_iff :
    prefer a b = .eq ↔
      a.score = b.score ∧ a.capacity.memory = b.capacity.memory ∧
        a.capacity.cpu = b.capacity.cpu ∧ a.node = b.node := by
  simp only [prefer, Ordering.then_eq_eq, Std.LawfulEqCmp.compare_eq_iff_eq,
    rankOfBits_injective.eq_iff, eq_comm (a := b.score), eq_comm (a := b.capacity.memory),
    eq_comm (a := b.capacity.cpu)]

theorem eq_of_prefer (h : prefer a b = .eq) : a = b := by
  obtain ⟨hscore, hmemory, hcpu, hnode⟩ := prefer_eq_eq_iff.mp h
  obtain ⟨score, ⟨cpu, memory⟩, node⟩ := a
  obtain ⟨score', ⟨cpu', memory'⟩, node'⟩ := b
  simp_all

theorem eq_of_isLE_prefer (hab : (prefer a b).isLE = true) (hba : (prefer b a).isLE = true) :
    a = b :=
  eq_of_prefer (Std.OrientedCmp.isLE_antisymm hab hba)

/-- Entries with the most preferred one first; those of equal standing keep their order. -/
def rank {α : Type} (standing : α → Standing) (entries : List α) : List α :=
  entries.mergeSort fun a b => ((standing a).prefer (standing b)).isLE

section
variable {α : Type} (standing : α → Standing) (entries : List α)

theorem rank_perm : (rank standing entries).Perm entries := List.mergeSort_perm _ _

theorem pairwise_rank :
    (rank standing entries).Pairwise fun a b =>
      ((standing a).prefer (standing b)).isLE = true := by
  apply List.pairwise_mergeSort
  · intro a b c
    exact isLE_prefer_trans
  · intro a b
    exact isLE_prefer_total (standing a) (standing b)

/-- The entries of one standing are ranked in the order in which they came. -/
theorem filter_rank (x : α) :
    (rank standing entries).filter (fun y => (standing x).prefer (standing y) == .eq) =
      entries.filter fun y => (standing x).prefer (standing y) == .eq := by
  -- a sorted part of a list is still a part of the list once that is sorted
  have hpart : (entries.filter fun y => (standing x).prefer (standing y) == .eq).Sublist
      (rank standing entries) := by
    apply List.sublist_mergeSort
    · intro a b c
      exact isLE_prefer_trans
    · intro a b
      exact isLE_prefer_total (standing a) (standing b)
    · apply List.pairwise_of_forall_mem_list
      intro a ha b hb
      have hsame : standing a = standing b :=
        (eq_of_prefer (beq_iff_eq.mp (List.mem_filter.mp ha).2)).symm.trans
          (eq_of_prefer (beq_iff_eq.mp (List.mem_filter.mp hb).2))
      rw [hsame, prefer_self]
      rfl
    · exact List.filter_sublist
  have hpart' := hpart.filter fun y => (standing x).prefer (standing y) == .eq
  rw [List.filter_filter] at hpart'
  simp only [Bool.and_self] at hpart'
  exact (hpart'.eq_of_length ((rank_perm standing entries).filter _).length_eq.symm).symm

/-- Where names differ, the ranking does not depend on the order in which the entries came. -/
theorem rank_eq_of_perm {other : List α}
    (distinct : (entries.map fun x => (standing x).node).Nodup) (perm : other.Perm entries) :
    rank standing other = rank standing entries := by
  refine List.Perm.eq_of_pairwise (fun a b ha hb hab hba => ?_) (pairwise_rank standing other)
    (pairwise_rank standing entries)
    ((rank_perm standing other).trans (perm.trans (rank_perm standing entries).symm))
  have hsame : standing a = standing b := eq_of_isLE_prefer hab hba
  have ha' : a ∈ entries := perm.mem_iff.mp ((rank_perm standing other).mem_iff.mp ha)
  have hb' : b ∈ entries := (rank_perm standing entries).mem_iff.mp hb
  exact List.inj_on_of_nodup_map distinct ha' hb' (congrArg node hsame)

end

end Standing

/-- What a scored node is ranked by. -/
def NodeScore.standing (x : NodeScore) : Standing := ⟨x.score.toBits, x.capacity, x.node⟩

/-- Scored nodes are compared and ranked by their standings. These are totally ordered, for all
words of bits, and equal only if all that is compared coincides. A ranking by standings consists of
the entries in this order, with those of equal standing as they came; and if all names differ, it is
the same for the entries in any order. -/
theorem Standing.ranking_is_canonical :
    (∀ x y : NodeScore, x.prefer y = x.standing.prefer y.standing) ∧
      (∀ scores, NodeScore.rank scores = rank NodeScore.standing scores) ∧
      (∀ a b : Standing, b.prefer a = (a.prefer b).swap) ∧
      (∀ a b c : Standing, (a.prefer b).isLE = true → (b.prefer c).isLE = true →
        (a.prefer c).isLE = true) ∧
      (∀ a b : Standing, a.prefer b = .eq ↔
        a.score = b.score ∧ a.capacity.memory = b.capacity.memory ∧
          a.capacity.cpu = b.capacity.cpu ∧ a.node = b.node) ∧
      ∀ {α : Type} (standing : α → Standing) (entries : List α),
        (rank standing entries).Perm entries ∧
        ((rank standing entries).Pairwise fun x y =>
          ((standing x).prefer (standing y)).isLE = true) ∧
        (∀ x, (rank standing entries).filter (fun y => (standing x).prefer (standing y) == .eq) =
          entries.filter fun y => (standing x).prefer (standing y) == .eq) ∧
        ((entries.map fun x => (standing x).node).Nodup →
          ∀ other, other.Perm entries → rank standing other = rank standing entries) :=
  ⟨fun _ _ => rfl, fun _ => rfl, prefer_swap, fun _ _ _ => isLE_prefer_trans,
    fun _ _ => prefer_eq_eq_iff, fun standing entries =>
      ⟨rank_perm standing entries, pairwise_rank standing entries, filter_rank standing entries,
        fun distinct _ perm => rank_eq_of_perm standing entries distinct perm⟩⟩

/-- Two words that are no numbers, with either sign, infinity and both zeros have one ranking. -/
theorem Standing.ranking_is_canonical_at_extremes :
    rank id [⟨0x8000000000000000, ⟨4, 8⟩, "a"⟩, ⟨0xFFF8000000000001, ⟨4, 8⟩, "b"⟩,
        ⟨0, ⟨1, 1⟩, "c"⟩, ⟨0x7FF8000000000001, ⟨1, 1⟩, "d"⟩, ⟨0x7FF0000000000000, ⟨4, 8⟩, "e"⟩] =
      [⟨0x7FF8000000000001, ⟨1, 1⟩, "d"⟩, ⟨0x7FF0000000000000, ⟨4, 8⟩, "e"⟩, ⟨0, ⟨1, 1⟩, "c"⟩,
        ⟨0x8000000000000000, ⟨4, 8⟩, "a"⟩, ⟨0xFFF8000000000001, ⟨4, 8⟩, "b"⟩] := by
  obtain ⟨-, -, -, -, -, law⟩ := ranking_is_canonical
  obtain ⟨-, -, -, canonical⟩ := law id [⟨0x7FF8000000000001, ⟨1, 1⟩, "d"⟩,
    ⟨0x7FF0000000000000, ⟨4, 8⟩, "e"⟩, ⟨0, ⟨1, 1⟩, "c"⟩, ⟨0x8000000000000000, ⟨4, 8⟩, "a"⟩,
    ⟨0xFFF8000000000001, ⟨4, 8⟩, "b"⟩]
  rw [canonical (by decide) _ (by decide)]
  exact List.mergeSort_of_pairwise (by decide +kernel)

end Placement
