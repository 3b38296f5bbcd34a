import Mathlib
import Placement.Proofs.Document.Sound
import Placement.Proofs.Toml.Sheet
import Placement.Proofs.Toml.Values

/-!
# Trees written in TOML

A tree within a line is read back with the values that its numbers have here, unless one of them has
none or the tree is nested too deep. A whole text may also hold members of the outermost record, and
lists of records, under headers of their own, after the others.
-/
namespace Placement.Toml
open Decimal Document RawTree

variable {depth : ℕ} {rest : List Char}

/-- How trees are written within a line. -/
def style : Style := ⟨quote, fun name => Key.write name ++ " = ".toList⟩

/-- The number of a literal, if it has one. -/
def number (l : Literal) : Document := (valueOf? l).elim .other .number

theorem soundly_number (depth : ℕ) (l : Literal) :
    soundly depth (number l) = (valueOf? l).map .number := by
  unfold number
  cases valueOf? l with
  | none => exact soundly_eq_none (sound_other depth)
  | some n => exact soundly_of_sound (sound_number depth n)

/-- No number begins with a bracket. -/
theorem readScalar_bracket {c : Char} (hc : c = '[' ∨ c = '{') (cs : List Char) :
    readScalar (c :: cs) = none := by
  have hdate : afterDateTime? (c :: cs) = none := afterDateTime?_of_noDigit fun d hd => by
    obtain rfl : c = d := Option.some.inj hd
    rcases hc with rfl | rfl <;> rfl
  unfold readScalar
  rw [hdate]
  rcases hc with rfl | rfl <;> rfl

theorem spells_bracket {c : Char} (hc : c = '[' ∨ c = '{') (cs : List Char) :
    Spells 0 (c :: cs) none := by
  refine ⟨⟨c, cs, rfl, ?_⟩, fun rest _ => ?_⟩
  · rcases hc with rfl | rfl <;> decide
  · rw [List.cons_append, value]
    · exact readScalar_bracket hc _
    · rintro cs' heq
      obtain rfl := (List.cons.inj heq).1
      rcases hc with hc | hc <;> cases hc
    · rintro cs' heq
      obtain rfl := (List.cons.inj heq).1
      rcases hc with hc | hc <;> cases hc

theorem mapM_named? (f : RawTree → Document) (ms : List (String × RawTree)) :
    ms.mapM (named? fun t => soundly depth (f t)) =
      if (ms.map fun m => (m.1, f m.2)).all fun m => sound depth m.2 then
        some (ms.map fun m => (m.1, f m.2)) else none := by
  induction ms with
  | nil => rfl
  | cons m ms ih =>
    rw [List.mapM_cons, ih, List.map_cons, List.all_cons, named?, soundly]
    cases sound depth (f m.2) <;>
      cases (ms.map fun m => (m.1, f m.2)).all fun m => sound depth m.2 <;> rfl

/-- A tree within a line is read exactly if its document is sound. -/
theorem spells_write {P : Spelling → Prop} {t : RawTree} (plain : t.Plain P) (depth : ℕ) :
    Spells depth (t.write style) (soundly depth (t.document number)) := by
  induction plain generalizing depth with
  | text s =>
    rw [document, soundly_of_sound (sound_text depth s)]
    exact spells_text depth s
  | @number s _ =>
    rw [document, soundly_number]
    exact spells_number depth s
  | @list ts _ ih =>
    rw [RawTree.write, writeItems_eq, document, documentItems_eq]
    cases depth with
    | zero => exact spells_bracket (.inl rfl) _
    | succ depth =>
      have hspells := spells_list fun t ht => ih t ht depth
      rw [mapM_soundly, apply_ite (Option.map _)] at hspells
      exact hspells
  | @record ms distinct _ ih =>
    rw [RawTree.write, writeMembers_eq, document, documentMembers_eq]
    cases depth with
    | zero => exact spells_bracket (.inr rfl) _
    | succ depth =>
      have hspells := spells_table (RawTree.write style)
        (fun t => soundly depth (t.document number)) distinct fun m hm => ih m hm depth
      rw [mapM_named?, apply_ite (Option.map _)] at hspells
      exact hspells

/-- The tree that stands under a header. -/
def Section.tree : Section RawTree → RawTree
  | table ms => .record ms
  | tables first others => .list ((first :: others).map .record)

/-- The members of the outermost record, in the order in which they are written. -/
def Sheet.tree (s : Sheet RawTree) : List (String × RawTree) :=
  s.assigned ++ s.sections.map fun part => (part.1, part.2.tree)

section
variable {s : Sheet RawTree} {P : Spelling → Prop}

theorem Section.document_tree (value : Literal → Document) (part : Section RawTree) :
    part.document (RawTree.document value) = part.tree.document value := by
  cases part with
  | table ms => rw [Section.document, tree, RawTree.document, documentMembers_eq, documents]
  | tables first others =>
    rw [Section.document, tree, RawTree.document, documentItems_eq, List.map_map]
    congr 1
    refine List.map_congr_left fun ms _ => ?_
    rw [Function.comp_apply, RawTree.document, documentMembers_eq, documents]

theorem Sheet.members_tree (value : Literal → Document) (s : Sheet RawTree) :
    s.members (RawTree.document value) = documentMembers value s.tree := by
  rw [documentMembers_eq, members, tree, List.map_append, documents, List.map_map]
  congr 1
  exact List.map_congr_left fun part _ => congrArg (Prod.mk part.1) (part.2.document_tree value)

theorem Section.distinct_of_plain {part : Section RawTree} (plain : part.tree.Plain P) :
    part.Distinct := by
  cases part with
  | table ms =>
    cases plain with
    | record distinct _ => exact distinct
  | tables first others =>
    cases plain with
    | list items =>
      intro ms hms
      cases items _ (List.mem_map_of_mem hms) with
      | record distinct _ => exact distinct

theorem Sheet.distinct_of_plain (plain : (RawTree.record s.tree).Plain P) : s.Distinct := by
  cases plain with
  | record distinct members =>
    refine ⟨?_, fun part hpart => ?_⟩
    · rwa [tree, List.map_append, List.map_map] at distinct
    · exact Section.distinct_of_plain
        (members (part.1, part.2.tree) (List.mem_append_right _ (List.mem_map_of_mem hpart)))

theorem value?_settings {ms : List (String × RawTree)} {r : Row RawTree} {t : RawTree}
    (hr : r ∈ settings ms) (ht : t ∈ r.value?) : ∃ m ∈ ms, m.2 = t := by
  obtain ⟨m, hm, rfl⟩ := List.mem_map.mp hr
  exact ⟨m, hm, Option.some.inj ht⟩

/-- What the parts of a tree inherit holds of the values of a sheet if it holds of the whole. -/
theorem Sheet.forall_values {Q : RawTree → Prop} (item : ∀ ts, Q (.list ts) → ∀ t ∈ ts, Q t)
    (member : ∀ ms, Q (.record ms) → ∀ m ∈ ms, Q m.2) (h : Q (.record s.tree)) :
    ∀ t ∈ s.values, Q t := by
  intro t ht
  obtain ⟨r, hr, hvalue⟩ := List.mem_filterMap.mp ht
  rcases List.mem_append.mp hr with hr | hr
  · obtain ⟨m, hm, rfl⟩ := value?_settings hr hvalue
    exact member _ h m (List.mem_append_left _ hm)
  · obtain ⟨part, hpart, hr⟩ := List.mem_flatMap.mp hr
    have htree : Q part.2.tree :=
      member _ h (part.1, part.2.tree) (List.mem_append_right _ (List.mem_map_of_mem hpart))
    obtain ⟨name, part⟩ := part
    cases part with
    | table ms =>
      rcases List.mem_cons.mp hr with rfl | hr
      · cases hvalue
      · obtain ⟨m, hm, rfl⟩ := value?_settings hr hvalue
        exact member _ htree m hm
    | tables first others =>
      obtain ⟨ms, hms, hr⟩ := List.mem_flatMap.mp hr
      rcases List.mem_cons.mp hr with rfl | hr
      · cases hvalue
      · obtain ⟨m, hm, rfl⟩ := value?_settings hr hvalue
        exact member _ (item _ htree _ (List.mem_map_of_mem hms)) m hm

theorem Sheet.plain_values (plain : (RawTree.record s.tree).Plain P) :
    ∀ t ∈ s.values, t.Plain P :=
  forall_values (fun _ h => by cases h; assumption) (fun _ h => by cases h; assumption) plain

/-- A sheet is read if all its values are sound. -/
theorem read_sheet (plain : (RawTree.record s.tree).Plain P)
    (values : ∀ t ∈ s.values, sound deepest (t.document number) = true) :
    read (String.ofList (s.write (RawTree.write style))) =
      some ((RawTree.record s.tree).document number) := by
  have hread := read_write (RawTree.write style) (RawTree.document number)
    (Sheet.distinct_of_plain plain) fun t ht => by
      have hspells := spells_write (s.plain_values plain t ht) deepest
      rwa [soundly_of_sound (values t ht)] at hspells
  rw [hread, Sheet.members_tree, RawTree.document]

theorem read_sheet_eq_none (plain : (RawTree.record s.tree).Plain P) {t : RawTree}
    (ht : t ∈ s.values) (h : sound deepest (t.document number) = false) :
    read (String.ofList (s.write (RawTree.write style))) = none :=
  read_write_eq_none (fun t ht => spells_write (s.plain_values plain t ht) deepest) ht
    (soundly_eq_none h)

end

end Placement.Toml
