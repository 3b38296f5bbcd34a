import Mathlib
import Placement.Toml.Table

/-!
# Tables filled by keys of one name

Values assigned one after the other, under names that are all different, become the members of a
table in that order.
-/
namespace Placement.Toml

variable {α : Type} {f : α → Document} {ms : Members} {name : String}

/-- The documents of named values. -/
def documents (f : α → Document) (ms : List (String × α)) : List (String × Document) :=
  ms.map fun m => (m.1, f m.2)

/-- The members that hold named values. -/
def entries (f : α → Document) (ms : List (String × α)) : Members :=
  ms.map fun m => (m.1, .value (f m.2))

theorem membersToDocument_append (ms ns : Members) :
    membersToDocument (ms ++ ns) = membersToDocument ms ++ membersToDocument ns := by
  induction ms with
  | nil => rfl
  | cons m ms ih => simp [membersToDocument, ih]

theorem membersToDocument_entries (ms : List (String × α)) :
    membersToDocument (entries f ms) = documents f ms := by
  induction ms with
  | nil => rfl
  | cons m ms ih =>
    simpa [entries, documents, membersToDocument, Entry.toDocument] using ih

theorem elementsToDocument_entries (mss : List (List (String × α))) :
    elementsToDocument (mss.map (entries f)) =
      mss.map fun ms => .record (documents f ms) true := by
  induction mss with
  | nil => rfl
  | cons ms mss ih => simp [elementsToDocument, membersToDocument_entries, ih]

theorem lookup_of_fresh (h : name ∉ ms.map Prod.fst) : ms.lookup name = none := by
  rw [List.lookup_eq_none_iff]
  intro m hm
  have hne : name ≠ m.1 := fun heq => h (heq ▸ List.mem_map_of_mem hm)
  simpa using hne

/-- The assignments that are read from the lines of a table. -/
def keyed (f : α → Document) (ms : List (String × α)) : List (Key × Document) :=
  ms.map fun m => (⟨[], m.1⟩, f m.2)

theorem assignAll_keyed {as : List (String × α)}
    (distinct : (ms.map Prod.fst ++ as.map Prod.fst).Nodup) :
    Members.assignAll ms (keyed f as) = some (ms ++ entries f as) := by
  induction as generalizing ms with
  | nil => simp [Members.assignAll, keyed, entries]
  | cons a as ih =>
    have hfresh : a.1 ∉ ms.map Prod.fst := fun hmem =>
      (List.nodup_append.mp distinct).2.2 _ hmem _ List.mem_cons_self rfl
    have hassign : Members.assign ms ⟨[], a.1⟩ (f a.2) =
        some (ms ++ [(a.1, .value (f a.2))]) := by
      simp [Members.assign, Members.change, lookup_of_fresh hfresh]
    have hrest : Members.assignAll (ms ++ [(a.1, .value (f a.2))]) (keyed f as) = _ :=
      ih (by simpa using distinct)
    unfold Members.assignAll keyed at hrest ⊢
    simp only [List.map_cons, List.foldlM_cons, hassign, Option.bind_eq_bind, Option.bind_some,
      hrest]
    simp [entries]

theorem assignAll_nil_keyed {as : List (String × α)} (distinct : (as.map Prod.fst).Nodup) :
    Members.assignAll [] (keyed f as) = some (entries f as) :=
  assignAll_keyed distinct

end Placement.Toml
