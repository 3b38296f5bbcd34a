import Mathlib
import Placement.Proofs.Toml.Lines
import Placement.Proofs.Toml.Table

/-!
# Texts written in TOML

A sheet holds the members of the outermost table: those assigned at its start, and those under
headers of their own. What is written of it is read back with the members in this order, provided
that no name comes twice in one table. It is not read at all if one of its values is not.
-/
namespace Placement.Toml

variable {α : Type} {f : α → Document} {ms : Members} {name : String} {ls : List Line}

/-- What stands under headers of its own: a table, or a list of at least one table. -/
inductive Section (α : Type) where
  | table (members : List (String × α))
  | tables (first : List (String × α)) (others : List (List (String × α)))

structure Sheet (α : Type) where
  assigned : List (String × α)
  sections : List (String × Section α)

def settings (ms : List (String × α)) : List (Row α) := ms.map fun m => .assign m.1 m.2

def Section.rows (name : String) : Section α → List (Row α)
  | table ms => .table name :: settings ms
  | tables first others => (first :: others).flatMap fun ms => .element name :: settings ms

def Sheet.rows (s : Sheet α) : List (Row α) :=
  settings s.assigned ++ s.sections.flatMap fun part => part.2.rows part.1

def Sheet.write (text : α → List Char) (s : Sheet α) : List Char :=
  s.rows.flatMap (Row.write text)

def Section.document (f : α → Document) : Section α → Document
  | table ms => .record (documents f ms) true
  | tables first others =>
    .list ((first :: others).map fun ms => .record (documents f ms) true) true

/-- The members of the outermost table, in the order in which they are written. -/
def Sheet.members (f : α → Document) (s : Sheet α) : List (String × Document) :=
  documents f s.assigned ++ s.sections.map fun part => (part.1, part.2.document f)

/-- No table has two members of one name. -/
def Section.Distinct : Section α → Prop
  | table ms => (ms.map Prod.fst).Nodup
  | tables first others => ∀ ms ∈ first :: others, (ms.map Prod.fst).Nodup

structure Sheet.Distinct (s : Sheet α) : Prop where
  root : (s.assigned.map Prod.fst ++ s.sections.map Prod.fst).Nodup
  sections : ∀ part ∈ s.sections, part.2.Distinct

def Section.entry (f : α → Document) : Section α → Entry
  | table ms => .table .header (entries f ms)
  | tables first others => .tables ((first :: others).map (entries f))

theorem Section.toDocument_entry (part : Section α) :
    (part.entry f).toDocument = part.document f := by
  cases part with
  | table ms => rw [entry, Entry.toDocument, membersToDocument_entries, Section.document]
  | tables first others =>
    rw [entry, Entry.toDocument, elementsToDocument_entries, Section.document]

/-- What a line says if every value can be read. -/
def Row.line (f : α → Document) : Row α → Line
  | table name => .table ⟨[], name⟩
  | element name => .element ⟨[], name⟩
  | assign name a => .assign ⟨[], name⟩ (f a)

/-- Lines that do not go on with an assignment. -/
def Headed (ls : List Line) : Prop := ∀ l ∈ ls.head?, ∀ key d, l ≠ .assign key d

theorem leading_of_headed (h : Headed ls) : leading ls = ([], ls) := by
  unfold leading
  split
  next key d _ => exact absurd rfl (h _ rfl key d)
  next => rfl

theorem leading_settings (as : List (String × α)) (h : Headed ls) :
    leading ((settings as).map (Row.line f) ++ ls) = (keyed f as, ls) := by
  induction as with
  | nil => exact leading_of_headed h
  | cons a as ih =>
    have hlines : (settings (a :: as)).map (Row.line f) ++ ls =
        .assign ⟨[], a.1⟩ (f a.2) :: ((settings as).map (Row.line f) ++ ls) := rfl
    rw [hlines, leading, ih]
    rfl

theorem addSections_settings (as : List (String × α)) (ms : Members) (ls : List Line) :
    addSections ms ((settings as).map (Row.line f) ++ ls) = addSections ms ls := by
  induction as with
  | nil => rfl
  | cons a as ih => exact ih

theorem headed_rows (name : String) (part : Section α) (ls : List Line) :
    Headed ((part.rows name).map (Row.line f) ++ ls) := by
  intro l hl key d
  cases part with
  | table ms =>
    obtain rfl : Line.table ⟨[], name⟩ = l := Option.some.inj hl
    exact nofun
  | tables first others =>
    obtain rfl : Line.element ⟨[], name⟩ = l := Option.some.inj hl
    exact nofun

theorem headed_sections (parts : List (String × Section α)) :
    Headed ((parts.flatMap fun part => part.2.rows part.1).map (Row.line f)) := by
  cases parts with
  | nil => exact nofun
  | cons part parts =>
    rw [List.flatMap_cons, List.map_append]
    exact headed_rows part.1 part.2 _

theorem addTable_keyed {as : List (String × α)} (fresh : name ∉ ms.map Prod.fst)
    (distinct : (as.map Prod.fst).Nodup) :
    ms.addTable ⟨[], name⟩ (keyed f as) =
      some (ms ++ [(name, .table .header (entries f as))]) := by
  simp [Members.addTable, Members.change, lookup_of_fresh fresh, assignAll_nil_keyed distinct]

theorem replace_last (fresh : name ∉ ms.map Prod.fst) (e e' : Entry) :
    Members.replace name e' (ms ++ [(name, e)]) = ms ++ [(name, e')] := by
  have hkept : ms.map (fun m => if m.1 == name then (name, e') else m) = ms := by
    refine (List.map_congr_left fun m hm => ?_).trans (List.map_id ms)
    have hne : m.1 ≠ name := fun heq => fresh (heq ▸ List.mem_map_of_mem hm)
    simp [hne]
  rw [Members.replace, List.map_append, hkept]
  simp

theorem lookup_last (fresh : name ∉ ms.map Prod.fst) (e : Entry) :
    (ms ++ [(name, e)]).lookup name = some e := by
  rw [List.lookup_append, lookup_of_fresh fresh]
  simp

theorem addElement_first {as : List (String × α)} (fresh : name ∉ ms.map Prod.fst)
    (distinct : (as.map Prod.fst).Nodup) :
    ms.addElement ⟨[], name⟩ (keyed f as) =
      some (ms ++ [(name, .tables [entries f as])]) := by
  simp [Members.addElement, Members.change, lookup_of_fresh fresh, assignAll_nil_keyed distinct]

theorem addElement_next {as : List (String × α)} (fresh : name ∉ ms.map Prod.fst)
    (distinct : (as.map Prod.fst).Nodup) (elements : List Members) :
    Members.addElement (ms ++ [(name, .tables elements)]) ⟨[], name⟩ (keyed f as) =
      some (ms ++ [(name, .tables (elements ++ [entries f as]))]) := by
  simp [Members.addElement, Members.change, lookup_last fresh, replace_last fresh,
    assignAll_nil_keyed distinct]

theorem headed_elements (name : String) (mss : List (List (String × α))) (h : Headed ls) :
    Headed ((mss.flatMap fun ms => Row.element name :: settings ms).map (Row.line f) ++
      ls) := by
  cases mss with
  | nil => exact h
  | cons as mss => exact headed_rows name (.tables as mss) ls

/-- The further tables of a list join the first ones. -/
theorem addSections_elements (fresh : name ∉ ms.map Prod.fst) (h : Headed ls)
    {mss : List (List (String × α))} (distinct : ∀ as ∈ mss, (as.map Prod.fst).Nodup)
    (elements : List Members) :
    addSections (ms ++ [(name, .tables elements)])
        ((mss.flatMap fun as => Row.element name :: settings as).map (Row.line f) ++ ls) =
      addSections (ms ++ [(name, .tables (elements ++ mss.map (entries f)))]) ls := by
  induction mss generalizing elements with
  | nil => simp
  | cons as mss ih =>
    obtain ⟨hfirst, hrest⟩ := List.forall_mem_cons.mp distinct
    have hheaded := headed_elements (f := f) name mss h
    rw [List.flatMap_cons, List.cons_append, List.map_cons, List.cons_append, List.map_append,
      List.append_assoc, Row.line, addSections, leading_settings as hheaded,
      addElement_next fresh hfirst]
    rw [Option.bind_eq_bind, Option.bind_some, addSections_settings, ih hrest]
    simp

theorem addSections_rows (part : Section α) (fresh : name ∉ ms.map Prod.fst) (h : Headed ls)
    (distinct : part.Distinct) :
    addSections ms ((part.rows name).map (Row.line f) ++ ls) =
      addSections (ms ++ [(name, part.entry f)]) ls := by
  cases part with
  | table as =>
    rw [Section.rows, List.map_cons, List.cons_append, Row.line, addSections,
      leading_settings as h, addTable_keyed fresh distinct, Option.bind_eq_bind,
      Option.bind_some, addSections_settings, Section.entry]
  | tables first others =>
    obtain ⟨hfirst, hrest⟩ := List.forall_mem_cons.mp distinct
    have hheaded := headed_elements (f := f) name others h
    rw [Section.rows, List.flatMap_cons, List.cons_append, List.map_cons, List.cons_append,
      List.map_append, List.append_assoc, Row.line, addSections, leading_settings first hheaded,
      addElement_first fresh hfirst, Option.bind_eq_bind, Option.bind_some,
      addSections_settings, addSections_elements fresh h hrest]
    rfl

theorem addSections_sections {parts : List (String × Section α)}
    (distinct : (ms.map Prod.fst ++ parts.map Prod.fst).Nodup)
    (sections : ∀ part ∈ parts, part.2.Distinct) :
    addSections ms ((parts.flatMap fun part => part.2.rows part.1).map (Row.line f)) =
      some (ms ++ parts.map fun part => (part.1, part.2.entry f)) := by
  induction parts generalizing ms with
  | nil => simp [addSections]
  | cons part parts ih =>
    obtain ⟨hfirst, hrest⟩ := List.forall_mem_cons.mp sections
    have hfresh : part.1 ∉ ms.map Prod.fst := fun hmem =>
      (List.nodup_append.mp distinct).2.2 _ hmem _ List.mem_cons_self rfl
    rw [List.flatMap_cons, List.map_append,
      addSections_rows part.2 hfresh (headed_sections parts) hfirst,
      ih (by simpa using distinct) hrest]
    simp

/-- The lines of a sheet make up its members. -/
theorem assemble_rows (s : Sheet α) (distinct : s.Distinct) :
    (assemble (s.rows.map (Row.line f))).map Members.toDocument =
      some (.record (s.members f) true) := by
  have hheaded := headed_sections (f := f) s.sections
  have hroot : (s.assigned.map Prod.fst).Nodup := (List.nodup_append.mp distinct.root).1
  have hnames : (entries f s.assigned).map Prod.fst = s.assigned.map Prod.fst := by
    simp [entries]
  have hsections : addSections (entries f s.assigned) _ = _ :=
    addSections_sections (f := f) (by rw [hnames]; exact distinct.root) distinct.sections
  have hparts : membersToDocument (s.sections.map fun part => (part.1, part.2.entry f)) =
      s.sections.map fun part => (part.1, part.2.document f) := by
    induction s.sections with
    | nil => rfl
    | cons part parts ih => simp [membersToDocument, Section.toDocument_entry, ih]
  rw [assemble, Sheet.rows, List.map_append, leading_settings s.assigned hheaded,
    assignAll_nil_keyed hroot, Option.bind_eq_bind, Option.bind_some, addSections_settings,
    hsections, Option.map_some, Members.toDocument, membersToDocument_append,
    membersToDocument_entries, hparts, Sheet.members]

/-- The values that a sheet assigns anywhere. -/
def Sheet.values (s : Sheet α) : List α := s.rows.filterMap Row.value?

section
variable {text : α → List Char} {f? : α → Option Document} {s : Sheet α}

theorem Row.mem_values {r : Row α} {a : α} (hr : r ∈ s.rows) (ha : a ∈ r.value?) : a ∈ s.values :=
  List.mem_filterMap.mpr ⟨r, hr, ha⟩

/-- A text is what its lines make up: none of them begins with a byte order mark. -/
theorem read_rows (spells : ∀ a ∈ s.values, Spells deepest (text a) (f? a)) :
    read (String.ofList (s.write text)) =
      ((s.rows.mapM (Row.line? f?)).bind assemble).map Members.toDocument := by
  have hmark : skipMark (s.write text) = s.write text := by
    unfold Sheet.write
    cases hrows : s.rows with
    | nil => rfl
    | cons r rows =>
      obtain ⟨c, cs, hhead, hc⟩ := exists_head_row text r (rows.flatMap (Row.write text))
      rw [List.flatMap_cons, hhead]
      unfold skipMark
      split
      next heq =>
        obtain ⟨rfl, -⟩ := List.cons.inj heq
        rcases hc with hc | hc | hc <;> cases hc
      next => rfl
  have hlength : s.rows.length < (s.write text).length + 1 := by
    rw [Sheet.write, Nat.lt_succ_iff]
    induction s.rows with
    | nil => exact le_rfl
    | cons r rows ih =>
      simp only [List.flatMap_cons, List.length_append, List.length_cons, Row.write]
      omega
  have hlines := lines_write (fun r hr a ha => spells a (Row.mem_values hr ha)) hlength
  rw [read, String.toList_ofList, hmark, ← Sheet.write] at *
  simp only [hlines]
  cases s.rows.mapM (Row.line? f?) with
  | none => rfl
  | some ls => cases hassemble : assemble ls <;> simp [hassemble]

theorem mapM_line? {rows : List (Row α)} (h : ∀ r ∈ rows, ∀ a ∈ r.value?, f? a = some (f a)) :
    rows.mapM (Row.line? f?) = some (rows.map (Row.line f)) := by
  induction rows with
  | nil => rfl
  | cons r rows ih =>
    obtain ⟨hfirst, hrest⟩ := List.forall_mem_cons.mp h
    have hline : r.line? f? = some (r.line f) := by
      cases r with
      | table name => rfl
      | element name => rfl
      | assign name a => rw [Row.line?, hfirst a rfl]; rfl
    rw [List.mapM_cons, hline, ih hrest]
    rfl

/-- A sheet all of whose values can be read is read back. -/
theorem read_write (text : α → List Char) (f : α → Document) (distinct : s.Distinct)
    (spells : ∀ a ∈ s.values, Spells deepest (text a) (some (f a))) :
    read (String.ofList (s.write text)) = some (.record (s.members f) true) := by
  rw [read_rows spells, mapM_line? fun _ _ _ _ => rfl, Option.bind_some]
  exact assemble_rows s distinct

theorem mapM_line?_eq_none {rows : List (Row α)} {r : Row α} (hr : r ∈ rows)
    (h : r.line? f? = none) : rows.mapM (Row.line? f?) = none := by
  induction rows with
  | nil => cases hr
  | cons r' rows ih =>
    rw [List.mapM_cons]
    rcases List.mem_cons.mp hr with rfl | hr
    · rw [h]
      rfl
    · rw [ih hr]
      cases r'.line? f? <;> rfl

theorem read_write_eq_none (spells : ∀ a ∈ s.values, Spells deepest (text a) (f? a)) {a : α}
    (ha : a ∈ s.values) (h : f? a = none) : read (String.ofList (s.write text)) = none := by
  obtain ⟨r, hr, hvalue⟩ := List.mem_filterMap.mp ha
  have hline : r.line? f? = none := by
    cases r with
    | table name => cases hvalue
    | element name => cases hvalue
    | assign name b =>
      obtain rfl : b = a := Option.some.inj hvalue
      rw [Row.line?, h]
      rfl
  rw [read_rows spells, mapM_line?_eq_none hr hline]
  rfl

end

end Placement.Toml
