import Mathlib
import Placement.Proofs.Toml.Quoted
import Placement.Toml.Reader

/-!
# Lines written in TOML

A line is the header of a table, the header of an element of a list of tables, or an assignment to a
key of one name. What is written of it is read back with whatever its value is read as; a line whose
value cannot be read makes the whole text unreadable.
-/
namespace Placement.Toml

variable {α : Type} {depth fuel : ℕ} {text rest cs : List Char} {c : Char} {d? : Option Document}

/-- The characters that no value begins with: blanks, ends, and the mark of a comment. -/
def foreign : List Char := [' ', '\t', '\n', '\r', '#', ',', ']', '}']

/-- A text that is read as a value wherever a value may end, or never if there is none. -/
structure Spells (depth : ℕ) (text : List Char) (d? : Option Document) : Prop where
  head : ∃ c cs, text = c :: cs ∧ c ∉ foreign
  value : ∀ rest, Ends rest → value depth (text ++ rest) = d?.map fun d => (d, rest)

theorem skipBlanks_of_head (h : isBlank c = false) : skipBlanks (c :: cs) = c :: cs := by
  simp [skipBlanks, h]

theorem isBlank_of_not_foreign (h : c ∉ foreign) : isBlank c = false := by
  simp only [foreign, List.mem_cons, not_or] at h
  simp [isBlank, h]

theorem Spells.skipBlanks (h : Spells depth text d?) (rest : List Char) :
    skipBlanks (text ++ rest) = text ++ rest := by
  obtain ⟨c, cs, rfl, hc⟩ := h.head
  exact skipBlanks_of_head (isBlank_of_not_foreign hc)

/-- An assignment as it is written: a key, a value, and an equals sign with blanks around it. -/
def setting (name : String) (text : List Char) : List Char :=
  Key.write name ++ " = ".toList ++ text

theorem read_setting (name : String) (text : List Char) :
    Key.read (setting name text) = some (⟨[], name⟩, '=' :: ' ' :: text) := by
  have hblank : skipBlanks (" = ".toList ++ text) = '=' :: ' ' :: text := rfl
  have hread := Key.read_write name (" = ".toList ++ text) (by simp [Key.isBare])
    (by rw [hblank]; exact fun h => absurd (Option.some.inj h) (by decide))
  rwa [hblank, ← List.append_assoc] at hread

theorem setting_append (name : String) (text rest : List Char) :
    setting name text ++ rest = setting name (text ++ rest) := by
  simp [setting]

theorem assignment_setting (name : String) (h : Spells depth text d?) (ends : Ends rest) :
    assignment (value depth) (setting name text ++ rest) =
      d?.map fun d => ((⟨[], name⟩, d), rest) := by
  have hblank : Toml.skipBlanks (' ' :: (text ++ rest)) = text ++ rest := h.skipBlanks rest
  rw [setting_append, assignment, read_setting]
  simp only [Option.bind_eq_bind, Option.bind_some, hblank, h.value rest ends]
  cases d? <;> rfl

/-- A key begins with a quotation mark or with a character that needs none. -/
theorem exists_head_write (name : String) (rest : List Char) :
    ∃ c cs, Key.write name ++ rest = c :: cs ∧ (c = '"' ∨ Key.isBare c = true) := by
  unfold Key.write
  split_ifs with hbare
  · obtain ⟨hne, hall⟩ := hbare
    obtain ⟨c, cs, hname⟩ := List.exists_cons_of_ne_nil hne
    rw [hname] at hall ⊢
    exact ⟨c, cs ++ rest, rfl, .inr (Bool.and_eq_true_iff.mp hall).1⟩
  · exact ⟨'"', _, rfl, .inl rfl⟩

/-- What a line says, with values of some kind. -/
inductive Row (α : Type) where
  | table (name : String)
  | element (name : String)
  | assign (name : String) (a : α)

namespace Row

/-- A line without its end. -/
def content (text : α → List Char) : Row α → List Char
  | table name => '[' :: (Key.write name ++ [']'])
  | element name => '[' :: '[' :: (Key.write name ++ [']', ']'])
  | assign name a => setting name (text a)

def write (text : α → List Char) (r : Row α) : List Char := r.content text ++ ['\n']

/-- What a line is read as. -/
def line? (document? : α → Option Document) : Row α → Option Line
  | table name => some (.table ⟨[], name⟩)
  | element name => some (.element ⟨[], name⟩)
  | assign name a => (document? a).map (.assign ⟨[], name⟩)

/-- The value that a line assigns. -/
def value? : Row α → Option α
  | assign _ a => some a
  | _ => none

end Row

theorem read_header (name : String) (rest : List Char) :
    Key.read (Key.write name ++ ']' :: rest) = some (⟨[], name⟩, ']' :: rest) := by
  have hblank : skipBlanks (']' :: rest) = ']' :: rest := skipBlanks_of_head rfl
  have hread := Key.read_write name (']' :: rest) (by simp [Key.isBare])
    (by rw [hblank]; exact fun h => absurd (Option.some.inj h) (by decide))
  rwa [hblank] at hread

theorem header_table (name : String) (rest : List Char) :
    header ('[' :: (Key.write name ++ ']' :: rest)) = some (.table ⟨[], name⟩, rest) := by
  have hread := read_header name rest
  obtain ⟨c, cs, hkey, hc⟩ := exists_head_write name (']' :: rest)
  have hne : c ≠ '[' := by
    rintro rfl
    rcases hc with hc | hc <;> cases hc
  rw [hkey] at hread ⊢
  unfold header
  split
  next heq => exact absurd (List.cons.inj (List.cons.inj heq).2).1 hne
  next heq =>
    cases heq
    rw [hread]
    rfl
  next h => exact absurd rfl (h _)

theorem header_element (name : String) (rest : List Char) :
    header ('[' :: '[' :: (Key.write name ++ ']' :: ']' :: rest)) =
      some (.element ⟨[], name⟩, rest) := by
  rw [header, read_header]
  rfl

/-- Only a value can make a line unreadable. -/
theorem line_write {text : α → List Char} {document? : α → Option Document} (r : Row α)
    (spells : ∀ a ∈ r.value?, Spells deepest (text a) (document? a)) (rest : List Char) :
    line (r.write text ++ rest) = (r.line? document?).map fun l => (some l, rest) := by
  have hend : afterLine? ('\n' :: rest) = some rest := rfl
  cases r with
  | table name =>
    have hheader := header_table name ('\n' :: rest)
    have hwrite : (Row.table name : Row α).write text ++ rest =
        '[' :: (Key.write name ++ ']' :: '\n' :: rest) := by simp [Row.write, Row.content]
    rw [hwrite, line, hheader]
    simp [hend, Row.line?]
  | element name =>
    have hheader := header_element name ('\n' :: rest)
    have hwrite : (Row.element name : Row α).write text ++ rest =
        '[' :: '[' :: (Key.write name ++ ']' :: ']' :: '\n' :: rest) := by
      simp [Row.write, Row.content]
    rw [hwrite, line, hheader]
    simp [hend, Row.line?]
  | assign name a =>
    have hends : Ends ('\n' :: rest) := ends_cons (by simp [endings])
    have hassign := assignment_setting name (spells a rfl) hends
    have hwrite : (Row.assign name a).write text ++ rest =
        setting name (text a) ++ '\n' :: rest := by simp [Row.write, Row.content]
    obtain ⟨c, cs, hkey, hc⟩ :=
      exists_head_write name (" = ".toList ++ text a ++ '\n' :: rest)
    have hhead : setting name (text a) ++ '\n' :: rest = c :: cs := by
      rw [← hkey, setting]
      simp
    have hne : ∀ d ∈ ['#', '\n', '\r', '['], c ≠ d := by
      rintro d hd rfl
      simp only [List.mem_cons, List.not_mem_nil, or_false] at hd
      rcases hd with rfl | rfl | rfl | rfl <;> rcases hc with hc | hc <;> cases hc
    rw [hhead] at hassign hwrite
    rw [hwrite, line]
    · rw [hassign]
      cases hd : document? a <;> simp [hend, hd, Row.line?]
    all_goals exact fun _ heq => hne _ (by simp) (List.cons.inj heq).1

theorem exists_head_row (text : α → List Char) (r : Row α) (rest : List Char) :
    ∃ c cs, r.write text ++ rest = c :: cs ∧ (c = '[' ∨ c = '"' ∨ Key.isBare c = true) := by
  cases r with
  | table name => exact ⟨'[', _, rfl, .inl rfl⟩
  | element name => exact ⟨'[', _, rfl, .inl rfl⟩
  | assign name a =>
    obtain ⟨c, cs, hkey, hc⟩ := exists_head_write name (" = ".toList ++ text a ++ '\n' :: rest)
    refine ⟨c, cs, ?_, .inr hc⟩
    rw [← hkey]
    simp [Row.write, Row.content, setting]

/-- The lines of a text are what its rows say, if all of them can be read. -/
theorem lines_write {text : α → List Char} {document? : α → Option Document} {rows : List (Row α)}
    (spells : ∀ r ∈ rows, ∀ a ∈ r.value?, Spells deepest (text a) (document? a))
    (h : rows.length < fuel) :
    lines fuel (rows.flatMap (Row.write text)) = rows.mapM (Row.line? document?) := by
  induction rows generalizing fuel with
  | nil =>
    obtain ⟨fuel, rfl⟩ := Nat.exists_eq_succ_of_ne_zero (Nat.ne_zero_of_lt h)
    rfl
  | cons r rows ih =>
    obtain ⟨fuel, rfl⟩ := Nat.exists_eq_succ_of_ne_zero (Nat.ne_zero_of_lt h)
    obtain ⟨hfirst, hrest⟩ := List.forall_mem_cons.mp spells
    have hline := line_write r hfirst (rows.flatMap (Row.write text))
    obtain ⟨c, cs, hhead, hc⟩ := exists_head_row text r (rows.flatMap (Row.write text))
    have hblank : isBlank c = false := by
      rcases hc with rfl | rfl | hc
      · rfl
      · rfl
      · simp [isBlank, Key.isBare_ne hc (d := ' ') rfl, Key.isBare_ne hc (d := '\t') rfl]
    rw [List.flatMap_cons, hhead, lines, skipBlanks_of_head hblank, List.mapM_cons,
      ← ih hrest (Nat.lt_of_succ_lt_succ h)]
    rw [hhead] at hline
    simp only [hline]
    cases r.line? document? <;> rfl

end Placement.Toml
