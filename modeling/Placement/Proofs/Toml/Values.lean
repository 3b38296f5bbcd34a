import Mathlib
import Placement.Proofs.Document.Tree
import Placement.Proofs.Toml.Lines
import Placement.Proofs.Toml.Table

/-!
# Values written in TOML

Texts, numbers, lists and tables within a line are read back wherever a value may end. A list or a
table is read if all its parts are, at a depth less by one.
-/
namespace Placement.Toml
open Decimal RawTree

variable {α : Type} {depth fuel : ℕ} {rest cs : List Char} {c : Char}
  {text : α → List Char} {f? : α → Option Document} {f : α → Document}

theorem spells_text (depth : ℕ) (s : String) : Spells depth (quote s) (some (.text s)) := by
  refine ⟨⟨'"', s.toList.flatMap escape ++ ['"'], rfl, by decide⟩, fun rest ends => ?_⟩
  have hread : readAnyString (quote s ++ rest) = some (s, rest) :=
    readAnyString_quote s fun h => absurd (ends '"' h) (by simp [endings])
  obtain ⟨cs, hcs⟩ : ∃ cs, quote s ++ rest = '"' :: cs := ⟨_, rfl⟩
  rw [hcs] at hread ⊢
  cases depth <;> rw [value, hread] <;> rfl

/-- The characters that a value with marks of its own begins with. -/
def openings : List Char := ['[', '{', '"', '\'']

theorem value_scalar (h : c ∉ openings) (depth : ℕ) (cs : List Char) :
    value depth (c :: cs) = readScalar (c :: cs) := by
  simp only [openings, List.mem_cons, List.not_mem_nil, or_false, not_or] at h
  obtain ⟨hlist, htable, hquote, hapostrophe⟩ := h
  cases depth with
  | zero =>
    rw [value]
    · exact fun _ heq => hquote (List.cons.inj heq).1
    · exact fun _ heq => hapostrophe (List.cons.inj heq).1
  | succ depth =>
    rw [value]
    · exact fun _ heq => hlist (List.cons.inj heq).1
    · exact fun _ heq => htable (List.cons.inj heq).1
    · exact fun _ heq => hquote (List.cons.inj heq).1
    · exact fun _ heq => hapostrophe (List.cons.inj heq).1

/-- A minus sign or a digit can only begin a number or a date. -/
theorem not_mem_of_numeric {cs : List Char} (hc : c = '-' ∨ c.isDigit = true)
    (h : ∀ d ∈ cs, d ≠ '-' ∧ d.isDigit = false) : c ∉ cs := by
  intro hmem
  obtain ⟨hminus, hdigit⟩ := h c hmem
  rcases hc with hc | hc
  · exact hminus hc
  · rw [hdigit] at hc
    cases hc

theorem spells_number (depth : ℕ) (s : Spelling) :
    Spells depth s.text ((valueOf? s.literal).map .number) := by
  obtain ⟨c, cs, htext, hc⟩ := s.head?_text []
  rw [List.append_nil] at htext
  refine ⟨⟨c, cs, htext, not_mem_of_numeric hc (by simp [foreign])⟩, fun rest ends => ?_⟩
  have hread := readScalar_text s ends
  rw [htext, List.cons_append] at hread ⊢
  rw [value_scalar (not_mem_of_numeric hc (by simp [openings])), hread, Option.map_map]
  rfl

theorem skipGap_of_head (h : c ∉ foreign) (cs : List Char) :
    skipGap false (c :: cs) = c :: cs := by
  simp only [foreign, List.mem_cons, List.not_mem_nil, or_false, not_or] at h
  rw [skipGap]
  · simp [h, isBlank]
  · exact fun heq => h.2.2.1 heq
  · exact fun _ heq _ => h.2.2.2.1 heq

theorem ends_further (ts : List (List Char)) (close : Char) (h : close ∈ endings)
    (rest : List Char) : Ends (further ts ++ close :: rest) := by
  cases ts with
  | nil => exact ends_cons h
  | cons t ts => exact ends_cons (by simp [endings])

theorem items_blank (value : List Char → Option (Document × List Char)) (fuel : ℕ)
    (cs : List Char) : items value fuel (' ' :: cs) = items value fuel cs := by
  cases fuel <;> rfl

/-- No list is closed where a value begins. -/
theorem items_spells {a : α} (spells : Spells depth (text a) (f? a)) (fuel : ℕ)
    (ends : Ends rest) :
    items (value depth) (fuel + 1) (text a ++ rest) = (do
      let d ← f? a
      match skipGap false rest with
      | ',' :: rest =>
        let (ds, rest) ← items (value depth) fuel rest
        return (d :: ds, rest)
      | ']' :: rest => return ([d], rest)
      | _ => none) := by
  obtain ⟨c, cs, htext, hc⟩ := spells.head
  have hvalue := spells.value rest ends
  have hne : c ≠ ']' := by
    rintro rfl
    exact hc (by simp [foreign])
  rw [htext, List.cons_append] at hvalue ⊢
  rw [items, skipGap_of_head hc]
  split
  next heq => exact absurd (List.cons.inj heq).1 hne
  next =>
    rw [hvalue]
    cases f? a <;> rfl

/-- The rest of a list from an item on. -/
theorem items_further {a : α} {as : List α} (first : Spells depth (text a) (f? a))
    (others : ∀ b ∈ as, Spells depth (text b) (f? b)) (h : as.length < fuel) (rest : List Char) :
    items (value depth) fuel (text a ++ (further (as.map text) ++ ']' :: rest)) =
      ((a :: as).mapM f?).map fun ds => (ds, rest) := by
  have hends := ends_further (as.map text) ']' (by simp [endings]) rest
  induction as generalizing a fuel with
  | nil =>
    obtain ⟨fuel, rfl⟩ := Nat.exists_eq_succ_of_ne_zero (Nat.ne_zero_of_lt h)
    rw [items_spells first fuel hends, List.mapM_cons, List.mapM_nil]
    cases f? a <;> rfl
  | cons b as ih =>
    obtain ⟨fuel, rfl⟩ := Nat.exists_eq_succ_of_ne_zero (Nat.ne_zero_of_lt h)
    obtain ⟨hsecond, hothers⟩ := List.forall_mem_cons.mp others
    have hrest := ih hsecond hothers (Nat.lt_of_succ_lt_succ h)
      (ends_further _ ']' (by simp [endings]) rest)
    have hfurther : further ((b :: as).map text) ++ ']' :: rest =
        ',' :: ' ' :: (text b ++ (further (as.map text) ++ ']' :: rest)) := by
      simp [further]
    rw [items_spells first fuel hends, hfurther, List.mapM_cons]
    cases f? a with
    | none => rfl
    | some d =>
      have hgap (cs : List Char) : skipGap false (',' :: cs) = ',' :: cs := by
        rw [skipGap] <;> simp [isBlank]
      simp only [Option.bind_eq_bind, Option.bind_some, hgap, items_blank, hrest]
      cases (b :: as).mapM f? <;> rfl

/-- A list is read if its items are. -/
theorem spells_list {as : List α} (spells : ∀ a ∈ as, Spells depth (text a) (f? a)) :
    Spells (depth + 1) ('[' :: joined (as.map text) ++ [']'])
      ((as.mapM f?).map fun ds => .list ds true) := by
  refine ⟨⟨'[', _, rfl, by decide⟩, fun rest _ => ?_⟩
  have happend : '[' :: joined (as.map text) ++ [']'] ++ rest =
      '[' :: (joined (as.map text) ++ ']' :: rest) := by simp
  rw [happend, value]
  cases as with
  | nil => rfl
  | cons a as =>
    obtain ⟨hfirst, hothers⟩ := List.forall_mem_cons.mp spells
    have hlength := length_le_length_further (as.map text)
    rw [List.map_cons, joined, List.append_assoc, items_further hfirst hothers (by
      simp only [List.length_append, List.length_map, List.length_cons] at hlength ⊢
      omega)]
    cases (a :: as).mapM f? <;> rfl

theorem assignments_blank (value : List Char → Option (Document × List Char)) (fuel : ℕ)
    (cs : List Char) : assignments value fuel (' ' :: cs) = assignments value fuel cs := by
  cases fuel <;> rfl

/-- A named value with what it is read as. -/
def named? (f? : α → Option Document) (m : String × α) : Option (String × Document) :=
  (f? m.2).map (Prod.mk m.1)

/-- The rest of a table from an assignment on. -/
theorem assignments_further (fuel : ℕ) {m : String × α} {ms : List (String × α)}
    (first : Spells depth (text m.2) (f? m.2))
    (others : ∀ n ∈ ms, Spells depth (text n.2) (f? n.2)) (h : ms.length < fuel)
    (rest : List Char) :
    assignments (value depth) fuel (setting m.1 (text m.2) ++
        (further (ms.map fun n => setting n.1 (text n.2)) ++ '}' :: rest)) =
      ((m :: ms).mapM (named? f?)).map fun ds => (keyed id ds, rest) := by
  have hends := ends_further (ms.map fun n => setting n.1 (text n.2)) '}' (by simp [endings]) rest
  have hassign := assignment_setting m.1 first hends
  induction ms generalizing m fuel with
  | nil =>
    obtain ⟨fuel, rfl⟩ := Nat.exists_eq_succ_of_ne_zero (Nat.ne_zero_of_lt h)
    rw [assignments, hassign, List.mapM_cons, List.mapM_nil, named?]
    cases f? m.2 <;> rfl
  | cons n ms ih =>
    obtain ⟨fuel, rfl⟩ := Nat.exists_eq_succ_of_ne_zero (Nat.ne_zero_of_lt h)
    obtain ⟨hsecond, hothers⟩ := List.forall_mem_cons.mp others
    have hends' := ends_further (ms.map fun n => setting n.1 (text n.2)) '}'
      (by simp [endings]) rest
    have hrest := ih fuel hsecond hothers (Nat.lt_of_succ_lt_succ h) hends'
      (assignment_setting n.1 hsecond hends')
    have hfurther : further ((n :: ms).map fun n => setting n.1 (text n.2)) ++ '}' :: rest =
        ',' :: ' ' :: (setting n.1 (text n.2) ++
          (further (ms.map fun n => setting n.1 (text n.2)) ++ '}' :: rest)) := by
      simp [further]
    rw [assignments, hassign, hfurther, List.mapM_cons, named?]
    cases f? m.2 with
    | none => rfl
    | some d =>
      have hblank (cs : List Char) : skipBlanks (',' :: cs) = ',' :: cs := rfl
      simp only [Option.bind_eq_bind, Option.map_some, Option.bind_some, hblank,
        assignments_blank, hrest]
      cases (n :: ms).mapM (named? f?) <;> rfl

theorem fst_of_mapM_named? {ms : List (String × α)} {ds : List (String × Document)}
    (h : ms.mapM (named? f?) = some ds) : ds.map Prod.fst = ms.map Prod.fst := by
  induction ms generalizing ds with
  | nil =>
    obtain rfl : [] = ds := Option.some.inj h
    rfl
  | cons m ms ih =>
    rw [List.mapM_cons] at h
    obtain ⟨n, hn, h⟩ := Option.bind_eq_some_iff.mp h
    obtain ⟨ns, hns, h⟩ := Option.bind_eq_some_iff.mp h
    obtain ⟨d, -, rfl⟩ := Option.map_eq_some_iff.mp hn
    obtain rfl : (m.1, d) :: ns = ds := Option.some.inj h
    rw [List.map_cons, List.map_cons, ih hns]

/-- No table is closed where a key begins. -/
theorem inlineTable_setting (value : List Char → Option (Document × List Char)) (name : String)
    (cs : List Char) :
    inlineTable value (setting name cs) = (do
      let (as, rest) ← assignments value (setting name cs).length (setting name cs)
      let members ← Members.assignAll [] as
      return (members.toDocument, rest)) := by
  have hblank : skipBlanks (setting name cs) = setting name cs := by
    rw [setting, List.append_assoc, Key.skipBlanks_write]
  obtain ⟨c, tail, hhead, hc⟩ := exists_head_write name (" = ".toList ++ cs)
  rw [← List.append_assoc] at hhead
  have hne : c ≠ '}' := by
    rintro rfl
    rcases hc with hc | hc <;> cases hc
  rw [inlineTable, hblank, setting, hhead]
  split
  next heq => exact absurd (List.cons.inj heq).1 hne
  next => rfl

/-- A table is read if its values are and no name comes twice. -/
theorem spells_table (text : α → List Char) (f? : α → Option Document)
    {ms : List (String × α)} (distinct : (ms.map Prod.fst).Nodup)
    (spells : ∀ m ∈ ms, Spells depth (text m.2) (f? m.2)) :
    Spells (depth + 1) ('{' :: joined (ms.map fun m => setting m.1 (text m.2)) ++ ['}'])
      ((ms.mapM (named? f?)).map fun ds => .record ds true) := by
  refine ⟨⟨'{', _, rfl, by decide⟩, fun rest _ => ?_⟩
  have happend : '{' :: joined (ms.map fun m => setting m.1 (text m.2)) ++ ['}'] ++ rest =
      '{' :: (joined (ms.map fun m => setting m.1 (text m.2)) ++ '}' :: rest) := by simp
  rw [happend, value]
  cases ms with
  | nil => rfl
  | cons m ms =>
    obtain ⟨hfirst, hothers⟩ := List.forall_mem_cons.mp spells
    have hlength := length_le_length_further (ms.map fun n => setting n.1 (text n.2))
    have hread := assignments_further (setting m.1 (text m.2) ++
      (further (ms.map fun n => setting n.1 (text n.2)) ++ '}' :: rest)).length hfirst hothers (by
        simp only [List.length_append, List.length_map, List.length_cons] at hlength ⊢
        omega) rest
    rw [setting_append] at hread
    rw [List.map_cons, joined, List.append_assoc, setting_append, inlineTable_setting, hread]
    cases hnamed : (m :: ms).mapM (named? f?) with
    | none => rfl
    | some ds =>
      have hdistinct : (ds.map Prod.fst).Nodup := by rwa [fst_of_mapM_named? hnamed]
      have hdocuments : documents id ds = ds := List.map_id ds
      simp only [Option.map_some, Option.bind_eq_bind, Option.bind_some,
        assignAll_nil_keyed hdistinct, Members.toDocument, membersToDocument_entries, hdocuments]
      rfl

end Placement.Toml
