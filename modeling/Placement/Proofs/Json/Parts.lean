import Mathlib
import Placement.Json.Reader
import Placement.Proofs.Decimal.Spelling
import Placement.Proofs.Json.Quoted

/-!
# The parts of a text

A part of a text is read as what it says wherever it stands, up to where it ends. A list or a record
is read when its parts are, with commas between them and a bracket at the end, whatever blanks stand
around them. Every part is shorter than the whole, so the bounds on how often and how deep the
reader goes never matter.
-/
namespace Placement.Json
open Decimal

variable {cs rest : List Char} {c : Char} {s : String} {d : Document} {depth fuel : ℕ}

/-- Spaces, tabs and line ends. -/
structure Blanks where
  chars : List Char
  blank : ∀ c ∈ chars, c ∈ [' ', '\t', '\n', '\r']

def Blanks.none : Blanks := ⟨[], nofun⟩

def Blanks.space : Blanks := ⟨[' '], by simp⟩

theorem skipBlanks_of_head (h : isBlank c = false) : skipBlanks (c :: cs) = c :: cs := by
  simp [skipBlanks, h]

theorem isBlank_of_blanks (b : Blanks) : ∀ c ∈ b.chars, isBlank c = true := by
  intro c hc
  have hmem := b.blank c hc
  fin_cases hmem <;> rfl

theorem skipBlanks_blanks (b : Blanks) (cs : List Char) :
    skipBlanks (b.chars ++ cs) = skipBlanks cs :=
  List.dropWhile_append_of_pos (isBlank_of_blanks b)

theorem value_congr {cs' : List Char} (h : skipBlanks cs = skipBlanks cs') (depth : ℕ) :
    value depth cs = value depth cs' := by
  cases depth with
  | zero => rfl
  | succ depth => rw [value, value, h]

theorem name_congr {cs' : List Char} (h : skipBlanks cs = skipBlanks cs') : name cs = name cs' := by
  rw [name, name, h]

theorem stops_cons (h : c.isDigit = false) (point : c ≠ '.') (small : c ≠ 'e') (large : c ≠ 'E') :
    Literal.Stops (c :: cs) := by
  intro d hd
  obtain rfl : c = d := by simpa using hd
  exact ⟨h, point, small, large⟩

theorem stops_blanks (b : Blanks) (h : Literal.Stops rest) : Literal.Stops (b.chars ++ rest) := by
  cases hchars : b.chars with
  | nil => exact h
  | cons c cs =>
    have hmem := b.blank c (hchars ▸ List.mem_cons_self)
    fin_cases hmem <;> exact stops_cons rfl (by decide) (by decide) (by decide)

/-- What may stand after a part: a comma or a bracket that closes. -/
def Separates (c : Char) : Prop := c ∈ [',', ']', '}']

theorem Separates.stops (h : Separates c) : Literal.Stops (c :: rest) := by
  unfold Separates at h
  fin_cases h <;> exact stops_cons rfl (by decide) (by decide) (by decide)

theorem Separates.skipBlanks (h : Separates c) (b : Blanks) :
    Json.skipBlanks (b.chars ++ c :: rest) = c :: rest := by
  rw [skipBlanks_blanks]
  unfold Separates at h
  fin_cases h <;> exact skipBlanks_of_head rfl

/-- A text that is read as a value wherever a number may end. -/
def Spells (text : List Char) (d : Document) : Prop :=
  ∀ (depth : ℕ) (rest : List Char), text.length < depth → Literal.Stops rest →
    value depth (text ++ rest) = ⟨d, some rest⟩

theorem Quoted.spells (h : Quoted s cs) : Spells cs (.text s) := by
  intro depth rest hdepth _
  obtain ⟨depth, rfl⟩ := Nat.exists_eq_succ_of_ne_zero (Nat.ne_zero_of_lt hdepth)
  obtain ⟨tail, rfl, hunquote⟩ := exists_unquote h
  rw [List.cons_append, value, skipBlanks_of_head rfl]
  simp only [hunquote]

/-- A minus sign or a digit can only begin a number. -/
theorem value_numeric {l : Literal} (hc : c = '-' ∨ c.isDigit = true)
    (hread : Literal.read (c :: cs) = some (l, rest)) (depth : ℕ) :
    value (depth + 1) (c :: cs) = ⟨number l, some rest⟩ := by
  have hother (d : Char) (hd : d ≠ '-') (hdigit : d.isDigit = false) : c ≠ d := by
    rintro rfl
    rcases hc with hc | hc
    · exact hd hc
    · rw [hdigit] at hc
      cases hc
  have hblank : isBlank c = false := by
    simp [isBlank, hother ' ' (by decide) rfl, hother '\t' (by decide) rfl,
      hother '\n' (by decide) rfl, hother '\r' (by decide) rfl]
  have hword : afterWord? (c :: cs) = none := by
    unfold afterWord?
    split
    next heq => exact absurd (List.cons.inj heq).1 (hother 't' (by decide) rfl)
    next heq => exact absurd (List.cons.inj heq).1 (hother 'f' (by decide) rfl)
    next heq => exact absurd (List.cons.inj heq).1 (hother 'n' (by decide) rfl)
    next => rfl
  rw [value, skipBlanks_of_head hblank]
  split
  next heq => exact absurd (List.cons.inj heq).1 (hother '[' (by decide) rfl)
  next heq => exact absurd (List.cons.inj heq).1 (hother '{' (by decide) rfl)
  next heq => exact absurd (List.cons.inj heq).1 (hother '"' (by decide) rfl)
  next =>
    rw [scalar, hword]
    simp only [hread]

theorem spells_number (s : Spelling) : Spells s.text (number s.literal) := by
  intro depth rest hdepth stops
  obtain ⟨depth, rfl⟩ := Nat.exists_eq_succ_of_ne_zero (Nat.ne_zero_of_lt hdepth)
  have hread := s.read_text stops
  obtain ⟨c, cs, htext, hc⟩ := s.head?_text rest
  rw [htext] at hread ⊢
  exact value_numeric hc hread depth

/-- A value and the blanks around it. -/
inductive SpellsItem : List Char → Document → Prop
  | mk {cs : List Char} {d : Document} (b b' : Blanks) : Spells cs d →
      SpellsItem (b.chars ++ (cs ++ b'.chars)) d

/-- A name and a value with a colon between them, and the blanks around both. -/
inductive SpellsMember : List Char → String × Document → Prop
  | mk {ns cs : List Char} {s : String} {d : Document} (b b' : Blanks) : Quoted s ns →
      SpellsItem cs d → SpellsMember (b.chars ++ (ns ++ (b'.chars ++ ':' :: cs))) (s, d)

/-- One or more parts with commas between them, up to a bracket. -/
inductive Series {β : Type} (part : List Char → β → Prop) (close : Char) : List Char → List β → Prop
  | last {cs : List Char} {b : β} : part cs b → Series part close (cs ++ [close]) [b]
  | more {cs cs' : List Char} {b : β} {bs : List β} : part cs b → Series part close cs' bs →
      Series part close (cs ++ ',' :: cs') (b :: bs)

theorem Spells.item (h : Spells cs d) (b : Blanks) : SpellsItem (b.chars ++ cs) d := by
  have hitem := SpellsItem.mk b .none h
  rwa [Blanks.none, List.append_nil] at hitem

/-- A series begins with a part, and a comma or its bracket comes after it. -/
theorem Series.exists_first {β : Type} {part : List Char → β → Prop} {close : Char} {bs : List β}
    (h : Series part close cs bs) :
    ∃ ps b c tail, part ps b ∧ (c = ',' ∨ c = close) ∧ cs = ps ++ c :: tail := by
  cases h with
  | last hpart => exact ⟨_, _, _, [], hpart, .inr rfl, rfl⟩
  | more hpart _ => exact ⟨_, _, _, _, hpart, .inl rfl, rfl⟩

theorem series_intercalate {β γ : Type} {part : List Char → β → Prop} {close : Char}
    {text : γ → List Char} {f : γ → β} {xs : List γ} (hne : xs ≠ [])
    (h : ∀ x ∈ xs, part (text x) (f x)) :
    Series part close ([','].intercalate (xs.map text) ++ [close]) (xs.map f) := by
  induction xs with
  | nil => exact absurd rfl hne
  | cons x xs ih =>
    obtain ⟨hfirst, hothers⟩ := List.forall_mem_cons.mp h
    cases xs with
    | nil =>
      rw [List.map_singleton, List.intercalate_singleton]
      exact .last hfirst
    | cons y ys =>
      have hrest := ih (List.cons_ne_nil y ys) hothers
      rw [List.map_cons, List.map_cons, List.intercalate_cons_cons, List.append_assoc,
        List.append_assoc]
      exact .more hfirst hrest

theorem separates_comma : Separates ',' := by simp [Separates]

theorem separates_bracket : Separates ']' := by simp [Separates]

theorem separates_brace : Separates '}' := by simp [Separates]

theorem SpellsItem.value (h : SpellsItem cs d) (hdepth : cs.length < depth) (hc : Separates c)
    (rest : List Char) : ∃ after, Json.value depth (cs ++ c :: rest) = ⟨d, some after⟩ ∧
      skipBlanks after = c :: rest := by
  obtain ⟨b, b', hspells⟩ := h
  rw [List.length_append, List.length_append] at hdepth
  refine ⟨b'.chars ++ c :: rest, ?_, hc.skipBlanks b'⟩
  rw [List.append_assoc, List.append_assoc, value_congr (skipBlanks_blanks b _)]
  exact hspells depth _ (by omega) (stops_blanks b' hc.stops)

theorem Quoted.name {ns : List Char} (h : Quoted s ns) (b b' : Blanks) (rest : List Char) :
    Json.name (b.chars ++ (ns ++ (b'.chars ++ ':' :: rest))) = some (s, rest) := by
  obtain ⟨tail, rfl, hunquote⟩ := exists_unquote h
  rw [name_congr (skipBlanks_blanks b _), Json.name, List.cons_append, skipBlanks_of_head rfl]
  simp only [hunquote, skipBlanks_blanks, skipBlanks_of_head (c := ':') rfl]

theorem SpellsMember.value {m : String × Document} (h : SpellsMember cs m)
    (hdepth : cs.length < depth) (hc : Separates c) (rest : List Char) :
    ∃ colon after, name (cs ++ c :: rest) = some (m.1, colon) ∧
      Json.value depth colon = ⟨m.2, some after⟩ ∧ skipBlanks after = c :: rest := by
  cases h with
  | @mk ns cs s d b b' hname hitem =>
    simp only [List.length_append, List.length_cons] at hdepth
    have hshort : cs.length < depth := by omega
    obtain ⟨after, hvalue, hafter⟩ := hitem.value hshort hc rest
    refine ⟨_, after, ?_, hvalue, hafter⟩
    simp only [List.append_assoc, List.cons_append, hname.name]

theorem items_of_series {ds : List Document} (h : Series SpellsItem ']' cs ds)
    (hfuel : cs.length ≤ fuel) (hdepth : cs.length ≤ depth) (rest : List Char) :
    items (value depth) fuel (cs ++ rest) = (ds, some rest) := by
  induction h generalizing fuel with
  | last hitem =>
    rw [List.length_append, List.length_singleton] at hfuel hdepth
    obtain ⟨fuel, rfl⟩ := Nat.exists_eq_succ_of_ne_zero (Nat.ne_zero_of_lt hfuel)
    obtain ⟨after, hvalue, hafter⟩ := hitem.value hdepth separates_bracket rest
    rw [List.append_assoc, List.singleton_append, items]
    simp only [hvalue, hafter]
  | @more cs cs' d ds hitem _ ih =>
    rw [List.length_append, List.length_cons] at hfuel hdepth
    obtain ⟨fuel, rfl⟩ := Nat.exists_eq_succ_of_ne_zero (show fuel ≠ 0 by omega)
    have hshort : cs.length < depth := by omega
    have hrest : items (value depth) fuel (cs' ++ rest) = _ := ih (by omega) (by omega)
    obtain ⟨after, hvalue, hafter⟩ := hitem.value hshort separates_comma (cs' ++ rest)
    rw [List.append_assoc, List.cons_append, items]
    simp only [hvalue, hafter, hrest]

theorem value_bracket (depth : ℕ) (cs : List Char) : value depth (']' :: cs) = broken := by
  cases depth <;> rfl

/-- No list is closed where a value can be read. -/
theorem list_of_value (h : value depth cs = ⟨d, some rest⟩) :
    list (value depth) cs =
      ⟨.list (items (value depth) cs.length cs).1 (items (value depth) cs.length cs).2.isSome,
        (items (value depth) cs.length cs).2⟩ := by
  unfold list
  split
  next tail hclosed =>
    have hsame : skipBlanks cs = skipBlanks (']' :: tail) := hclosed.trans rfl
    rw [value_congr hsame, value_bracket] at h
    cases h
  next => rfl

theorem spells_list {ds : List Document} (h : Series SpellsItem ']' cs ds) :
    Spells ('[' :: cs) (.list ds true) := by
  intro depth rest hdepth _
  obtain ⟨depth, rfl⟩ := Nat.exists_eq_succ_of_ne_zero (Nat.ne_zero_of_lt hdepth)
  rw [List.length_cons, Nat.succ_lt_succ_iff] at hdepth
  have hfuel : cs.length ≤ (cs ++ rest).length := by simp
  obtain ⟨d, after, hvalue⟩ : ∃ d after, value depth (cs ++ rest) = ⟨d, some after⟩ := by
    obtain ⟨ps, d, c, tail, hitem, hc, rfl⟩ := h.exists_first
    have hseparates : Separates c := hc.elim (· ▸ separates_comma) (· ▸ separates_bracket)
    have hshort : ps.length < depth := by
      rw [List.length_append, List.length_cons] at hdepth
      omega
    obtain ⟨after, hvalue, -⟩ := hitem.value hshort hseparates (tail ++ rest)
    exact ⟨d, after, by rwa [List.append_assoc]⟩
  rw [List.cons_append, value, skipBlanks_of_head rfl]
  show list (value depth) (cs ++ rest) = _
  rw [list_of_value hvalue, items_of_series h hfuel hdepth.le]
  rfl

theorem spells_emptyList (b : Blanks) : Spells ('[' :: (b.chars ++ [']'])) (.list [] true) := by
  intro depth rest hdepth _
  obtain ⟨depth, rfl⟩ := Nat.exists_eq_succ_of_ne_zero (Nat.ne_zero_of_lt hdepth)
  rw [List.cons_append, List.append_assoc, List.singleton_append, value, skipBlanks_of_head rfl]
  show list (value depth) _ = _
  rw [list, separates_bracket.skipBlanks]
  rfl

theorem members_of_series {ms : List (String × Document)} (h : Series SpellsMember '}' cs ms)
    (hfuel : cs.length ≤ fuel) (hdepth : cs.length ≤ depth) (rest : List Char) :
    members (value depth) fuel (cs ++ rest) = (ms, some rest) := by
  induction h generalizing fuel with
  | last hmember =>
    rw [List.length_append, List.length_singleton] at hfuel hdepth
    obtain ⟨fuel, rfl⟩ := Nat.exists_eq_succ_of_ne_zero (Nat.ne_zero_of_lt hfuel)
    obtain ⟨colon, after, hname, hvalue, hafter⟩ := hmember.value hdepth separates_brace rest
    rw [List.append_assoc, List.singleton_append, members]
    simp only [hname, hvalue, hafter]
  | @more cs cs' m ms hmember _ ih =>
    rw [List.length_append, List.length_cons] at hfuel hdepth
    obtain ⟨fuel, rfl⟩ := Nat.exists_eq_succ_of_ne_zero (show fuel ≠ 0 by omega)
    have hshort : cs.length < depth := by omega
    have hrest : members (value depth) fuel (cs' ++ rest) = _ := ih (by omega) (by omega)
    obtain ⟨colon, after, hname, hvalue, hafter⟩ :=
      hmember.value hshort separates_comma (cs' ++ rest)
    rw [List.append_assoc, List.cons_append, members]
    simp only [hname, hvalue, hafter, hrest]

/-- No record is closed where a name can be read. -/
theorem record_of_quote (h : (skipBlanks cs).head? = some '"') :
    record (value depth) cs =
      ⟨.record (members (value depth) cs.length cs).1 (members (value depth) cs.length cs).2.isSome,
        (members (value depth) cs.length cs).2⟩ := by
  obtain ⟨tail, htail⟩ := List.head?_eq_some_iff.mp h
  rw [record, htail]
  rfl

theorem head?_of_spellsMember {m : String × Document} (h : SpellsMember cs m) (rest : List Char) :
    (skipBlanks (cs ++ rest)).head? = some '"' := by
  obtain ⟨b, b', hname, -⟩ := h
  obtain ⟨tail, rfl, -⟩ := exists_unquote hname
  rw [List.append_assoc, skipBlanks_blanks, List.append_assoc, List.cons_append,
    skipBlanks_of_head rfl]
  rfl

theorem spells_record {ms : List (String × Document)} (h : Series SpellsMember '}' cs ms) :
    Spells ('{' :: cs) (.record ms true) := by
  intro depth rest hdepth _
  obtain ⟨depth, rfl⟩ := Nat.exists_eq_succ_of_ne_zero (Nat.ne_zero_of_lt hdepth)
  rw [List.length_cons, Nat.succ_lt_succ_iff] at hdepth
  have hfuel : cs.length ≤ (cs ++ rest).length := by simp
  have hquote : (skipBlanks (cs ++ rest)).head? = some '"' := by
    obtain ⟨ps, m, c, tail, hmember, -, rfl⟩ := h.exists_first
    rw [List.append_assoc]
    exact head?_of_spellsMember hmember _
  rw [List.cons_append, value, skipBlanks_of_head rfl]
  show record (value depth) (cs ++ rest) = _
  rw [record_of_quote hquote, members_of_series h hfuel hdepth.le]
  rfl

theorem spells_emptyRecord (b : Blanks) :
    Spells ('{' :: (b.chars ++ ['}'])) (.record [] true) := by
  intro depth rest hdepth _
  obtain ⟨depth, rfl⟩ := Nat.exists_eq_succ_of_ne_zero (Nat.ne_zero_of_lt hdepth)
  rw [List.cons_append, List.append_assoc, List.singleton_append, value, skipBlanks_of_head rfl]
  show record (value depth) _ = _
  rw [record, separates_brace.skipBlanks]
  rfl

/-- A reader of a text sees the document that stands in it between blanks. -/
theorem decode_of_spells {α : Type} {text : String} (h : Spells cs d) (b b' : Blanks)
    (htext : text.toList = b.chars ++ (cs ++ b'.chars)) (r : Document.Reader α) :
    decode r text = r d := by
  have hafter : b'.chars.all isBlank = true := List.all_eq_true.mpr (isBlank_of_blanks b')
  have hstops : Literal.Stops (b'.chars ++ []) := stops_blanks b' nofun
  rw [List.append_nil] at hstops
  have hreading : reading text.toList = ⟨d, some b'.chars⟩ := by
    rw [reading, htext, value_congr (skipBlanks_blanks b _)]
    exact h _ _ (by simp only [List.length_append]; omega) hstops
  unfold decode
  simp only [hreading]
  cases r d with
  | error fault => rfl
  | ok a => exact if_pos hafter

end Placement.Json
