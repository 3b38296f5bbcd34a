import Mathlib
import Placement.Proofs.Document.Tree
import Placement.Proofs.Json.Parts

/-!
# Trees written in JSON

Every tree is read back from its text, with the values that its numbers have here.
-/
namespace Placement.Json
open Decimal RawTree

variable {α : Type} {text : α → List Char} {f : α → Document}

/-- How trees are written. -/
def style : Style := ⟨quote, fun name => quote name ++ [':', ' ']⟩

/-- Parts that each follow a comma and a space. -/
theorem series_further {β : Type} {part : List Char → β → Prop} {close : Char} {g : α → β}
    {cs : List Char} {b : β} {as : List α} (first : part cs b)
    (others : ∀ a ∈ as, part (' ' :: text a) (g a)) :
    Series part close (cs ++ (further (as.map text) ++ [close])) (b :: as.map g) := by
  induction as generalizing cs b with
  | nil => exact .last first
  | cons a as ih =>
    obtain ⟨hsecond, hothers⟩ := List.forall_mem_cons.mp others
    have hfurther : further ((a :: as).map text) ++ [close] =
        ',' :: (' ' :: text a ++ (further (as.map text) ++ [close])) := by simp [further]
    rw [hfurther]
    exact .more first (ih hsecond hothers)

theorem spells_joined_items {as : List α} (spells : ∀ a ∈ as, Spells (text a) (f a)) :
    Spells ('[' :: joined (as.map text) ++ [']']) (.list (as.map f) true) := by
  cases as with
  | nil => exact spells_emptyList .none
  | cons a as =>
    obtain ⟨hfirst, hothers⟩ := List.forall_mem_cons.mp spells
    have hseries : Series SpellsItem ']' _ ((a :: as).map f) :=
      series_further (hfirst.item .none) fun b hb => (hothers b hb).item .space
    rw [List.map_cons, joined, List.cons_append, List.append_assoc]
    exact spells_list hseries

/-- A member as it is written. -/
def member (text : α → List Char) (m : String × α) : List Char := style.name m.1 ++ text m.2

theorem spells_joined_members {ms : List (String × α)}
    (spells : ∀ m ∈ ms, Spells (text m.2) (f m.2)) :
    Spells ('{' :: joined (ms.map (member text)) ++ ['}'])
      (.record (ms.map fun m => (m.1, f m.2)) true) := by
  have hmember (b : Blanks) (m : String × α) (h : Spells (text m.2) (f m.2)) :
      SpellsMember (b.chars ++ member text m) (m.1, f m.2) := by
    have hspells : SpellsMember _ (m.1, f m.2) :=
      .mk b .none (quoted_quote m.1) (.mk .space .none h)
    simpa [member, style, Blanks.none, Blanks.space] using hspells
  cases ms with
  | nil => exact spells_emptyRecord .none
  | cons m ms =>
    obtain ⟨hfirst, hothers⟩ := List.forall_mem_cons.mp spells
    have hseries : Series SpellsMember '}' _ ((m :: ms).map fun m => (m.1, f m.2)) :=
      series_further (hmember .none m hfirst) fun n hn => hmember .space n (hothers n hn)
    rw [List.map_cons, joined, List.cons_append, List.append_assoc]
    exact spells_record hseries

theorem spells_write {P : Spelling → Prop} {t : RawTree} (plain : t.Plain P) :
    Spells (t.write style) (t.document number) := by
  induction plain with
  | text s => exact (quoted_quote s).spells
  | number _ => exact spells_number _
  | list _ ih =>
    rw [RawTree.write, writeItems_eq, document, documentItems_eq]
    exact spells_joined_items ih
  | record _ _ ih =>
    rw [RawTree.write, writeMembers_eq, document, documentMembers_eq]
    exact spells_joined_members (f := document number) ih

/-- A reader of a written tree sees its document. -/
theorem decode_write {P : Spelling → Prop} {t : RawTree} (plain : t.Plain P)
    (r : Document.Reader α) :
    decode r (String.ofList (t.write style)) = r (t.document number) := by
  have htext : (String.ofList (t.write style)).toList = [] ++ (t.write style ++ []) := by
    rw [String.toList_ofList, List.nil_append, List.append_nil]
  exact decode_of_spells (spells_write plain) .none .none htext r

end Placement.Json
