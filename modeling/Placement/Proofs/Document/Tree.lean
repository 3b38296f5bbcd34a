import Mathlib
import Placement.Document.Basic
import Placement.Proofs.Decimal.Spelling

/-!
# Trees that any format can write

A tree is what a text says before its numbers have values: texts, numbers as they are spelled,
lists, and records with named members. Formats differ in how they write texts and names, and in
which value they give to a number; the rest is the same in all of them.
-/
namespace Placement
open Decimal

/-- A tree of texts and spelled numbers. -/
inductive RawTree where
  | text (s : String)
  | number (s : Spelling)
  | list (items : List RawTree)
  | record (members : List (String × RawTree))

namespace RawTree

/-- How a format writes texts, and names together with what stands before their values. -/
structure Style where
  text : String → List Char
  name : String → List Char

/-- Texts that each follow a comma. -/
def further (texts : List (List Char)) : List Char := texts.flatMap fun t => ',' :: ' ' :: t

/-- Texts with commas between them. -/
def joined : List (List Char) → List Char
  | [] => []
  | t :: ts => t ++ further ts

theorem length_le_length_further (ts : List (List Char)) : ts.length ≤ (further ts).length := by
  induction ts with
  | nil => exact le_rfl
  | cons t ts ih =>
    simp only [further, List.flatMap_cons, List.length_append, List.length_cons] at ih ⊢
    omega

mutual

def write (style : Style) : RawTree → List Char
  | text s => style.text s
  | number s => s.text
  | list ts => '[' :: joined (writeItems style ts) ++ [']']
  | record ms => '{' :: joined (writeMembers style ms) ++ ['}']

def writeItems (style : Style) : List RawTree → List (List Char)
  | [] => []
  | t :: ts => write style t :: writeItems style ts

def writeMembers (style : Style) : List (String × RawTree) → List (List Char)
  | [] => []
  | (k, t) :: ms => (style.name k ++ write style t) :: writeMembers style ms

end

theorem writeItems_eq (style : Style) (ts : List RawTree) :
    writeItems style ts = ts.map (write style) := by
  induction ts with
  | nil => rfl
  | cons t ts ih => rw [writeItems, ih, List.map_cons]

theorem writeMembers_eq (style : Style) (ms : List (String × RawTree)) :
    writeMembers style ms = ms.map fun m => style.name m.1 ++ m.2.write style := by
  induction ms with
  | nil => rfl
  | cons m ms ih => rw [writeMembers, ih, List.map_cons]

mutual

/-- The document of a tree, given the values of numbers. -/
def document (value : Literal → Document) : RawTree → Document
  | text s => .text s
  | number s => value s.literal
  | list ts => .list (documentItems value ts) true
  | record ms => .record (documentMembers value ms) true

def documentItems (value : Literal → Document) : List RawTree → List Document
  | [] => []
  | t :: ts => document value t :: documentItems value ts

def documentMembers (value : Literal → Document) :
    List (String × RawTree) → List (String × Document)
  | [] => []
  | (k, t) :: ms => (k, document value t) :: documentMembers value ms

end

variable {value : Literal → Document}

theorem documentItems_eq (ts : List RawTree) :
    documentItems value ts = ts.map (document value) := by
  induction ts with
  | nil => rfl
  | cons t ts ih => rw [documentItems, ih, List.map_cons]

theorem documentMembers_eq (ms : List (String × RawTree)) :
    documentMembers value ms = ms.map fun m => (m.1, m.2.document value) := by
  induction ms with
  | nil => rfl
  | cons m ms ih => rw [documentMembers, ih, List.map_cons]

/-- A tree all of whose numbers have a property and in none of whose records a name comes twice. -/
inductive Plain (P : Spelling → Prop) : RawTree → Prop
  | text (s : String) : Plain P (text s)
  | number {s : Spelling} : P s → Plain P (number s)
  | list {ts : List RawTree} : (∀ t ∈ ts, Plain P t) → Plain P (list ts)
  | record {ms : List (String × RawTree)} : (ms.map Prod.fst).Nodup → (∀ m ∈ ms, Plain P m.2) →
      Plain P (record ms)

theorem Plain.imp {P Q : Spelling → Prop} (h : ∀ s, P s → Q s) {t : RawTree} (plain : t.Plain P) :
    t.Plain Q := by
  induction plain with
  | text s => exact .text s
  | number hs => exact .number (h _ hs)
  | list _ ih => exact .list ih
  | record distinct _ ih => exact .record distinct ih

theorem Plain.and {P Q : Spelling → Prop} {t : RawTree} (hP : t.Plain P) (hQ : t.Plain Q) :
    t.Plain fun s => P s ∧ Q s := by
  induction hP with
  | text s => exact .text s
  | number hs =>
    cases hQ with
    | number hs' => exact .number ⟨hs, hs'⟩
  | list _ ih =>
    cases hQ with
    | list hts => exact .list fun t ht => ih t ht (hts t ht)
  | record distinct _ ih =>
    cases hQ with
    | record _ hms => exact .record distinct fun m hm => ih m hm (hms m hm)

theorem Plain.perm {P : Spelling → Prop} {ms ns : List (String × RawTree)}
    (plain : (RawTree.record ms).Plain P) (h : ms.Perm ns) : (RawTree.record ns).Plain P := by
  cases plain with
  | record distinct members =>
    exact .record ((h.map Prod.fst).nodup_iff.mp distinct) fun m hm => members m (h.mem_iff.mpr hm)

/-- Ways of giving values to numbers that agree on the numbers of a tree give the same document. -/
theorem document_congr {value' : Literal → Document} {t : RawTree}
    (plain : t.Plain fun s => value s.literal = value' s.literal) :
    t.document value = t.document value' := by
  induction plain with
  | text s => rfl
  | number h => exact h
  | list _ ih =>
    rw [document, document, documentItems_eq, documentItems_eq, List.map_congr_left ih]
  | record _ _ ih =>
    rw [document, document, documentMembers_eq, documentMembers_eq,
      List.map_congr_left fun m hm => congrArg (Prod.mk m.1) (ih m hm)]

end RawTree

end Placement
