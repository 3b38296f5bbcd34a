import Mathlib
import Placement.Proofs.Json.Parts

/-!
# The grammar of JSON

Which texts are JSON is said here apart from any reader: there may be blanks around every token, a
character may stand for itself or for an escape of its code in either case, and a number may be
spelled in any way. What a text says is a tree; the grammar relates the two. Reading is complete: it
finds the tree of every text of the grammar, and nothing but blanks after it. Half a pair of
surrogates stands for no character and has no place in the grammar.
-/
namespace Placement.Json
open Decimal

/-- What a text says: numbers as they are written, truth values and `null` all alike. -/
inductive Tree where
  | word
  | text (s : String)
  | number (l : Literal)
  | list (items : List Tree)
  | record (members : List (String × Tree))

namespace Tree

mutual

def document : Tree → Document
  | word => .other
  | text s => .text s
  | number l => Json.number l
  | list ts => .list (documentItems ts) true
  | record ms => .record (documentMembers ms) true

def documentItems : List Tree → List Document
  | [] => []
  | t :: ts => document t :: documentItems ts

def documentMembers : List (String × Tree) → List (String × Document)
  | [] => []
  | (k, t) :: ms => (k, document t) :: documentMembers ms

end

theorem document_list (ts : List Tree) : (list ts).document = .list (ts.map document) true := by
  rw [document]
  congr 1
  induction ts with
  | nil => rfl
  | cons t ts ih => rw [documentItems, ih, List.map_cons]

theorem document_record (ms : List (String × Tree)) :
    (record ms).document = .record (ms.map fun m => (m.1, m.2.document)) true := by
  rw [document]
  congr 1
  induction ms with
  | nil => rfl
  | cons m ms ih => rw [documentMembers, ih, List.map_cons]

end Tree

/-- A value in a text and the blanks around it. -/
structure Element where
  tree : Tree
  before : Blanks
  core : List Char
  after : Blanks

def Element.text (e : Element) : List Char := e.before.chars ++ (e.core ++ e.after.chars)

/-- A name in a text, the blanks around it, and what stands after its colon. -/
structure Member where
  name : String
  before : Blanks
  quoted : List Char
  after : Blanks
  value : Element

def Member.text (m : Member) : List Char :=
  m.before.chars ++ (m.quoted ++ (m.after.chars ++ ':' :: m.value.text))

/-- The values of the grammar and the trees that they say. -/
inductive Says : List Char → Tree → Prop
  | word {w : String} : w ∈ ["true", "false", "null"] → Says w.toList .word
  | text {s : String} {cs : List Char} : Quoted s cs → Says cs (.text s)
  | number (s : Spelling) : Says s.text (.number s.literal)
  | emptyList (b : Blanks) : Says ('[' :: (b.chars ++ [']'])) (.list [])
  | list {es : List Element} : es ≠ [] → (∀ e ∈ es, Says e.core e.tree) →
      Says ('[' :: ([','].intercalate (es.map Element.text) ++ [']'])) (.list (es.map Element.tree))
  | emptyRecord (b : Blanks) : Says ('{' :: (b.chars ++ ['}'])) (.record [])
  | record {ms : List Member} : ms ≠ [] → (∀ m ∈ ms, Quoted m.name m.quoted) →
      (∀ m ∈ ms, Says m.value.core m.value.tree) →
      Says ('{' :: ([','].intercalate (ms.map Member.text) ++ ['}']))
        (.record (ms.map fun m => (m.name, m.value.tree)))

/-- The whole text is one value between blanks, and says the tree. -/
def IsText (text : String) (t : Tree) : Prop :=
  ∃ e : Element, e.tree = t ∧ Says e.core e.tree ∧ text.toList = e.text

theorem spells_word {w : String} (h : w ∈ ["true", "false", "null"]) :
    Spells w.toList Tree.word.document := by
  intro depth rest hdepth _
  obtain ⟨depth, rfl⟩ := Nat.exists_eq_succ_of_ne_zero (Nat.ne_zero_of_lt hdepth)
  fin_cases h <;> rfl

theorem spells_elements {es : List Element} (hne : es ≠ [])
    (spells : ∀ e ∈ es, Spells e.core e.tree.document) :
    Spells ('[' :: ([','].intercalate (es.map Element.text) ++ [']']))
      (Tree.list (es.map Element.tree)).document := by
  rw [Tree.document_list, List.map_map]
  exact spells_list (series_intercalate hne fun e he => .mk e.before e.after (spells e he))

theorem spells_members {ms : List Member} (hne : ms ≠ [])
    (names : ∀ m ∈ ms, Quoted m.name m.quoted)
    (spells : ∀ m ∈ ms, Spells m.value.core m.value.tree.document) :
    Spells ('{' :: ([','].intercalate (ms.map Member.text) ++ ['}']))
      (Tree.record (ms.map fun m => (m.name, m.value.tree))).document := by
  rw [Tree.document_record, List.map_map]
  exact spells_record (series_intercalate hne fun m hm => .mk m.before m.after
    (names m hm) (.mk m.value.before m.value.after (spells m hm)))

/-- Whatever the grammar has as a value is read as the document of its tree. -/
theorem Says.spells {cs : List Char} {t : Tree} (h : Says cs t) : Spells cs t.document := by
  induction h with
  | word hw => exact spells_word hw
  | text hs => exact hs.spells
  | number s => exact spells_number s
  | emptyList b => exact spells_emptyList b
  | list hne _ ih => exact spells_elements hne ih
  | emptyRecord b => exact spells_emptyRecord b
  | record hne names _ ih => exact spells_members hne names ih

/-- A reader of a text of the grammar sees the document of its tree. -/
theorem decode_of_isText {α : Type} {text : String} {t : Tree} (h : IsText text t)
    (r : Document.Reader α) : decode r text = r t.document := by
  obtain ⟨e, rfl, hcore, htext⟩ := h
  exact decode_of_spells hcore.spells e.before e.after htext r

end Placement.Json
