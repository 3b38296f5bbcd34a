import Mathlib
import Placement.Proofs.Json.Numeral
import Placement.Proofs.Json.Parts

/-!
# Writing documents and reading them back

What is written of a document is read back wherever it stands, up to where it ends: texts, whole
numbers, lists and records as they are, a double as the number of its literal. There is one lemma
for each kind of document; a list or a record is read back when its parts are.
-/
namespace Placement.Json
open Decimal Document

variable {rest : List Char} {d e : Document} {ds es : List Document}
  {ms ns : List (String × Document)}

/-- What is written of the one document is read as the other one. -/
def ReadsAs (d e : Document) : Prop :=
  ∀ (k depth : ℕ) (rest : List Char), (write k d).length < depth → Literal.Stops rest →
    value depth (write k d ++ rest) = ⟨e, some rest⟩

theorem ReadsAs.spells (h : ReadsAs d e) (k : ℕ) : Spells (write k d) e := h k

theorem readsAs_text (s : String) : ReadsAs (.text s) (.text s) := by
  intro k
  rw [write]
  exact (quoted_quote s).spells

theorem value_literal {l : Literal} (regular : l.Regular) (h : Literal.Stops rest) (depth : ℕ) :
    value (depth + 1) (l.written ++ rest) = ⟨number l, some rest⟩ := by
  obtain ⟨c, hhead, hc⟩ : ∃ c, (l.written ++ rest).head? = some c ∧
      (c = '-' ∨ c.isDigit = true) := by
    obtain ⟨negative, whole, fraction, exponent⟩ := l
    obtain ⟨c, digits, rfl⟩ := List.exists_cons_of_ne_nil regular.whole
    cases negative with
    | true => exact ⟨'-', rfl, .inl rfl⟩
    | false => exact ⟨c, rfl, .inr (regular.digits c List.mem_cons_self)⟩
  obtain ⟨tail, htail⟩ := List.head?_eq_some_iff.mp hhead
  have hread := Literal.read_written regular h
  rw [htail] at hread ⊢
  exact value_numeric hc hread depth

/-- A whole number as a literal. -/
def natLiteral (n : ℕ) : Literal := ⟨false, Nat.toDigits 10 n, none, none⟩

theorem regular_natLiteral (n : ℕ) : (natLiteral n).Regular := by
  refine ⟨Nat.toDigits_ne_nil, fun c hc => isDigit_of_mem_toDigits hc, fun hzero => ?_, nofun⟩
  obtain rfl : n = 0 := by
    by_contra hn
    exact head?_toDigits (Nat.pos_of_ne_zero hn) hzero
  rfl

theorem number_natLiteral {n : ℕ} (h : n < UInt64.size) :
    number (natLiteral n) = .number (.int n) := by
  have hdigits : ofDigits ((natLiteral n).whole ++ (natLiteral n).fractionDigits) = n := by
    simp only [natLiteral, Literal.fractionDigits, Option.getD_none, List.append_nil,
      ofDigits_toDigits]
  rw [number, Literal.collect_of_lt (by rwa [hdigits]), hdigits]
  rfl

theorem readsAs_nat {n : ℕ} (h : n < UInt64.size) :
    ReadsAs (.number (.int n)) (.number (.int n)) := by
  intro k depth rest hdepth hstops
  obtain ⟨depth, rfl⟩ := Nat.exists_eq_succ_of_ne_zero (Nat.ne_zero_of_lt hdepth)
  have hwrite : write k (.number (.int n)) = (natLiteral n).written := by
    have hnonneg : ¬ (n : ℤ) < 0 := by omega
    simp [write, writeNumber, int, hnonneg, natLiteral, Literal.written]
  rw [hwrite, value_literal (regular_natLiteral n) hstops, number_natLiteral h]

theorem readsAs_real {x : Float} {l : Literal} (h : doubles.write x = l.written)
    (regular : l.Regular) : ReadsAs (.number (.real x)) (number l) := by
  intro k depth rest hdepth hstops
  obtain ⟨depth, rfl⟩ := Nat.exists_eq_succ_of_ne_zero (Nat.ne_zero_of_lt hdepth)
  rw [write, writeNumber, h]
  exact value_literal regular hstops depth

def Blanks.line (k : ℕ) : Blanks where
  chars := Json.line k
  blank := by
    intro c hc
    rcases List.mem_cons.mp hc with rfl | hc
    · simp
    · rw [List.eq_of_mem_replicate hc]
      simp

/-- The items of a list from one on, each on a line of its own. -/
theorem series_writeItems (h : List.Forall₂ ReadsAs ds es) (hd : ReadsAs d e) (j k : ℕ) :
    Series SpellsItem ']' (line k ++ (write k d ++ (writeItems k ds ++ (line j ++ [']']))))
      (e :: es) := by
  induction h generalizing d e with
  | nil =>
    have hlast : Series SpellsItem ']' _ [e] := .last (.mk (.line k) (.line j) (hd.spells k))
    simpa [writeItems, Blanks.line] using hlast
  | cons hfirst _ ih =>
    have hmore := Series.more (.mk (.line k) .none (hd.spells k)) (ih hfirst)
    simpa [writeItems, Blanks.line, Blanks.none] using hmore

theorem readsAs_list (h : List.Forall₂ ReadsAs ds es) : ReadsAs (.list ds true) (.list es true) := by
  intro k
  cases h with
  | nil => exact spells_emptyList .none
  | @cons d e ds es hfirst hrest =>
    have hwrite : write k (.list (d :: ds) true) =
        '[' :: (line (k + 1) ++ (write (k + 1) d ++ (writeItems (k + 1) ds ++
          (line k ++ [']'])))) := by
      simp [write]
    rw [hwrite]
    exact spells_list (series_writeItems hrest hfirst k (k + 1))

/-- Equal names, and what is written of the one document is read as the other one. -/
def MemberReadsAs (m n : String × Document) : Prop := m.1 = n.1 ∧ ReadsAs m.2 n.2

theorem spellsMember_written (s : String) (hd : ReadsAs d e) (b : Blanks) (k : ℕ) :
    SpellsMember (line k ++ (quote s ++ ':' :: ' ' :: (write k d ++ b.chars))) (s, e) :=
  .mk (.line k) .none (quoted_quote s) (.mk .space b (hd.spells k))

/-- The members of a record from one on, each on a line of its own. -/
theorem series_writeMembers (h : List.Forall₂ MemberReadsAs ms ns) (s : String) (hd : ReadsAs d e)
    (j k : ℕ) : Series SpellsMember '}'
      (line k ++ (quote s ++ ':' :: ' ' :: (write k d ++ (writeMembers k ms ++ (line j ++ ['}'])))))
      ((s, e) :: ns) := by
  induction h generalizing s d e with
  | nil =>
    have hlast : Series SpellsMember '}' _ [(s, e)] :=
      .last (spellsMember_written s hd (.line j) k)
    simpa [writeMembers, Blanks.line] using hlast
  | @cons m n ms ns hfirst _ ih =>
    obtain ⟨s', d'⟩ := m
    obtain ⟨s'', e'⟩ := n
    obtain ⟨rfl, hd'⟩ : s' = s'' ∧ ReadsAs d' e' := hfirst
    have hmore := Series.more (spellsMember_written s hd .none k) (ih s' hd')
    simpa [writeMembers, Blanks.none] using hmore

theorem readsAs_record (h : List.Forall₂ MemberReadsAs ms ns) :
    ReadsAs (.record ms true) (.record ns true) := by
  intro k
  cases h with
  | nil => exact spells_emptyRecord .none
  | @cons m n ms ns hfirst hrest =>
    obtain ⟨s, d⟩ := m
    obtain ⟨s', e⟩ := n
    obtain ⟨rfl, hd⟩ : s = s' ∧ ReadsAs d e := hfirst
    have hwrite : write k (.record ((s, d) :: ms) true) =
        '{' :: (line (k + 1) ++ (quote s ++ ':' :: ' ' :: (write (k + 1) d ++
          (writeMembers (k + 1) ms ++ (line k ++ ['}']))))) := by
      simp [write]
    rw [hwrite]
    exact spells_record (series_writeMembers hrest s hd k (k + 1))

/-- A reader of a written document sees what it is read as. -/
theorem decode_print {α : Type} (r : Reader α) (h : ReadsAs d e) : decode r (print d) = r e := by
  have htext : (print d).toList = [] ++ (write 0 d ++ []) := by
    rw [print, String.toList_ofList, List.nil_append, List.append_nil]
  exact decode_of_spells (h.spells 0) .none .none htext r

end Placement.Json
