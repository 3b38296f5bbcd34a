import Mathlib
import Placement.Proofs.Json.Quoted
import Placement.Proofs.Toml.Numeral
import Placement.Toml.Key

/-!
# Texts and keys written in TOML

A text on one line is written as in JSON, except that the delete character needs an escape, too. A
name that needs no quotation marks is written as a key without them. Both are read back, whatever
follows that can follow a value or a key.
-/
namespace Placement.Toml
open Text

variable {rest : List Char}

/-- A character as it is written between quotation marks. -/
def escape (c : Char) : List Char :=
  if c = '\x7f' then ['\\', 'u', '0', '0', '7', 'f'] else Json.escape c

def quote (s : String) : List Char := '"' :: s.toList.flatMap escape ++ ['"']

theorem isPrintable_of_plain {c : Char} (hcontrol : ¬ c.toNat < 0x20) (hdelete : c ≠ '\x7f') :
    isPrintable c = true := by
  have hne : c.toNat ≠ 0x7f := fun h => hdelete (Char.toNat_inj.mp h)
  simp only [isPrintable, Bool.or_eq_true, Bool.and_eq_true, decide_eq_true_eq]
  omega

theorem readEscape_of_control {c : Char} (h : c.toNat < 0x20) (rest : List Char) :
    readEscape ('u' :: '0' :: '0' :: Nat.digitChar (c.toNat / 16) ::
      Nat.digitChar (c.toNat % 16) :: rest) = some (c, rest) := by
  have hzero : hexDigit? '0' = some 0 := rfl
  have hhigh : hexDigit? (Nat.digitChar (c.toNat / 16)) = some (c.toNat / 16) :=
    Json.hexDigit?_digitChar (by omega)
  have hlow : hexDigit? (Nat.digitChar (c.toNat % 16)) = some (c.toNat % 16) :=
    Json.hexDigit?_digitChar (by omega)
  have hcode : 16 * (c.toNat / 16) + c.toNat % 16 = c.toNat := Nat.div_add_mod _ _
  simp [readEscape, hexNumber, hzero, hhigh, hlow, hcode, Json.charOfCode?_toNat]

/-- What stands for a character is read as that character. -/
theorem readChar_escape (c : Char) (rest : List Char) :
    readChar (escape c ++ rest) = some (c, rest) := by
  unfold escape Json.escape
  split_ifs with hdelete hquote hbackslash hline hreturn htab hback hfeed hcontrol
  any_goals (subst c; rfl)
  · exact readEscape_of_control hcontrol rest
  · simp [readChar, isPrintable_of_plain hcontrol hdelete]

theorem head?_escape (c : Char) : ∃ d, (escape c).head? = some d ∧ d ≠ '"' := by
  unfold escape
  split_ifs
  · exact ⟨'\\', rfl, by decide⟩
  · exact Json.head?_escape c

theorem escape_ne_nil (c : Char) : escape c ≠ [] := by
  obtain ⟨d, hhead, -⟩ := head?_escape c
  intro hnil
  rw [hnil] at hhead
  cases hhead

theorem forall₂_pieces (s : List Char) :
    List.Forall₂ (fun p c => p = escape c) (s.map escape) s := Json.forall₂_escape fun _ _ => rfl

theorem readBasic_escape {fuel : ℕ} {s : List Char} (h : s.length < fuel) (rest : List Char) :
    readBasic fuel (s.flatMap escape ++ '"' :: rest) = some (s, rest) := by
  rw [List.flatMap_def]
  refine Json.read_pieces (fun _ _ => rfl) ?_ (forall₂_pieces s) h rest
  rintro fuel _ c rest rfl
  have hread := readChar_escape c rest
  obtain ⟨d, hhead, hne⟩ := head?_escape c
  obtain ⟨tail, htail⟩ := List.head?_eq_some_iff.mp hhead
  rw [htail, List.cons_append] at hread ⊢
  rw [readBasic]
  · rw [hread]
    cases hbasic : readBasic fuel rest <;> simp [hbasic]
  · exact fun tail' heq => hne (List.cons.inj heq).1

theorem readString_quote (s : String) (rest : List Char) :
    readString (quote s ++ rest) = some (s, rest) := by
  have hlength : s.toList.length ≤ (s.toList.flatMap escape).length := by
    rw [List.flatMap_def]
    exact Json.length_le_of_pieces (by rintro _ c rfl; exact escape_ne_nil c) (forall₂_pieces _)
  have hquote : quote s ++ rest = '"' :: (s.toList.flatMap escape ++ '"' :: rest) := by
    simp [quote]
  rw [hquote, readString, readBasic_escape
    (by rw [List.length_append, List.length_cons]; omega)]
  exact congrArg (fun t => some (t, rest)) String.ofList_toList

/-- No three quotation marks stand at the start of a text on one line. -/
theorem readAnyString_quote (s : String) (h : rest.head? ≠ some '"') :
    readAnyString (quote s ++ rest) = some (s, rest) := by
  rw [← readString_quote s rest]
  have hquote : quote s ++ rest = '"' :: (s.toList.flatMap escape ++ '"' :: rest) := by
    simp [quote]
  rw [hquote]
  cases hs : s.toList with
  | nil =>
    unfold readAnyString
    split
    next heq =>
      obtain ⟨-, heq⟩ := List.cons.inj (List.cons.inj heq).2
      exact absurd (congrArg List.head? heq) h
    next heq => cases (List.cons.inj heq).1
    next => rfl
  | cons c cs =>
    obtain ⟨d, hhead, hne⟩ := head?_escape c
    obtain ⟨tail, htail⟩ := List.head?_eq_some_iff.mp hhead
    rw [List.flatMap_cons, htail]
    unfold readAnyString
    split
    next heq => exact absurd (List.cons.inj (List.cons.inj heq).2).1 hne
    next heq => cases (List.cons.inj heq).1
    next => rfl

namespace Key

/-- A name as a key, in quotation marks if it needs them. -/
def write (name : String) : List Char :=
  if name.toList ≠ [] ∧ name.toList.all isBare then name.toList else quote name

theorem isBare_ne {c d : Char} (h : isBare c = true) (hd : isBare d = false) : c ≠ d := by
  rintro rfl
  rw [h] at hd
  cases hd

theorem readName_write (name : String) (h : ∀ c ∈ rest.head?, isBare c = false) :
    readName (write name ++ rest) = some (name, rest) := by
  unfold write
  split_ifs with hbare
  · obtain ⟨hne, hall⟩ := hbare
    obtain ⟨c, cs, hname⟩ := List.exists_cons_of_ne_nil hne
    have hspan : (name.toList ++ rest).span isBare = (name.toList, rest) := by
      have hrest : rest.takeWhile isBare = [] ∧ rest.dropWhile isBare = rest := by
        cases rest with
        | nil => exact ⟨rfl, rfl⟩
        | cons d rest => simp [h d rfl]
      rw [List.span_eq_takeWhile_dropWhile,
        List.takeWhile_append_of_pos (List.all_eq_true.mp hall),
        List.dropWhile_append_of_pos (List.all_eq_true.mp hall), hrest.1, hrest.2, List.append_nil]
    have hc : isBare c = true := by
      rw [hname] at hall
      exact (Bool.and_eq_true_iff.mp hall).1
    have hback : String.ofList (c :: cs) = name := by rw [← hname, String.ofList_toList]
    rw [hname] at hspan ⊢
    unfold readName
    split
    next heq => exact absurd (List.cons.inj heq).1 (isBare_ne hc rfl)
    next heq => exact absurd (List.cons.inj heq).1 (isBare_ne hc rfl)
    next => rw [hspan]; simp only [hback]
  · rw [← readString_quote name rest]
    rfl

theorem skipBlanks_write (name : String) (rest : List Char) :
    skipBlanks (write name ++ rest) = write name ++ rest := by
  unfold write
  split_ifs with hbare
  · obtain ⟨hne, hall⟩ := hbare
    obtain ⟨c, cs, hname⟩ := List.exists_cons_of_ne_nil hne
    rw [hname] at hall ⊢
    have hc : isBare c = true := (Bool.and_eq_true_iff.mp hall).1
    have hblank : isBlank c = false := by
      simp [isBlank, isBare_ne hc (d := ' ') rfl, isBare_ne hc (d := '\t') rfl]
    simp [skipBlanks, hblank]
  · rfl

/-- A written name is read as a key of that name alone, with the blanks after it. -/
theorem read_write (name : String) (rest : List Char) (bare : ∀ c ∈ rest.head?, isBare c = false)
    (point : (skipBlanks rest).head? ≠ some '.') :
    read (write name ++ rest) = some (⟨[], name⟩, skipBlanks rest) := by
  have hlimit : limit - 1 = 78 + 1 := rfl
  rw [read, hlimit, readNames, skipBlanks_write, readName_write name bare]
  simp only [Option.bind_eq_bind, Option.bind_some]
  split
  next heq => exact absurd (congrArg List.head? heq) point
  next => rfl

end Key

end Placement.Toml
