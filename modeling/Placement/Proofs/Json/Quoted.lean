import Mathlib
import Placement.Json.Quoted

/-!
# Quoted text and back

Between quotation marks a character may stand for itself, or an escape for it: a short one, that of
its code, or those of the two surrogates that its code is split into. Every character is read back
from what stands for it, and no escape can be taken for the closing quotation mark. What is written
between quotation marks is of this form, so it is read back.
-/
namespace Placement.Json
open Text

/-- A digit of base sixteen in either case. -/
inductive HexDigit : Char → ℕ → Prop
  | lower {d : ℕ} : d < 16 → HexDigit (Nat.digitChar d) d
  | upper {d : ℕ} : d < 16 → HexDigit (Nat.digitChar d).toUpper d

/-- Four digits of base sixteen and the number that they make up. -/
inductive HexCode : List Char → ℕ → Prop
  | mk {a b c d : Char} {i j k l : ℕ} : HexDigit a i → HexDigit b j → HexDigit c k →
      HexDigit d l → HexCode [a, b, c, d] (16 * (16 * (16 * i + j) + k) + l)

/-- What may stand for a character: itself, a short escape, the escape of its code, or the escapes
of the two surrogates that its code is split into. -/
inductive Stands : List Char → Char → Prop
  | plain {c : Char} : 0x20 ≤ c.toNat → c ≠ '"' → c ≠ '\\' → Stands [c] c
  | short {e c : Char} : shortEscape? e = some c → Stands ['\\', e] c
  | code {digits : List Char} {c : Char} : HexCode digits c.toNat →
      Stands ('\\' :: 'u' :: digits) c
  | pair {digits more : List Char} {high low : ℕ} {c : Char} : HexCode digits high →
      HexCode more low → isHighSurrogate high = true → isLowSurrogate low = true →
      c.toNat = pairCode high low → Stands ('\\' :: 'u' :: (digits ++ '\\' :: 'u' :: more)) c

theorem hexDigit?_digitChar {d : ℕ} (h : d < 16) : hexDigit? (Nat.digitChar d) = some d := by
  interval_cases d <;> rfl

theorem charOfCode?_toNat (c : Char) : charOfCode? c.toNat = some c := dif_pos c.valid

theorem hexDigit?_of_hexDigit {c : Char} {d : ℕ} (h : HexDigit c d) : hexDigit? c = some d := by
  cases h with
  | lower hd => exact hexDigit?_digitChar hd
  | upper hd => interval_cases d <;> rfl

theorem hexNumber_of_hexCode {digits : List Char} {n : ℕ} (h : HexCode digits n)
    (rest : List Char) : hexNumber 0 4 (digits ++ rest) = some (n, rest) := by
  cases h with
  | mk ha hb hc hd =>
    simp only [List.cons_append, List.nil_append, hexNumber, hexDigit?_of_hexDigit ha,
      hexDigit?_of_hexDigit hb, hexDigit?_of_hexDigit hc, hexDigit?_of_hexDigit hd, mul_zero,
      zero_add]

/-- No code of a character is that of a surrogate. -/
theorem isHighSurrogate_toNat (c : Char) : isHighSurrogate c.toNat = false := by
  have hvalid : c.toNat < 0xD800 ∨ 0xDFFF < c.toNat ∧ c.toNat < 0x110000 := c.valid
  rw [isHighSurrogate, Bool.and_eq_false_iff, decide_eq_false_iff_not, decide_eq_false_iff_not]
  omega

theorem readChar_of_stands {piece : List Char} {c : Char} (h : Stands piece c)
    (rest : List Char) : readChar (piece ++ rest) = some (c, rest) := by
  cases h with
  | plain hcontrol _ hbackslash =>
    simp [readChar, hbackslash, not_lt.mpr hcontrol]
  | @short e _ hescape =>
    have hu : e ≠ 'u' := by
      rintro rfl
      cases hescape
    change readChar ('\\' :: e :: rest) = _
    rw [readChar, hescape]
    · rfl
    · exact hu
  | @code digits _ hcode =>
    change readCode (digits ++ rest) = _
    rw [readCode, hexNumber_of_hexCode hcode]
    simp [isHighSurrogate_toNat, charOfCode?_toNat]
  | @pair digits more high low _ hhigh hlow hfirst hsecond hcode =>
    have happend : '\\' :: 'u' :: (digits ++ '\\' :: 'u' :: more) ++ rest =
        '\\' :: 'u' :: (digits ++ '\\' :: 'u' :: (more ++ rest)) := by simp
    rw [happend]
    change readCode (digits ++ '\\' :: 'u' :: (more ++ rest)) = _
    rw [readCode, hexNumber_of_hexCode hhigh]
    simp [hfirst, hexNumber_of_hexCode hlow, hsecond, ← hcode, charOfCode?_toNat]

theorem head?_of_stands {piece : List Char} {c : Char} (h : Stands piece c) :
    ∃ d, piece.head? = some d ∧ d ≠ '"' := by
  cases h with
  | plain _ hquote _ => exact ⟨c, rfl, hquote⟩
  | _ => exact ⟨'\\', rfl, by decide⟩

theorem stands_escape (c : Char) : Stands (escape c) c := by
  unfold escape
  split_ifs with hquote hbackslash hline hreturn htab hback hfeed hcontrol
  any_goals (subst c; exact .short rfl)
  · have hzero : HexDigit '0' 0 := .lower (d := 0) (by decide)
    have hhigh : HexDigit (Nat.digitChar (c.toNat / 16)) (c.toNat / 16) := .lower (by omega)
    have hlow : HexDigit (Nat.digitChar (c.toNat % 16)) (c.toNat % 16) := .lower (by omega)
    have hcode := HexCode.mk hzero hzero hhigh hlow
    have hsum : 16 * (16 * (16 * 0 + 0) + c.toNat / 16) + c.toNat % 16 = c.toNat := by omega
    rw [hsum] at hcode
    exact .code hcode
  · exact .plain (not_lt.mp hcontrol) hquote hbackslash

theorem head?_escape (c : Char) : ∃ d, (escape c).head? = some d ∧ d ≠ '"' :=
  head?_of_stands (stands_escape c)

section
variable {R : List Char → Char → Prop} {pieces : List (List Char)} {s : List Char} {fuel : ℕ}
  {read : ℕ → List Char → Option (List Char × List Char)}

/-- A reader that takes what stands for one character after the other and stops at a quotation
mark. -/
theorem read_pieces (close : ∀ fuel rest, read (fuel + 1) ('"' :: rest) = some ([], rest))
    (step : ∀ fuel p c rest, R p c → read (fuel + 1) (p ++ rest) =
      (read fuel rest).map fun (s, rest) => (c :: s, rest))
    (h : List.Forall₂ R pieces s) (hfuel : s.length < fuel) (rest : List Char) :
    read fuel (pieces.flatten ++ '"' :: rest) = some (s, rest) := by
  induction h generalizing fuel with
  | nil =>
    obtain ⟨fuel, rfl⟩ := Nat.exists_eq_succ_of_ne_zero (Nat.ne_zero_of_lt hfuel)
    exact close fuel rest
  | cons hpiece _ ih =>
    obtain ⟨fuel, rfl⟩ := Nat.exists_eq_succ_of_ne_zero (Nat.ne_zero_of_lt hfuel)
    rw [List.flatten_cons, List.append_assoc, step _ _ _ _ hpiece,
      ih (Nat.lt_of_succ_lt_succ hfuel)]
    rfl

theorem length_le_of_pieces (hne : ∀ p c, R p c → p ≠ []) (h : List.Forall₂ R pieces s) :
    s.length ≤ pieces.flatten.length := by
  induction h with
  | nil => exact le_rfl
  | cons hpiece _ ih =>
    have hpos := List.length_pos_of_ne_nil (hne _ _ hpiece)
    rw [List.flatten_cons, List.length_append, List.length_cons]
    omega

theorem forall₂_escape {escape : Char → List Char} (h : ∀ c ∈ s, R (escape c) c) :
    List.Forall₂ R (s.map escape) s :=
  List.forall₂_map_left_iff.mpr (List.forall₂_same.mpr h)

end

/-- A text between quotation marks, character by character. -/
inductive Quoted (s : String) : List Char → Prop
  | mk {pieces : List (List Char)} : List.Forall₂ Stands pieces s.toList →
      Quoted s ('"' :: (pieces.flatten ++ ['"']))

theorem readChars_of_stands {fuel : ℕ} {piece : List Char} {c : Char} (h : Stands piece c)
    (rest : List Char) : readChars (fuel + 1) (piece ++ rest) =
      (readChars fuel rest).map fun (s, rest) => (c :: s, rest) := by
  obtain ⟨d, hhead, hne⟩ := head?_of_stands h
  have hread := readChar_of_stands h rest
  obtain ⟨tail, rfl⟩ := List.head?_eq_some_iff.mp hhead
  rw [List.cons_append] at hread ⊢
  rw [readChars]
  · rw [hread]
  · exact fun tail' heq => hne (List.cons.inj heq).1

theorem ne_nil_of_stands {piece : List Char} {c : Char} (h : Stands piece c) : piece ≠ [] := by
  rintro rfl
  obtain ⟨d, hhead, -⟩ := head?_of_stands h
  cases hhead

/-- A quoted text is read back, and what follows it is left. -/
theorem exists_unquote {s : String} {cs : List Char} (h : Quoted s cs) :
    ∃ tail, cs = '"' :: tail ∧ ∀ rest, unquote (tail ++ rest) = some (s, rest) := by
  obtain ⟨hpieces⟩ := h
  refine ⟨_, rfl, fun rest => ?_⟩
  have hlength := length_le_of_pieces (fun _ _ => ne_nil_of_stands) hpieces
  rw [List.append_assoc, List.singleton_append, unquote,
    read_pieces (fun _ _ => rfl) (fun _ _ _ rest h => readChars_of_stands h rest) hpieces
      (by rw [List.length_append, List.length_cons]; omega)]
  exact congrArg (fun t => some (t, rest)) String.ofList_toList

/-- What is written is a text between quotation marks. -/
theorem quoted_quote (s : String) : Quoted s (quote s) := by
  have hquoted : Quoted s _ := .mk (forall₂_escape fun c _ => stands_escape c)
  rwa [← List.flatMap_def] at hquoted

/-- Characters that need no escape may stand for themselves. -/
theorem quoted_of_plain {s : String}
    (h : s.toList.all (fun c => 0x20 ≤ c.toNat && c != '"' && c != '\\') = true) :
    Quoted s ('"' :: (s.toList ++ ['"'])) := by
  have hplain : ∀ c ∈ s.toList, Stands [c] c := by
    intro c hc
    have hc := List.all_eq_true.mp h c hc
    simp only [Bool.and_eq_true, decide_eq_true_eq, bne_iff_ne] at hc
    exact .plain hc.1.1 hc.1.2 hc.2
  have hquoted : Quoted s _ := .mk (forall₂_escape hplain)
  rwa [← List.flatMap_def, List.flatMap_singleton'] at hquoted

end Placement.Json
