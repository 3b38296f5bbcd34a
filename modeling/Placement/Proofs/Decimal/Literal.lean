import Mathlib
import Placement.Decimal.Literal

/-!
# Literals and back

A literal is written as it was kept: sign, digits, point, exponent. It is read back when it is one
that reading gives, with digits wherever there have to be some, and when what follows cannot go on
with it. Collecting its digits drops none as long as they make up a number of 64 bits.
-/
namespace Placement.Decimal

variable {n : ℕ} {digits rest : List Char} {c : Char}

/-- A text that does not begin with a digit. -/
def NoDigit (rest : List Char) : Prop := ∀ c ∈ rest.head?, c.isDigit = false

theorem span_digits (digit : ∀ c ∈ digits, c.isDigit = true) (h : NoDigit rest) :
    (digits ++ rest).span Char.isDigit = (digits, rest) := by
  have htake : rest.takeWhile Char.isDigit = [] := by
    cases rest with
    | nil => rfl
    | cons c rest => simp [h c rfl]
  have hdrop : rest.dropWhile Char.isDigit = rest := by
    cases rest with
    | nil => rfl
    | cons c rest => simp [h c rfl]
  rw [List.span_eq_takeWhile_dropWhile, List.takeWhile_append_of_pos digit,
    List.dropWhile_append_of_pos digit, htake, hdrop, List.append_nil]

theorem isDigit_of_mem_toDigits (h : c ∈ Nat.toDigits 10 n) : c.isDigit = true :=
  Nat.isDigit_of_mem_toDigits (by norm_num) (by norm_num) h

theorem ofDigits_toDigits (n : ℕ) : ofDigits (Nat.toDigits 10 n) = n :=
  Nat.ofDigitChars_ten_toDigits

namespace Literal

variable {l : Literal}

/-- An exponent with its sign. -/
def writtenExponent (e : ℤ) : List Char :=
  (if e < 0 then ['e', '-'] else ['e', '+']) ++ Nat.toDigits 10 e.natAbs

def written (l : Literal) : List Char :=
  (if l.negative then ['-'] else []) ++ l.whole ++ (l.fraction.elim [] ('.' :: ·)) ++
    l.exponent.elim [] writtenExponent

/-- A literal that reading may give: digits where there have to be some, and no needless zero in
front of others. -/
structure Regular (l : Literal) : Prop where
  whole : l.whole ≠ []
  digits : ∀ c ∈ l.whole, c.isDigit = true
  leading : l.whole.head? = some '0' → l.whole.length = 1
  fraction : ∀ ds ∈ l.fraction, ds ≠ [] ∧ ∀ c ∈ ds, c.isDigit = true

/-- A text that no literal before it can go on with. -/
def Stops (rest : List Char) : Prop :=
  ∀ c ∈ rest.head?, c.isDigit = false ∧ c ≠ '.' ∧ c ≠ 'e' ∧ c ≠ 'E'

theorem Stops.noDigit (h : Stops rest) : NoDigit rest := fun c hc => (h c hc).1

theorem readSigned_written (e : ℤ) (h : NoDigit rest) :
    readSigned ((if e < 0 then ['-'] else ['+']) ++ Nat.toDigits 10 e.natAbs ++ rest) =
      some (e, rest) := by
  have hspan : (Nat.toDigits 10 e.natAbs ++ rest).span Char.isDigit =
      (Nat.toDigits 10 e.natAbs, rest) :=
    span_digits (fun c hc => isDigit_of_mem_toDigits hc) h
  have hvalue : ofDigits (Nat.toDigits 10 e.natAbs) = e.natAbs := ofDigits_toDigits e.natAbs
  obtain ⟨d, ds, hds⟩ := List.exists_cons_of_ne_nil (Nat.toDigits_ne_nil (n := e.natAbs) (b := 10))
  rw [hds] at hspan hvalue ⊢
  split_ifs with hneg
  · simp only [readSigned, List.cons_append, List.nil_append] at hspan ⊢
    simp only [hspan, hvalue, if_true]
    rw [← Int.eq_neg_natAbs_of_nonpos hneg.le]
  · simp only [readSigned, List.cons_append, List.nil_append] at hspan ⊢
    simp only [hspan, hvalue, Bool.false_eq_true, if_false]
    rw [← Int.eq_natAbs_of_nonneg (not_lt.mp hneg)]

theorem readExponent_written (h : Stops rest) (e : Option ℤ) :
    readExponent (e.elim [] writtenExponent ++ rest) = some (e, rest) := by
  cases e with
  | none =>
    cases rest with
    | nil => rfl
    | cons c rest =>
      obtain ⟨-, -, he, hE⟩ := h c rfl
      simp [readExponent, he, hE]
  | some e =>
    have hsigned := readSigned_written e h.noDigit
    have hsplit : (some e).elim [] writtenExponent ++ rest =
        'e' :: ((if e < 0 then ['-'] else ['+']) ++ Nat.toDigits 10 e.natAbs ++ rest) := by
      simp only [Option.elim_some, writtenExponent]
      split <;> rfl
    rw [hsplit, readExponent, hsigned]
    rfl

theorem noDigit_writtenExponent (h : Stops rest) (e : Option ℤ) :
    NoDigit (e.elim [] writtenExponent ++ rest) := by
  cases e with
  | none => exact h.noDigit
  | some e =>
    intro c hc
    obtain rfl : 'e' = c := by
      simp only [Option.elim_some, writtenExponent] at hc
      split at hc <;> simpa using hc
    rfl

theorem noPoint_writtenExponent (h : Stops rest) (e : Option ℤ) :
    (e.elim [] writtenExponent ++ rest).head? ≠ some '.' := by
  cases e with
  | none => exact fun hdot => (h '.' hdot).2.1 rfl
  | some e =>
    simp only [Option.elim_some, writtenExponent]
    split <;> simp

theorem noDigit_writtenFraction (f : Option (List Char)) (h : NoDigit rest) :
    NoDigit (f.elim [] ('.' :: ·) ++ rest) := by
  cases f with
  | none => exact h
  | some ds =>
    intro c hc
    obtain rfl : '.' = c := by simpa using hc
    rfl

theorem readFraction_written {f : Option (List Char)}
    (hf : ∀ ds ∈ f, ds ≠ [] ∧ ∀ c ∈ ds, c.isDigit = true) (h : NoDigit rest)
    (point : rest.head? ≠ some '.') :
    readFraction (f.elim [] ('.' :: ·) ++ rest) = some (f, rest) := by
  cases f with
  | none =>
    cases rest with
    | nil => rfl
    | cons c rest =>
      have hc : c ≠ '.' := fun he => point (congrArg some he)
      simp [readFraction, hc]
  | some ds =>
    obtain ⟨hne, hdigits⟩ := hf ds rfl
    obtain ⟨d, tail, rfl⟩ := List.exists_cons_of_ne_nil hne
    have hspan := span_digits hdigits h
    simp only [Option.elim_some, List.cons_append, readFraction] at hspan ⊢
    rw [hspan]

/-- A literal is read when its digits are as they have to be, and its exponent is read after them.
-/
theorem read_of_exponent {tail : List Char} (regular : l.Regular)
    (exponent : readExponent tail = some (l.exponent, rest)) (digit : NoDigit tail)
    (point : tail.head? ≠ some '.') :
    read ((if l.negative then ['-'] else []) ++ l.whole ++ l.fraction.elim [] ('.' :: ·) ++ tail) =
      some (l, rest) := by
  obtain ⟨negative, whole, fraction, e⟩ := l
  have hfraction := readFraction_written regular.fraction digit point
  have hspan := span_digits regular.digits (noDigit_writtenFraction fraction digit)
  have hempty : ¬ (whole.isEmpty = true ∨ (whole.head? = some '0' ∧ whole.length ≠ 1)) := by
    rintro (hnil | ⟨hzero, hlength⟩)
    · exact regular.whole (List.isEmpty_iff.mp hnil)
    · exact hlength (regular.leading hzero)
  simp only [List.append_assoc]
  cases negative with
  | true =>
    unfold read
    simp only [if_true, List.cons_append, List.nil_append, hspan, if_neg hempty, hfraction,
      Option.bind_eq_bind, Option.bind_some, exponent]
    rfl
  | false =>
    unfold read
    rw [if_neg Bool.false_ne_true, List.nil_append]
    obtain ⟨d, ds, rfl⟩ := List.exists_cons_of_ne_nil regular.whole
    have hd : d ≠ '-' := by
      rintro rfl
      exact absurd (regular.digits '-' List.mem_cons_self) (by decide)
    split
    next heq =>
      split at heq
      next heq' => exact absurd (List.cons.inj heq').1 hd
      next =>
        cases heq
        simp only [hspan, if_neg hempty, hfraction, Option.bind_eq_bind, Option.bind_some,
          exponent]
        rfl

/-- What is written of a literal is read as that literal, up to where it stops. -/
theorem read_written (regular : l.Regular) (h : Stops rest) :
    read (l.written ++ rest) = some (l, rest) := by
  have hread := read_of_exponent regular (readExponent_written h l.exponent)
    (noDigit_writtenExponent h l.exponent) (noPoint_writtenExponent h l.exponent)
  rwa [← List.append_assoc] at hread

theorem le_ofDigitChars (s : ℕ) (digits : List Char) : s ≤ Nat.ofDigitChars 10 digits s := by
  induction digits generalizing s with
  | nil => exact le_rfl
  | cons d digits ih =>
    rw [Nat.ofDigitChars_cons]
    exact le_trans (by omega) (ih _)

theorem accumulate_of_lt {s : ℕ} (h : Nat.ofDigitChars 10 digits s < UInt64.size) :
    accumulate s digits = (Nat.ofDigitChars 10 digits s, []) := by
  induction digits generalizing s with
  | nil => rfl
  | cons d digits ih =>
    rw [Nat.ofDigitChars_cons] at h ⊢
    have hnext := (le_ofDigitChars _ digits).trans_lt h
    rw [accumulate]
    simp only [if_pos hnext, ih h]

/-- Where all digits make up a number of 64 bits, none is dropped. -/
theorem collect_of_lt (h : ofDigits (l.whole ++ l.fractionDigits) < UInt64.size) :
    l.collect = (ofDigits (l.whole ++ l.fractionDigits),
      l.exponentValue - l.fractionDigits.length, true) := by
  rw [ofDigits, Nat.ofDigitChars_append] at h
  have hwhole : accumulate 0 l.whole = (ofDigits l.whole, []) :=
    accumulate_of_lt ((le_ofDigitChars _ l.fractionDigits).trans_lt h)
  have hfraction : accumulate (ofDigits l.whole) l.fractionDigits =
      (Nat.ofDigitChars 10 l.fractionDigits (ofDigits l.whole), []) := accumulate_of_lt h
  have hall : ofDigits (l.whole ++ l.fractionDigits) =
      Nat.ofDigitChars 10 l.fractionDigits (ofDigits l.whole) := by
    rw [ofDigits, Nat.ofDigitChars_append]
    rfl
  rw [collect, hwhole, hall]
  simp only [hfraction]
  simp

end Literal

end Placement.Decimal
