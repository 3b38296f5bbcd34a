import Mathlib
import Placement.Proofs.Decimal.Literal

/-!
# How a number is spelled

A literal keeps what a number says and not every way to write it down: the letter of the exponent,
a plus sign after it and zeros in front of its digits are lost. A spelling keeps them. It is built
only from digits that a number may have, so every spelling can be read, as the literal it spells.
-/
namespace Placement.Decimal

/-- One or more decimal digits. -/
structure Digits where
  chars : List Char
  nonempty : chars ≠ []
  digit : ∀ c ∈ chars, c.isDigit = true

/-- An exponent: its letter, whether its sign is a minus if it has one, and its digits. -/
structure Power where
  capital : Bool
  sign : Option Bool
  digits : Digits

/-- A decimal number as a text may write it: no plus sign and no needless zero in front. -/
structure Spelling where
  negative : Bool
  whole : Digits
  leading : whole.chars.head? = some '0' → whole.chars.length = 1
  fraction : Option Digits
  power : Option Power

namespace Power

def mark (p : Power) : Char := if p.capital then 'E' else 'e'

def signText (p : Power) : List Char :=
  match p.sign with
  | none => []
  | some true => ['-']
  | some false => ['+']

def text (p : Power) : List Char := p.mark :: (p.signText ++ p.digits.chars)

def value (p : Power) : ℤ :=
  if p.sign = some true then -(ofDigits p.digits.chars : ℤ) else ofDigits p.digits.chars

end Power

namespace Spelling

/-- The exponent of a spelling, nothing without one. -/
def powerText (s : Spelling) : List Char := s.power.elim [] Power.text

def text (s : Spelling) : List Char :=
  (if s.negative then ['-'] else []) ++ s.whole.chars ++
    (s.fraction.map Digits.chars).elim [] ('.' :: ·) ++ s.powerText

/-- What a spelling says. -/
def literal (s : Spelling) : Literal :=
  ⟨s.negative, s.whole.chars, s.fraction.map Digits.chars, s.power.map Power.value⟩

theorem regular_literal (s : Spelling) : s.literal.Regular := by
  refine ⟨s.whole.nonempty, s.whole.digit, s.leading, fun ds hds => ?_⟩
  obtain ⟨digits, -, rfl⟩ := Option.map_eq_some_iff.mp hds
  exact ⟨digits.nonempty, digits.digit⟩

/-- The spelling of a literal without an exponent. -/
def ofLiteral (l : Literal) (regular : l.Regular) : Spelling where
  negative := l.negative
  whole := ⟨l.whole, regular.whole, regular.digits⟩
  leading := regular.leading
  fraction := l.fraction.attach.map fun ds =>
    ⟨ds.1, (regular.fraction ds.1 ds.2).1, (regular.fraction ds.1 ds.2).2⟩
  power := none

section
variable {l : Literal} (regular : l.Regular) (plain : l.exponent = none)

theorem map_chars_fraction_ofLiteral :
    (ofLiteral l regular).fraction.map Digits.chars = l.fraction := by
  simp [ofLiteral]

include plain

theorem literal_ofLiteral : (ofLiteral l regular).literal = l := by
  unfold literal
  rw [map_chars_fraction_ofLiteral]
  cases l
  cases plain
  rfl

theorem text_ofLiteral : (ofLiteral l regular).text = l.written := by
  rw [text, map_chars_fraction_ofLiteral, Literal.written, plain]
  rfl

end

section
variable (s : Spelling)

theorem text_append (rest : List Char) :
    s.text ++ rest = (if s.negative then ['-'] else []) ++ (s.whole.chars ++
      ((s.fraction.map Digits.chars).elim [] ('.' :: ·) ++ (s.powerText ++ rest))) := by
  simp [text]

/-- A text begins with a minus sign or a digit. -/
theorem head?_text (rest : List Char) :
    ∃ c more, s.text ++ rest = c :: more ∧ (c = '-' ∨ c.isDigit = true) := by
  obtain ⟨d, ds, hchars⟩ := List.exists_cons_of_ne_nil s.whole.nonempty
  have hd := s.whole.digit d (hchars ▸ List.mem_cons_self)
  rw [text_append, hchars]
  cases s.negative
  · exact ⟨d, _, rfl, .inr hd⟩
  · exact ⟨'-', _, rfl, .inl rfl⟩

end

variable {rest : List Char} (s : Spelling)

theorem readSigned_power (p : Power) (h : NoDigit rest) :
    Literal.readSigned (p.signText ++ p.digits.chars ++ rest) = some (p.value, rest) := by
  obtain ⟨capital, sign, digits, nonempty, digit⟩ := p
  have hspan := span_digits digit h
  obtain ⟨d, ds, rfl⟩ := List.exists_cons_of_ne_nil nonempty
  have hd : d.isDigit = true := digit d List.mem_cons_self
  rw [List.cons_append] at hspan
  match sign with
  | some true =>
    simp only [Power.signText, Literal.readSigned, List.cons_append, List.nil_append, hspan,
      if_true, Power.value]
  | some false =>
    simp only [Power.signText, Literal.readSigned, List.cons_append, List.nil_append, hspan,
      Power.value, Option.some.injEq, Bool.false_eq_true, if_false]
  | none =>
    have hminus : d ≠ '-' := by rintro rfl; cases hd
    have hplus : d ≠ '+' := by rintro rfl; cases hd
    simp [Power.signText, Literal.readSigned, Power.value, hminus, hplus,
      -List.span_eq_takeWhile_dropWhile, hspan]

theorem readExponent_power (h : Literal.Stops rest) :
    Literal.readExponent (s.powerText ++ rest) = some (s.literal.exponent, rest) := by
  unfold powerText literal
  cases s.power with
  | none => exact Literal.readExponent_written h none
  | some p =>
    have hsigned := readSigned_power p h.noDigit
    simp only [Option.elim_some, Power.text, Power.mark, List.cons_append] at hsigned ⊢
    cases p.capital <;>
      simp only [Bool.false_eq_true, if_false, if_true, Literal.readExponent, hsigned] <;> rfl

theorem head?_powerText (h : Literal.Stops rest) :
    ∀ c ∈ (s.powerText ++ rest).head?, c.isDigit = false ∧ c ≠ '.' := by
  intro c hc
  unfold powerText at hc
  cases hp : s.power with
  | none =>
    rw [hp] at hc
    exact ⟨(h c hc).1, (h c hc).2.1⟩
  | some p =>
    rw [hp] at hc
    obtain rfl : p.mark = c := by simpa [Power.text] using hc
    unfold Power.mark
    split <;> exact ⟨rfl, by decide⟩

/-- Every spelling is read as the literal it spells, up to where it stops. -/
theorem read_text (h : Literal.Stops rest) :
    Literal.read (s.text ++ rest) = some (s.literal, rest) := by
  have hread := Literal.read_of_exponent s.regular_literal (s.readExponent_power h)
    (fun c hc => (s.head?_powerText h c hc).1)
    (fun hdot => (s.head?_powerText h '.' hdot).2 rfl)
  rwa [← List.append_assoc] at hread

end Spelling

end Placement.Decimal
