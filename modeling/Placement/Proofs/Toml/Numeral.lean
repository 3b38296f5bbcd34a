import Mathlib
import Placement.Proofs.Decimal.Spelling
import Placement.Toml.Numeral

/-!
# Spelled numbers in TOML

A number without a plus sign, underscores and needless zeros in front is read as the literal it
spells, and a date can begin like none of them. So a spelled number has the value of its literal, or
none if that is out of range, wherever it may end.
-/
namespace Placement.Toml
open Decimal

variable {ds rest tail : List Char} {c : Char}

/-- The characters that may stand right after a value. -/
def endings : List Char := [',', ' ', '\n', ']', '}']

/-- A text before which a value may end. -/
def Ends (rest : List Char) : Prop := ∀ c ∈ rest.head?, c ∈ endings

theorem ends_cons (h : c ∈ endings) : Ends (c :: rest) := by
  intro d hd
  obtain rfl : c = d := by simpa using hd
  exact h

/-- A text that goes on with no digit, not even after an underscore. -/
def EndsDigits (rest : List Char) : Prop := ∀ c ∈ rest.head?, c.isDigit = false ∧ c ≠ '_'

theorem Ends.endsDigits (h : Ends rest) : EndsDigits rest := by
  have hall : ∀ c ∈ endings, c.isDigit = false ∧ c ≠ '_' := by simp [endings]
  exact fun c hc => hall c (h c hc)

theorem ne_underscore_of_isDigit (h : c.isDigit = true) : c ≠ '_' := by
  rintro rfl
  cases h

theorem moreDigits_of_endsDigits (h : EndsDigits rest) :
    moreDigits Char.isDigit rest = some ([], rest) := by
  cases rest with
  | nil => rfl
  | cons c rest =>
    obtain ⟨hdigit, hunderscore⟩ := h c rfl
    rw [moreDigits]
    · rw [hdigit]
      rfl
    · exact fun hc _ => hunderscore hc
    · exact fun _ _ hc _ => hunderscore hc

theorem moreDigits_cons (h : c.isDigit = true) (cs : List Char) :
    moreDigits Char.isDigit (c :: cs) =
      (moreDigits Char.isDigit cs).map fun (ds, rest) => (c :: ds, rest) := by
  have hunderscore := ne_underscore_of_isDigit h
  rw [moreDigits]
  · rw [if_pos h]
  · exact fun hc _ => hunderscore hc
  · exact fun _ _ hc _ => hunderscore hc

theorem moreDigits_append (digit : ∀ c ∈ ds, c.isDigit = true) (h : EndsDigits rest) :
    moreDigits Char.isDigit (ds ++ rest) = some (ds, rest) := by
  induction ds with
  | nil => exact moreDigits_of_endsDigits h
  | cons d ds ih =>
    obtain ⟨hd, hds⟩ := List.forall_mem_cons.mp digit
    rw [List.cons_append, moreDigits_cons hd, ih hds]
    rfl

theorem someDigits_append (ds : Digits) (h : EndsDigits rest) :
    someDigits Char.isDigit (ds.chars ++ rest) = some (ds.chars, rest) := by
  obtain ⟨chars, nonempty, digit⟩ := ds
  obtain ⟨d, tail, rfl⟩ := List.exists_cons_of_ne_nil nonempty
  obtain ⟨hd, htail⟩ := List.forall_mem_cons.mp digit
  rw [List.cons_append, someDigits, if_pos hd, moreDigits_append htail h]
  rfl

variable (s : Spelling)

theorem readSign_digits (ds : Digits) (rest : List Char) :
    readSign (ds.chars ++ rest) = (false, ds.chars ++ rest) := by
  obtain ⟨chars, nonempty, digit⟩ := ds
  obtain ⟨d, tail, rfl⟩ := List.exists_cons_of_ne_nil nonempty
  have hd := digit d List.mem_cons_self
  unfold readSign
  split
  next heq =>
    cases heq
    cases hd
  next heq =>
    cases heq
    cases hd
  next => rfl

theorem readWhole_append (h : EndsDigits rest) :
    readWhole (s.whole.chars ++ rest) = some (s.whole.chars, rest) := by
  have hsome := someDigits_append s.whole h
  have hleading := s.leading
  unfold readWhole
  split
  next more heq =>
    obtain ⟨d, tail, hchars⟩ := List.exists_cons_of_ne_nil s.whole.nonempty
    rw [hchars, List.cons_append] at heq
    obtain ⟨rfl, rfl⟩ := List.cons.inj heq
    rw [hchars] at hleading
    obtain rfl := List.eq_nil_of_length_eq_zero (Nat.succ.inj (hleading rfl))
    rw [hchars]
    rfl
  next => exact hsome

theorem readExponent_powerText (h : Ends rest) :
    readExponent (s.powerText ++ rest) = some (s.literal.exponent, rest) := by
  unfold Spelling.powerText Spelling.literal
  cases s.power with
  | none =>
    rw [Option.elim_none, List.nil_append]
    unfold readExponent
    split
    next => exact absurd (h _ rfl) (by decide)
    next => exact absurd (h _ rfl) (by decide)
    next => rfl
  | some p =>
    have hsign : readSign (p.signText ++ (p.digits.chars ++ rest)) =
        (p.sign == some true, p.digits.chars ++ rest) := by
      unfold Power.signText
      match p.sign with
      | some true => rfl
      | some false => rfl
      | none => exact readSign_digits p.digits rest
    have hvalue : p.value = if (p.sign == some true) = true then
        -(ofDigits p.digits.chars : ℤ) else ofDigits p.digits.chars := by
      simp [Power.value]
    simp only [Option.elim_some, Power.text, Power.mark, List.cons_append, List.append_assoc,
      Option.map_some, hvalue]
    cases p.capital <;>
      simp only [Bool.false_eq_true, if_false, if_true, readExponent, hsign,
        someDigits_append p.digits h.endsDigits, Option.map_some]

/-- What may follow the digits of a number. -/
theorem head?_powerText_append (h : Ends rest) :
    ∀ c ∈ (s.powerText ++ rest).head?, c ∈ 'e' :: 'E' :: endings := by
  intro c hc
  unfold Spelling.powerText at hc
  cases hp : s.power with
  | none =>
    rw [hp] at hc
    exact List.mem_cons_of_mem _ (List.mem_cons_of_mem _ (h c hc))
  | some p =>
    rw [hp] at hc
    obtain rfl : p.mark = c := by simpa [Power.text] using hc
    unfold Power.mark
    split <;> decide

theorem readFraction_append (h : Ends rest) :
    readFraction ((s.fraction.map Digits.chars).elim [] ('.' :: ·) ++ (s.powerText ++ rest)) =
      some (s.literal.fraction, s.powerText ++ rest) := by
  have hhead := head?_powerText_append s h
  unfold Spelling.literal
  cases s.fraction with
  | none =>
    simp only [Option.map_none, Option.elim_none, List.nil_append]
    unfold readFraction
    split
    next heq =>
      rw [heq] at hhead
      exact absurd (hhead '.' rfl) (by decide)
    next => rfl
  | some ds =>
    have hall : ∀ c ∈ 'e' :: 'E' :: endings, c.isDigit = false ∧ c ≠ '_' := by simp [endings]
    simp only [Option.map_some, Option.elim_some, List.cons_append, readFraction,
      someDigits_append ds fun c hc => hall c (hhead c hc)]

/-- What may follow the whole part of a number. -/
theorem head?_after_whole (h : Ends rest) :
    ∀ c ∈ ((s.fraction.map Digits.chars).elim [] ('.' :: ·) ++ (s.powerText ++ rest)).head?,
      c ∈ '.' :: 'e' :: 'E' :: endings := by
  intro c hc
  cases hfraction : s.fraction with
  | none =>
    rw [hfraction] at hc
    exact List.mem_cons_of_mem _ (head?_powerText_append s h c hc)
  | some ds =>
    rw [hfraction] at hc
    obtain rfl : '.' = c := by simpa using hc
    exact List.mem_cons_self

theorem readSign_text (rest : List Char) :
    readSign ((if s.negative then ['-'] else []) ++ (s.whole.chars ++ rest)) =
      (s.negative, s.whole.chars ++ rest) := by
  cases s.negative
  · exact readSign_digits s.whole rest
  · rfl

theorem readDecimal_text (h : Ends rest) :
    readDecimal (s.text ++ rest) = some (s.literal, rest) := by
  have hall : ∀ c ∈ '.' :: 'e' :: 'E' :: endings, c.isDigit = false ∧ c ≠ '_' := by
    simp [endings]
  have hwhole := readWhole_append s fun c hc => hall c (head?_after_whole s h c hc)
  unfold readDecimal
  rw [s.text_append]
  simp only [readSign_text, hwhole, Option.bind_eq_bind, Option.bind_some,
    readFraction_append s h, readExponent_powerText s h]
  rfl

theorem readField_of_noDigit {count : ℕ} (hcount : 0 < count) (h : NoDigit ds) (low high : ℕ) :
    readField count low high ds = none := by
  unfold readField
  refine if_neg fun hfield => ?_
  obtain ⟨count, rfl⟩ := Nat.exists_eq_succ_of_ne_zero hcount.ne'
  cases ds with
  | nil => cases hfield.1
  | cons d ds =>
    have hd := List.all_eq_true.mp hfield.2.1 d (by simp)
    rw [h d rfl] at hd
    cases hd

theorem afterDateTime?_of_noDigit (h : NoDigit ds) : afterDateTime? ds = none := by
  unfold afterDateTime? afterDate? afterTime?
  rw [readField_of_noDigit (by norm_num) h, readField_of_noDigit (by norm_num) h]
  rfl

theorem after?_eq_none {cs : List Char} (h : cs.head? ≠ some c) : after? c cs = none := by
  cases cs with
  | nil => rfl
  | cons d cs =>
    have hcd : (c == d) = false := by
      rw [beq_eq_false_iff_ne]
      rintro rfl
      exact h rfl
    rw [after?, hcd]
    rfl

/-- A field of digits is no longer than the digits that there are. -/
theorem length_le_of_all_digits {count : ℕ} (htail : NoDigit tail)
    (hlength : ((ds ++ tail).take count).length = count)
    (hall : ((ds ++ tail).take count).all Char.isDigit = true) : count ≤ ds.length := by
  by_contra hlt
  obtain ⟨d, tail', rfl⟩ := List.exists_cons_of_ne_nil (l := tail) (by
    rintro rfl
    rw [List.append_nil, List.length_take] at hlength
    omega)
  have hmem : d ∈ (ds ++ d :: tail').take count := by
    rw [List.take_append, List.mem_append]
    right
    obtain ⟨k, hk⟩ := Nat.exists_eq_succ_of_ne_zero (Nat.sub_ne_zero_of_lt (not_le.mp hlt))
    rw [hk, List.take_succ_cons]
    exact List.mem_cons_self
  have hd := List.all_eq_true.mp hall d hmem
  rw [htail d rfl] at hd
  cases hd

/-- After a number of digits come more of them or what follows all. -/
theorem after?_of_readField {count low high n : ℕ} {left : List Char}
    (digit : ∀ c ∈ ds, c.isDigit = true) (htail : NoDigit tail)
    (h : readField count low high (ds ++ tail) = some (n, left)) (hc : c.isDigit = false)
    (hne : tail.head? ≠ some c) : after? c left = none := by
  unfold readField at h
  dsimp only at h
  split_ifs at h with hfield
  cases h
  rw [List.drop_append_of_le_length (length_le_of_all_digits htail hfield.1 hfield.2.1)]
  apply after?_eq_none
  cases hdrop : ds.drop count with
  | nil => exact hne
  | cons d more =>
    have hd := digit d (List.mem_of_mem_drop (hdrop ▸ List.mem_cons_self))
    rw [List.cons_append, List.head?_cons, ne_eq, Option.some.injEq]
    rintro rfl
    rw [hc] at hd
    cases hd

/-- No date and no time begins with digits that are followed by something else than its marks. -/
theorem afterDateTime?_of_digits (digit : ∀ c ∈ ds, c.isDigit = true) (htail : NoDigit tail)
    (hyphen : tail.head? ≠ some '-') (colon : tail.head? ≠ some ':') :
    afterDateTime? (ds ++ tail) = none := by
  have hdate : afterDate? (ds ++ tail) = none := by
    unfold afterDate?
    cases hfield : readField 4 0 9999 (ds ++ tail) with
    | none => rfl
    | some found =>
      obtain ⟨year, left⟩ := found
      have hafter := after?_of_readField digit htail hfield rfl hyphen
      simp only [Option.bind_eq_bind, Option.bind_some, hafter, Option.bind_none]
  have htime : afterTime? (ds ++ tail) = none := by
    unfold afterTime?
    cases hfield : readField 2 0 23 (ds ++ tail) with
    | none => rfl
    | some found =>
      obtain ⟨hour, left⟩ := found
      have hafter := after?_of_readField digit htail hfield rfl colon
      simp only [Option.bind_eq_bind, Option.bind_some, hafter, Option.bind_none]
  rw [afterDateTime?, hdate, htime]

theorem afterDateTime?_text (h : Ends rest) : afterDateTime? (s.text ++ rest) = none := by
  have hhead := head?_after_whole s h
  rw [s.text_append]
  cases s.negative with
  | true =>
    refine afterDateTime?_of_noDigit fun c hc => ?_
    obtain rfl : '-' = c := by simpa using hc
    rfl
  | false =>
    have hall : ∀ c ∈ '.' :: 'e' :: 'E' :: endings, c.isDigit = false ∧ c ≠ '-' ∧ c ≠ ':' := by
      simp [endings]
    rw [if_neg Bool.false_ne_true, List.nil_append]
    exact afterDateTime?_of_digits s.whole.digit (fun c hc => (hall c (hhead c hc)).1)
      (fun hc => (hall _ (hhead _ hc)).2.1 rfl) (fun hc => (hall _ (hhead _ hc)).2.2 rfl)

theorem readSpecial_text (rest : List Char) : readSpecial (s.text ++ rest) = none := by
  obtain ⟨d, ds, hchars⟩ := List.exists_cons_of_ne_nil s.whole.nonempty
  have hd := s.whole.digit d (hchars ▸ List.mem_cons_self)
  have hi : d ≠ 'i' := by rintro rfl; cases hd
  have hn : d ≠ 'n' := by rintro rfl; cases hd
  unfold readSpecial
  rw [s.text_append, readSign_text, hchars]
  simp only [List.cons_append]
  split
  next heq => exact absurd (List.cons.inj heq).1 hi
  next heq => exact absurd (List.cons.inj heq).1 hn
  next => rfl

/-- A zero in front of other digits would be the mark of another base. -/
theorem readNumber_text (h : Ends rest) :
    readNumber (s.text ++ rest) = (valueOf? s.literal).map fun n => (n, rest) := by
  have hdecimal := readDecimal_text s h
  have hspecial := readSpecial_text s rest
  have hmark : ∀ b ∈ ['x', 'o', 'b'], ∀ more, s.text ++ rest ≠ '0' :: b :: more := by
    intro b hb more heq
    obtain ⟨d, ds, hchars⟩ := List.exists_cons_of_ne_nil s.whole.nonempty
    have hhead := head?_after_whole s h
    have hleading := s.leading
    rw [s.text_append] at heq
    cases hneg : s.negative with
    | true =>
      rw [hneg] at heq
      exact absurd (List.cons.inj heq).1 (by decide)
    | false =>
      rw [hneg, hchars, if_neg Bool.false_ne_true, List.nil_append, List.cons_append] at heq
      rw [hchars] at hleading
      obtain ⟨rfl, htail⟩ := List.cons.inj heq
      obtain rfl := List.eq_nil_of_length_eq_zero (Nat.succ.inj (hleading rfl))
      rw [List.nil_append] at htail
      rw [htail] at hhead
      have hforeign : ∀ b ∈ ['x', 'o', 'b'], b ∉ '.' :: 'e' :: 'E' :: endings := by
        simp [endings]
      exact hforeign b hb (hhead b rfl)
  unfold readNumber
  split
  next heq => exact absurd heq (hmark 'x' (by decide) _)
  next heq => exact absurd heq (hmark 'o' (by decide) _)
  next heq => exact absurd heq (hmark 'b' (by decide) _)
  next =>
    rw [hspecial]
    simp only [hdecimal, Option.bind_eq_bind, Option.bind_some]
    cases valueOf? s.literal <;> rfl

/-- A spelled number is read as the value of its literal, if that has one. -/
theorem readScalar_text (h : Ends rest) :
    readScalar (s.text ++ rest) = (valueOf? s.literal).map fun n => (.number n, rest) := by
  have hdate := afterDateTime?_text s h
  have hnumber := readNumber_text s h
  obtain ⟨c, more, htext, hc⟩ := s.head?_text rest
  rw [htext] at hdate hnumber ⊢
  unfold readScalar
  split
  next heq =>
    cases heq
    rcases hc with hc | hc <;> cases hc
  next heq =>
    cases heq
    rcases hc with hc | hc <;> cases hc
  next =>
    rw [hdate, hnumber, Option.map_map]
    rfl

/-- A word that stands for an infinity or for what is no number. -/
theorem readScalar_of_special {x : Float} {cs : List Char} (h : NoDigit cs)
    (truth : cs.head? ≠ some 't') (falsehood : cs.head? ≠ some 'f') (zero : cs.head? ≠ some '0')
    (special : readSpecial cs = some (.real x, rest)) :
    readScalar cs = some (.number (.real x), rest) := by
  have hnumber : readNumber cs = some (.real x, rest) := by
    unfold readNumber
    split
    next => exact absurd rfl zero
    next => exact absurd rfl zero
    next => exact absurd rfl zero
    next => rw [special]
  unfold readScalar
  split
  next => exact absurd rfl truth
  next => exact absurd rfl falsehood
  next =>
    rw [afterDateTime?_of_noDigit h, hnumber]
    rfl

end Placement.Toml
