import Mathlib
import Placement.Config
import Placement.Proofs.Decimal.Written
import Placement.Proofs.Toml.Sheet
import Placement.Proofs.Toml.Values

/-!
# Configurations written and read back

Every weight is written as a value of its own: a finite one with the digits that are read to the
nearest double as itself, an infinite one and one that is no number as a word. The four weights
stand under one heading, each under its own name. So every configuration is read back from its text.
-/
namespace Placement.Config
open Decimal Document Double Toml
open Float.Model (UnpackedFloat)
open Float.Model.UnpackedFloat

variable {x : Float} {depth : ℕ}

theorem plain_doubles : doubles.Plain := ⟨fun _ => rfl, rfl⟩

/-- A literal that a weight is written as, if it is read as that weight and is not infinite. -/
theorem spells_literal {negative : Bool} {m : ℕ} {q : ℤ} (canonical : Canonical m q)
    (hx : Dyadic.ofFloat x = .finite negative m q) (finite : (x == 1.0 / 0.0) = false)
    (nearest : (plainLiteral doubles.tie negative m q).nearest = x) :
    Spells depth (doubles.write x) (some (.number (.real x))) := by
  have hwrite : doubles.write x = (plainLiteral doubles.tie negative m q).written := by
    rw [Layout.write, hx, dyadic_of_plain plain_doubles]
  have hregular := regular_plainLiteral doubles.tie negative canonical
  obtain ⟨hwhole, hexponent⟩ := isWhole_plainLiteral doubles.tie negative m q
  rw [hwrite]
  generalize plainLiteral doubles.tie negative m q = l at *
  have hspells := spells_number depth (Spelling.ofLiteral l hregular)
  have hvalue : valueOf? l = some (.real x) := by
    simp [valueOf?, hwhole, nearest, finite]
  rwa [Spelling.text_ofLiteral hregular hexponent, Spelling.literal_ofLiteral hregular hexponent,
    hvalue] at hspells

/-- A word that stands for a value without digits. -/
theorem spells_word {c : Char} {cs : List Char} (hc : c ∈ ['i', 'n', '-'])
    (special : ∀ rest, readSpecial (c :: cs ++ rest) = some (.real x, rest)) :
    Spells depth (c :: cs) (some (.number (.real x))) := by
  have hne : c ∉ foreign ∧ c ∉ openings ∧ c.isDigit = false ∧ c ≠ 't' ∧ c ≠ 'f' ∧ c ≠ '0' := by
    simp only [List.mem_cons, List.not_mem_nil, or_false] at hc
    rcases hc with rfl | rfl | rfl <;> decide
  obtain ⟨hforeign, hopening, hdigit, htruth, hfalsehood, hzero⟩ := hne
  refine ⟨⟨c, cs, rfl, hforeign⟩, fun rest _ => ?_⟩
  have hscalar := special rest
  rw [List.cons_append] at hscalar ⊢
  rw [value_scalar hopening, readScalar_of_special (fun d hd => by cases hd; exact hdigit)
    (by simpa using htruth) (by simpa using hfalsehood) (by simpa using hzero) hscalar]
  rfl

theorem unpack_signed_infinity (s : Sign) :
    (Literal.signed (Literal.isMinus s) (1.0 / 0.0)).toModel.unpack = .infinity s := by
  cases s <;> rfl

theorem unpack_signed_zero (s : Sign) :
    (Literal.signed (Literal.isMinus s) 0.0).toModel.unpack = .zero s := by
  cases s <;> rfl

/-- Every weight is written as a value that is read as that weight. -/
theorem spells_weight (x : Float) (depth : ℕ) :
    Spells depth (doubles.write x) (some (.number (.real x))) := by
  have hfloat := ofFloat_eq x
  cases hx : x.toModel.unpack with
  | notANumber =>
    obtain rfl : 0.0 / 0.0 = x := congrArg Float.ofModel (unpack_injective hx.symm)
    exact spells_word (c := 'n') (by decide) fun _ => rfl
  | infinity s =>
    obtain rfl : _ = x :=
      congrArg Float.ofModel (unpack_injective ((unpack_signed_infinity s).trans hx.symm))
    cases s
    · exact spells_word (c := '-') (by decide) fun _ => rfl
    · exact spells_word (c := 'i') (by decide) fun _ => rfl
  | zero s =>
    rw [hx] at hfloat
    have hzero : x = Literal.signed (Literal.isMinus s) 0.0 :=
      congrArg Float.ofModel (unpack_injective (hx.trans (unpack_signed_zero s).symm))
    refine spells_literal ⟨by norm_num, le_rfl, .inr rfl⟩ hfloat
      (ne_infinity (isFinite_of_proper (by rw [hx]; trivial))) ?_
    rw [Literal.nearest_of_zero rfl, hzero]
    rfl
  | finite s m q hm =>
    rw [hx] at hfloat
    exact spells_literal (canonical_unpack hx).1 hfloat
      (ne_infinity (isFinite_of_proper (by rw [hx]; exact canonical_unpack hx)))
      (nearest_plainLiteral _ hx)

/-- The one table of a configuration and its four weights. -/
def sheet (c : Config) : Sheet Float :=
  ⟨[], [("scoring", .table [("average_cpu", c.scoring.averageCpu),
    ("highest_cpu", c.scoring.highestCpu), ("average_memory", c.scoring.averageMemory),
    ("highest_memory", c.scoring.highestMemory)])]⟩

theorem write_setting {name : String} (h : Key.write name = name.toList) (x : Float) :
    (Row.assign name x).write doubles.write = setting name x := by
  rw [Row.write, Row.content, Toml.setting, h, setting]

theorem write_heading : (Row.table "scoring").write doubles.write = "[scoring]\n".toList := by
  have h : Key.write "scoring" = "scoring".toList := by decide +kernel
  rw [Row.write, Row.content, h]
  rfl

theorem toToml_eq (c : Config) : c.toToml = String.ofList ((sheet c).write doubles.write) := by
  have hrows : (sheet c).rows = [.table "scoring",
      .assign "average_cpu" c.scoring.averageCpu, .assign "highest_cpu" c.scoring.highestCpu,
      .assign "average_memory" c.scoring.averageMemory,
      .assign "highest_memory" c.scoring.highestMemory] := rfl
  rw [Sheet.write, hrows]
  simp only [List.flatMap_cons, List.flatMap_nil, List.append_nil]
  rw [write_heading, write_setting (by decide +kernel), write_setting (by decide +kernel),
    write_setting (by decide +kernel), write_setting (by decide +kernel)]
  unfold toToml
  simp only [List.append_assoc]

theorem distinct_sheet (c : Config) : (sheet c).Distinct where
  root := by simp [sheet]
  sections := by simp [sheet, Section.Distinct]

theorem ofDocument_sheet (c : Config) :
    ofDocument .toml (.record ((sheet c).members fun x => .number (.real x)) true) = .ok c := by
  simp only [ofDocument, fields, readRecord, closing, field, Weights.ofDocument, Weights.fields,
    readFloat, sheet, Sheet.members, Section.document, documents]
  rfl

/-- Every configuration is read back from its text as it was, whatever its weights are. -/
theorem ofToml_toToml (c : Config) : ofToml c.toToml = .ok c := by
  have hread : read c.toToml = some (.record
      ((sheet c).members fun x => .number (.real x)) true) := by
    rw [toToml_eq]
    exact read_write _ _ c.distinct_sheet fun x _ => spells_weight x deepest
  rw [ofToml, decode, hread]
  exact c.ofDocument_sheet

end Placement.Config
