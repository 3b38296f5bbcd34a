import Mathlib
import Placement.Proofs.Decimal.Exact
import Placement.Proofs.Document.Schema
import Placement.Proofs.Json.Tree
import Placement.Proofs.Toml.Tree
import Placement.Scenario

/-!
# One scenario in two formats

A scenario that is written as JSON and as TOML, with the same numbers, is the same scenario: names,
missing fields, the order of members and the headers that a TOML text uses make no difference. Only
two things do. A decimal number may be read as two neighbouring doubles, and TOML passes over
surplus values in a list that stands for a record.
-/
namespace Placement
open Decimal Document

section
variable {l : Literal}

/-- A number that both formats have: if it is whole, it fits 64 bits and is no negative zero. -/
def Writable (l : Literal) : Prop :=
  l.isWhole = true →
    if l.negative then 0 < ofDigits l.whole ∧ ofDigits l.whole ≤ 2 ^ 63
    else ofDigits l.whole < 2 ^ 63

/-- A decimal number that has one value in both formats, or none in both of them. -/
def Alike (l : Literal) : Prop := l.isWhole = false → Json.number l = Toml.number l

theorem number_of_whole (whole : l.isWhole = true) (h : Writable l) :
    Json.number l = Toml.number l := by
  have hbound := h whole
  have hfraction : l.fraction = none := by
    rw [Literal.isWhole, Bool.and_eq_true] at whole
    exact Option.isNone_iff_eq_none.mp whole.1
  have hdigits : ofDigits (l.whole ++ l.fractionDigits) = ofDigits l.whole := by
    rw [Literal.fractionDigits, hfraction, Option.getD_none, List.append_nil]
  have hsize : ofDigits l.whole < UInt64.size := by
    change _ < 2 ^ 64
    split_ifs at hbound <;> omega
  have hcollect : l.collect = _ := Literal.collect_of_lt (by rwa [hdigits])
  rw [hdigits] at hcollect
  unfold Json.number Toml.number Toml.valueOf?
  rw [hcollect]
  cases hnegative : l.negative with
  | false =>
    rw [hnegative, if_neg Bool.false_ne_true] at hbound
    have hint : Toml.isInt64 (ofDigits l.whole) = true := by
      simp only [Toml.isInt64, Bool.and_eq_true, decide_eq_true_eq]
      omega
    simp [whole, hint]
  | true =>
    rw [hnegative, if_pos rfl] at hbound
    have hint : Toml.isInt64 (-(ofDigits l.whole : ℤ)) = true := by
      simp only [Toml.isInt64, Bool.and_eq_true, decide_eq_true_eq]
      omega
    have hsmall : ¬ (ofDigits l.whole = 0 ∨ 0x8000000000000000 < ofDigits l.whole) := by omega
    simp [whole, hint, hsmall]

theorem number_eq (writable : Writable l) (alike : Alike l) : Json.number l = Toml.number l := by
  cases whole : l.isWhole with
  | true => exact number_of_whole whole writable
  | false => exact alike whole

/-- Few digits and small exponents are read to the nearest double in both formats. -/
theorem alike_of_exact (h : l.Exact) : Alike l := by
  intro whole
  obtain ⟨hscaled, hfinite⟩ := h.scaled_eq
  unfold Json.number Toml.number Toml.valueOf?
  simp [whole, hscaled, Double.ne_infinity hfinite]

end

open List in
theorem Footprint.strict_ofDocument : Strict 1 (Footprint.ofDocument .json) :=
  strict_readRecord (forall_mem_cons.mpr ⟨strict_field (strict_readFloat 0),
    forall_mem_cons.mpr ⟨strict_field (strict_readUInt64 0), nofun⟩⟩) _ _

open List in
theorem Node.strict_ofDocument : Strict 1 (Node.ofDocument .json) :=
  strict_readRecord (forall_mem_cons.mpr ⟨strict_field (strict_readText 0),
    forall_mem_cons.mpr ⟨strict_field (strict_readUInt32 0),
    forall_mem_cons.mpr ⟨strict_field (strict_readUInt64 0), nofun⟩⟩⟩) _ _

open List in
theorem Weights.strict_ofDocument : Strict 1 (Weights.ofDocument .json) :=
  strict_readRecord (forall_mem_cons.mpr ⟨strict_field (strict_readFloat 0),
    forall_mem_cons.mpr ⟨strict_field (strict_readFloat 0),
    forall_mem_cons.mpr ⟨strict_field (strict_readFloat 0),
    forall_mem_cons.mpr ⟨strict_field (strict_readFloat 0), nofun⟩⟩⟩⟩) _ _

open List in
theorem Record.strict_ofDocument : Strict 2 (Record.ofDocument .json) :=
  strict_readRecord (forall_mem_cons.mpr ⟨strict_field (strict_readText 1),
    forall_mem_cons.mpr ⟨strict_field (strict_readText 1),
    forall_mem_cons.mpr ⟨strict_field Footprint.strict_ofDocument, nofun⟩⟩⟩) _ _

/-- No list that stands for a footprint has surplus values. -/
def Footprint.Fits : Document → Prop :=
  Document.Fits (Footprint.fields.map FieldReader.name) fun _ _ => True

@[inherit_doc Footprint.Fits]
def Node.Fits : Document → Prop :=
  Document.Fits (Node.fields.map FieldReader.name) fun _ _ => True

@[inherit_doc Footprint.Fits]
def Weights.Fits : Document → Prop :=
  Document.Fits (Weights.fields.map FieldReader.name) fun _ _ => True

/-- No list that stands for a record or its footprint has surplus values. -/
def Record.Fits : Document → Prop :=
  Document.Fits ((Record.fields .json).map FieldReader.name) fun name d =>
    name = "footprint" → Footprint.Fits d

theorem agrees_self (part : String → Document → Prop) {σ : Type} (fields : List (FieldReader σ)) :
    List.Forall₂ (FieldReader.Agrees part) fields fields :=
  List.forall₂_same.mpr fun _ _ => ⟨rfl, fun _ _ _ => rfl⟩

theorem agrees_field {α σ : Type} {part : String → Document → Prop} {name : String}
    {r q : Reader α} {put : σ → α → σ} (h : ∀ d, part name d → r d = q d) :
    (field name r put).Agrees part (field name q put) :=
  ⟨rfl, fun draft d hd => congrArg (Except.map (put draft)) (h d hd)⟩

theorem Footprint.ofDocument_agrees {d : Document} (h : Footprint.Fits d) :
    Footprint.ofDocument .json d = Footprint.ofDocument .toml d :=
  readRecord_agrees (agrees_self _ _) _ _ h

example (format : Format) :
    (Footprint.ofDocument format
      (.list (List.replicate 3 (.number (.int 1))) true)).toOption.isSome =
      format.allowsSurplus := by
  cases format <;> decide +kernel

theorem Node.ofDocument_agrees {d : Document} (h : Node.Fits d) :
    Node.ofDocument .json d = Node.ofDocument .toml d :=
  readRecord_agrees (agrees_self _ _) _ _ h

theorem Weights.ofDocument_agrees {d : Document} (h : Weights.Fits d) :
    Weights.ofDocument .json d = Weights.ofDocument .toml d :=
  readRecord_agrees (agrees_self _ _) _ _ h

theorem Record.ofDocument_agrees {d : Document} (h : Record.Fits d) :
    Record.ofDocument .json d = Record.ofDocument .toml d :=
  readRecord_agrees (.cons (agrees_field fun _ _ => rfl) (.cons (agrees_field fun _ _ => rfl)
    (.cons (agrees_field fun _ hd => Footprint.ofDocument_agrees (hd rfl)) .nil))) _ _ h

namespace Scenario

open List in
theorem strict_ofDocument : Strict 4 (Scenario.ofDocument .json) :=
  strict_readRecord (forall_mem_cons.mpr
    ⟨strict_field fun d a h => sound_mono (by norm_num) (Weights.strict_ofDocument d a h),
    forall_mem_cons.mpr ⟨strict_field fun d a h => sound_mono (n := 2) (by norm_num)
      (strict_readList Node.strict_ofDocument d a h),
    forall_mem_cons.mpr ⟨strict_field (strict_readList Record.strict_ofDocument),
    forall_mem_cons.mpr ⟨strict_field fun d a h => sound_mono (by norm_num)
      (Footprint.strict_ofDocument d a h), nofun⟩⟩⟩⟩) _ _

/-- No list that stands for a record anywhere in a scenario has surplus values. -/
def Fits : Document → Prop :=
  Document.Fits ((fields .json).map FieldReader.name) fun name d =>
    (name = "scoring" → Weights.Fits d) ∧ (name = "nodes" → Each Node.Fits d) ∧
      (name = "services" → Each Record.Fits d) ∧ (name = "candidate" → Footprint.Fits d)

theorem ofDocument_agrees {d : Document} (h : Fits d) :
    Scenario.ofDocument .json d = Scenario.ofDocument .toml d := by
  refine readRecord_agrees (.cons (agrees_field fun _ hd => ?_) (.cons (agrees_field fun _ hd => ?_)
    (.cons (agrees_field fun _ hd => ?_) (.cons (agrees_field fun _ hd => ?_) .nil)))) _ _ h
  · exact Weights.ofDocument_agrees (hd.1 rfl)
  · exact readList_agrees (fun _ => Node.ofDocument_agrees) (hd.2.1 rfl)
  · exact readList_agrees (fun _ => Record.ofDocument_agrees) (hd.2.2.1 rfl)
  · exact Footprint.ofDocument_agrees (hd.2.2.2 rfl)

theorem commute_fields (format : Format) : (fields format).Pairwise FieldReader.Commute := by
  simp [fields, commute_field]

theorem ofDocument_perm {format : Format} {ms ns : List (String × Document)} (perm : ms.Perm ns)
    (distinct : (ms.map Prod.fst).Nodup) :
    (Scenario.ofDocument format (.record ms true)).toOption =
      (Scenario.ofDocument format (.record ns true)).toOption :=
  readRecord_perm perm (commute_of_pairwise (commute_fields format)) distinct _ _

section
variable {ms : List (String × RawTree)} {s : Toml.Sheet RawTree} {p q : String}

/-- The JSON file of a record. -/
def jsonFile (ms : List (String × RawTree)) : ByteArray :=
  (String.ofList ((RawTree.record ms).write Json.style)).toUTF8

/-- The TOML file of a record that is laid out on a sheet. -/
def tomlFile (s : Toml.Sheet RawTree) : ByteArray :=
  (String.ofList (s.write (RawTree.write Toml.style))).toUTF8

theorem fileText_toUTF8 (text : String) : fileText (some text.toUTF8) = .ok text := by
  have hread : String.fromUTF8? text.toUTF8 = some text := dif_pos text.isValidUTF8
  rw [fileText]
  simp only [hread]

theorem toOption_mapError {α ε ε' : Type} (x : Except ε α) (f : ε → ε') :
    (x.mapError f).toOption = x.toOption := by
  cases x <;> rfl

theorem toOption_ofFile (p text : String) :
    (ofFile p (some text.toUTF8)).toOption = (ofText (formatOf p) text).toOption := by
  rw [ofFile, fileText_toUTF8]
  exact toOption_mapError _ _

theorem toOption_jsonFile {P : Spelling → Prop} (plain : (RawTree.record ms).Plain P)
    (hp : fileExtension? p = some "json") :
    (ofFile p (some (jsonFile ms))).toOption =
      (Scenario.ofDocument .json ((RawTree.record ms).document Json.number)).toOption := by
  have hformat : formatOf p = .json := if_pos hp
  rw [jsonFile, toOption_ofFile, hformat]
  exact congrArg Except.toOption (Json.decode_write plain _)

theorem toOption_tomlFile (hq : fileExtension? q ≠ some "json") :
    (ofFile q (some (tomlFile s))).toOption =
      (Toml.read (String.ofList (s.write (RawTree.write Toml.style)))).bind
        fun d => (Scenario.ofDocument .toml d).toOption := by
  have hformat : formatOf q = .toml := if_neg hq
  rw [tomlFile, toOption_ofFile, hformat]
  change (Toml.decode _ _).toOption = _
  unfold Toml.decode
  cases Toml.read (String.ofList (s.write (RawTree.write Toml.style))) <;> rfl

/-- A record that can be written in both formats, and how it is laid out in TOML: any of its members
may come first, in any order, and the others then follow under headers of their own. -/
structure Rendering (ms : List (String × RawTree)) (s : Toml.Sheet RawTree) : Prop where
  layout : s.tree.Perm ms
  plain : (RawTree.record ms).Plain fun n => Writable n.literal

/-- What one would like: both files fail, or both hold the same scenario. -/
def FormatsAgree : Prop :=
  ∀ (ms : List (String × RawTree)) (s : Toml.Sheet RawTree), Rendering ms s →
    ∀ p q, fileExtension? p = some "json" → fileExtension? q ≠ some "json" →
      (ofFile p (some (jsonFile ms))).toOption = (ofFile q (some (tomlFile s))).toOption

theorem toOption_ofDocument_record (value : Literal → Document) {ns : List (String × RawTree)}
    (perm : ns.Perm ms) (distinct : (ns.map Prod.fst).Nodup) (format : Format) :
    (Scenario.ofDocument format ((RawTree.record ns).document value)).toOption =
      (Scenario.ofDocument format ((RawTree.record ms).document value)).toOption := by
  rw [RawTree.document, RawTree.document, RawTree.documentMembers_eq, RawTree.documentMembers_eq]
  refine ofDocument_perm (perm.map _) ?_
  rwa [List.map_map]

theorem fits_of_perm {value : Literal → Document} {ns : List (String × RawTree)}
    (perm : ns.Perm ms) (fits : Fits ((RawTree.record ms).document value)) :
    Fits ((RawTree.record ns).document value) := by
  rw [RawTree.document, RawTree.documentMembers_eq] at fits ⊢
  exact fun m hm => fits m ((perm.map _).mem_iff.mp hm)

/-- The parts of a sound tree are sound. -/
theorem sound_values {value : Literal → Document} {n : ℕ}
    (h : sound n ((RawTree.record s.tree).document value) = true) :
    ∀ t ∈ s.values, sound n (t.document value) = true := by
  refine Toml.Sheet.forall_values (Q := fun t => sound n (t.document value) = true)
    (fun ts hts t ht => ?_) (fun ms hms m hm => ?_) h
  · rw [RawTree.document, RawTree.documentItems_eq] at hts
    cases n with
    | zero => cases hts
    | succ n =>
      exact sound_mono (Nat.le_succ n) (List.all_eq_true.mp hts _ (List.mem_map_of_mem ht))
  · rw [RawTree.document, RawTree.documentMembers_eq] at hms
    cases n with
    | zero => cases hms
    | succ n =>
      exact sound_mono (Nat.le_succ n) (List.all_eq_true.mp hms _
        (List.mem_map_of_mem (f := fun m => (m.1, m.2.document value)) hm))

/-- The digits that a text consists of. -/
def digits (text : String) (h : text.toList ≠ [] ∧ text.toList.all Char.isDigit = true) : Digits :=
  ⟨text.toList, h.1, List.all_eq_true.mp h.2⟩

def onePoint (part : Digits) : Spelling :=
  ⟨false, digits "1" (by decide +kernel), fun _ => rfl, some part, none⟩

def million : Spelling :=
  ⟨false, digits "1000000" (by decide +kernel), by decide +kernel, none, none⟩

/-- A candidate with one megabyte of memory and a request of one and a part. -/
def requested (part : Digits) : List (String × RawTree) :=
  [("cpu", .number (onePoint part)), ("memory", .number million)]

theorem plain_requested {P : Spelling → Prop} {part : Digits} (cpu : P (onePoint part))
    (memory : P million) : (RawTree.record (requested part)).Plain P :=
  .record (by simp [requested]) (List.forall_mem_cons.mpr ⟨.number cpu,
    List.forall_mem_singleton.mpr (.number memory)⟩)

theorem writable_requested (part : Digits) :
    (RawTree.record (requested part)).Plain fun n => Writable n.literal :=
  plain_requested nofun fun _ => by decide +kernel

/-- A scenario without nodes whose candidate requests 17 digits. -/
def crooked : List (String × RawTree) :=
  [("candidate", .record (requested (digits "4000000000000001" (by decide +kernel))))]

/-- A significand of 17 digits is rounded in JSON before it is scaled, and so the request comes out
as a neighbour of the one that TOML gives. -/
theorem formats_may_differ : ¬ FormatsAgree := by
  intro agree
  have hplain : (RawTree.record crooked).Plain fun n => Writable n.literal :=
    .record (by decide) (List.forall_mem_singleton.mpr (writable_requested _))
  have hsheet : (⟨crooked, []⟩ : Toml.Sheet RawTree).tree = crooked := List.append_nil _
  have hsame := agree crooked ⟨crooked, []⟩ ⟨hsheet ▸ .refl _, hplain⟩ "scenario.json"
    "scenario.toml" (by decide +kernel) (by decide +kernel)
  rw [toOption_jsonFile hplain (by decide +kernel), toOption_tomlFile (by decide +kernel),
    Toml.read_sheet (hsheet ▸ hplain) (by decide +kernel), Option.bind_some, hsheet] at hsame
  have hjson : ((Scenario.ofDocument .json
      ((RawTree.record crooked).document Json.number)).toOption.map
        fun x => x.candidate.cpu.toBits) = some 0x3ff6666666666666 := by decide +kernel
  have htoml : ((Scenario.ofDocument .toml
      ((RawTree.record crooked).document Toml.number)).toOption.map
        fun x => x.candidate.cpu.toBits) = some 0x3ff6666666666667 := by decide +kernel
  rw [hsame, htoml] at hjson
  exact absurd hjson (by decide)

/-- A scenario whose lists have no surplus values is the same scenario in both formats, or none in
both, if each decimal number has few digits and a small exponent or is read alike anyway. -/
theorem formats_agree_on_numbers_read_alike (ms : List (String × RawTree)) (s : Toml.Sheet RawTree)
    (rendering : Rendering ms s)
    (numbers : (RawTree.record ms).Plain fun n => n.literal.Exact ∨ Alike n.literal)
    (fits : Fits ((RawTree.record ms).document Json.number)) (p q : String)
    (hp : fileExtension? p = some "json") (hq : fileExtension? q ≠ some "json") :
    (ofFile p (some (jsonFile ms))).toOption = (ofFile q (some (tomlFile s))).toOption := by
  have alike : (RawTree.record ms).Plain fun n => Alike n.literal :=
    numbers.imp fun _ h => h.elim alike_of_exact id
  have hnumbers : (RawTree.record s.tree).Plain fun n =>
      Json.number n.literal = Toml.number n.literal :=
    ((rendering.plain.and alike).imp fun _ h => number_eq h.1 h.2).perm rendering.layout.symm
  have hdocument := RawTree.document_congr hnumbers
  have hdistinct : (s.tree.map Prod.fst).Nodup := by
    cases hnumbers with
    | record distinct _ => exact distinct
  rw [toOption_jsonFile rendering.plain hp, toOption_tomlFile hq,
    ← toOption_ofDocument_record Json.number rendering.layout hdistinct, hdocument]
  by_cases hvalues : ∀ t ∈ s.values, sound Toml.deepest (t.document Toml.number) = true
  · have hfits := fits_of_perm rendering.layout fits
    rw [hdocument] at hfits
    rw [Toml.read_sheet hnumbers hvalues, Option.bind_some, ofDocument_agrees hfits]
  · obtain ⟨t, ht, hunsound⟩ : ∃ t ∈ s.values,
        sound Toml.deepest (t.document Toml.number) = false := by simpa using hvalues
    rw [Toml.read_sheet_eq_none hnumbers ht hunsound]
    cases hread : Scenario.ofDocument .json ((RawTree.record s.tree).document Toml.number) with
    | error fault => rfl
    | ok scenario =>
      have hsound := sound_values (strict_ofDocument _ _ hread) t ht
      rw [sound_mono (by decide) hsound] at hunsound
      cases hunsound

/-- A scenario whose candidate requests one and a half. -/
def halved : List (String × RawTree) :=
  [("candidate", .record (requested (digits "5" (by decide +kernel)))), ("nodes", .list [])]

/-- The candidate under a header of its own, so after the other members. -/
def halvedSheet : Toml.Sheet RawTree :=
  ⟨[("nodes", .list [])], [("candidate", .table (requested (digits "5" (by decide +kernel))))]⟩

theorem plain_halved {P : Spelling → Prop}
    (h : (RawTree.record (requested (digits "5" (by decide +kernel)))).Plain P) :
    (RawTree.record halved).Plain P :=
  .record (by decide) (List.forall_mem_cons.mpr ⟨h, List.forall_mem_singleton.mpr (.list nofun)⟩)

theorem formats_agree_on_halves :
    ∃ x, (ofFile "a.json" (some (jsonFile halved))).toOption = some x ∧
      (ofFile "a.toml" (some (tomlFile halvedSheet))).toOption = some x ∧
      x.candidate.cpu = 1.5 := by
  have hplain := plain_halved (writable_requested _)
  have hnumbers : (RawTree.record halved).Plain fun n => n.literal.Exact ∨ Alike n.literal :=
    plain_halved (plain_requested (.inl ⟨by decide +kernel, by decide +kernel⟩)
      (.inr fun h => absurd h (by decide)))
  have hfits : Fits ((RawTree.record halved).document Json.number) := by
    have hne {a b : String} {P : Prop} (h : a ≠ b) : a = b → P := fun heq => absurd heq h
    refine List.forall_mem_cons.mpr ⟨?_, List.forall_mem_singleton.mpr ?_⟩
    · exact ⟨hne (by decide), hne (by decide), hne (by decide), fun _ _ _ => trivial⟩
    · exact ⟨hne (by decide), fun _ => nofun, hne (by decide), hne (by decide)⟩
  have hsame := formats_agree_on_numbers_read_alike halved halvedSheet ⟨.swap _ _ _, hplain⟩
    hnumbers hfits "a.json" "a.toml" (by decide +kernel) (by decide +kernel)
  have hjson : ((Scenario.ofDocument .json
      ((RawTree.record halved).document Json.number)).toOption.map
        fun x => x.candidate.cpu) = some 1.5 := by decide +kernel
  obtain ⟨x, hx, hcpu⟩ := Option.map_eq_some_iff.mp hjson
  rw [← toOption_jsonFile hplain (p := "a.json") (by decide +kernel)] at hx
  exact ⟨x, hx, hsame ▸ hx, hcpu⟩

end

end Scenario

end Placement
