import Mathlib
import Placement.Proofs.Json.Number

/-!
# What trees denote

A tree denotes a value if it has the shape that is laid down for values of that type. A record is
written by name, each name once and none that is unknown, or as a list of values in the order of the
fields, of which the last ones may be missing; what it denotes depends only on the values that its
fields have then. Readers of documents take exactly the trees that denote something, and what they
give is what the tree denotes.
-/
namespace Placement.Json
open Decimal Document

variable {α σ : Type} {t : Tree} {names : List String} {v w : String → Option Tree}

namespace Tree

def DenotesText (t : Tree) (s : String) : Prop := t = .text s

/-- A number without sign, point and exponent. -/
def DenotesWhole (t : Tree) (n : ℕ) : Prop :=
  ∃ l, t = .number l ∧ l.isWhole = true ∧ l.negative = false ∧ ofDigits l.whole = n

/-- A whole number that fits 32 bits. -/
def DenotesUInt32 (t : Tree) (n : UInt32) : Prop := t.DenotesWhole n.toNat

/-- A whole number that fits 64 bits. -/
def DenotesUInt64 (t : Tree) (n : UInt64) : Prop := t.DenotesWhole n.toNat

/-- A number whose double is finite. -/
def DenotesDouble (t : Tree) (x : Float) : Prop :=
  ∃ l, t = .number l ∧ double l = x ∧ x.isFinite = true

/-- A list whose items denote the values one by one. -/
def DenotesList (R : Tree → α → Prop) (t : Tree) (as : List α) : Prop :=
  ∃ ts, t = .list ts ∧ List.Forall₂ R ts as

theorem document_eq_number {x : Number} (h : t.document = .number x) :
    ∃ l, t = .number l ∧ Json.number l = .number x := by
  cases t with
  | number l => exact ⟨l, rfl, h⟩
  | _ => cases h

end Tree

/-- A reader takes the trees that denote something, for what they denote. -/
def Takes (r : Reader α) (R : Tree → α → Prop) : Prop := ∀ t a, r t.document = .ok a ↔ R t a

theorem takes_text : Takes readText Tree.DenotesText := by
  intro t s
  constructor
  · intro h
    cases t with
    | text s' =>
      cases h
      rfl
    | number l =>
      have hread : readText (number l) = .ok s := h
      rcases number_eq_other_or l with hnumber | ⟨x, hnumber⟩ <;> rw [hnumber] at hread <;>
        cases hread
    | _ => cases h
  · rintro rfl
    rfl

theorem readBelow_document {n limit : ℕ} (h : n < limit) (hlimit : limit ≤ UInt64.size) :
    readBelow limit t.document = .ok n ↔ t.DenotesWhole n := by
  rw [readBelow_eq_ok]
  constructor
  · rintro ⟨hdocument, -⟩
    obtain ⟨l, rfl, hnumber⟩ := Tree.document_eq_number hdocument
    obtain ⟨whole, negative, hdigits, -⟩ := number_eq_natural.mp hnumber
    exact ⟨l, rfl, whole, negative, hdigits⟩
  · rintro ⟨l, rfl, whole, negative, hdigits⟩
    exact ⟨number_eq_natural.mpr ⟨whole, negative, hdigits, h.trans_le hlimit⟩, h⟩

theorem takes_uint32 : Takes readUInt32 Tree.DenotesUInt32 := by
  intro t n
  rw [Tree.DenotesUInt32, ← readBelow_document n.toNat_lt (by decide)]
  constructor
  · intro h
    obtain ⟨k, hk, rfl⟩ := map_eq_ok h
    rwa [UInt32.toNat_ofNat_of_lt' (readBelow_eq_ok.mp hk).2]
  · intro h
    rw [readUInt32, h]
    exact congrArg Except.ok UInt32.ofNat_toNat

theorem takes_uint64 : Takes readUInt64 Tree.DenotesUInt64 := by
  intro t n
  rw [Tree.DenotesUInt64, ← readBelow_document n.toNat_lt le_rfl]
  constructor
  · intro h
    obtain ⟨k, hk, rfl⟩ := map_eq_ok h
    rwa [UInt64.toNat_ofNat_of_lt' (readBelow_eq_ok.mp hk).2]
  · intro h
    rw [readUInt64, h]
    exact congrArg Except.ok UInt64.ofNat_toNat

theorem takes_float : Takes readFloat Tree.DenotesDouble := by
  intro t x
  constructor
  · intro h
    obtain ⟨y, hy⟩ : ∃ y, t.document = .number y := by
      cases hd : t.document with
      | number y => exact ⟨y, rfl⟩
      | _ => rw [hd] at h; cases h
    obtain ⟨l, rfl, -⟩ := Tree.document_eq_number hy
    exact ⟨l, rfl, readFloat_number.mp h⟩
  · rintro ⟨l, rfl, hdouble⟩
    exact readFloat_number.mpr hdouble

theorem readItems_eq_ok {r : Reader α} {R : Tree → α → Prop} (h : Takes r R) {ts : List Tree}
    {as : List α} : readItems r (ts.map Tree.document) = .ok as ↔ List.Forall₂ R ts as := by
  induction ts generalizing as with
  | nil =>
    rw [List.map_nil, readItems, List.forall₂_nil_left_iff, Except.ok.injEq, eq_comm]
  | cons t ts ih =>
    rw [List.map_cons, readItems]
    constructor
    · intro hread
      cases hfirst : r t.document with
      | error fault => rw [hfirst] at hread; cases hread
      | ok a =>
        rw [hfirst] at hread
        obtain ⟨bs, hbs, rfl⟩ := map_eq_ok hread
        exact .cons ((h t a).mp hfirst) (ih.mp hbs)
    · intro hall
      cases hall with
      | cons hfirst hrest =>
        simp only [(h _ _).mpr hfirst, ih.mpr hrest]
        rfl

theorem takes_list {r : Reader α} {R : Tree → α → Prop} (h : Takes r R) :
    Takes (readList r) (Tree.DenotesList R) := by
  intro t as
  constructor
  · intro hread
    cases t with
    | list ts =>
      rw [Tree.document_list] at hread
      exact ⟨ts, rfl, (readItems_eq_ok h).mp (closing_eq_ok hread)⟩
    | number l =>
      have hnumber : readList r (number l) = .ok as := hread
      rcases number_eq_other_or l with hl | ⟨x, hl⟩ <;> rw [hl] at hnumber <;> cases hnumber
    | _ => cases hread
  · rintro ⟨ts, rfl, hts⟩
    rw [Tree.document_list, readList, (readItems_eq_ok h).mpr hts]
    rfl

end Placement.Json
