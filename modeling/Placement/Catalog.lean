/-!
# Catalogues

A catalogue holds things that have a name of their own, at most one for each name, in ascending
order of names. Names are compared character by character, by code point. Looking up a name is the
view of a catalogue: each operation says what it does to look-ups, and two catalogues with equal
look-ups are equal.
-/

namespace Placement

/-- Things with a name that tells them apart. -/
class Keyed (α : Type) where
  key : α → String

export Keyed (key)

/-- Things in strictly ascending order of their names. -/
structure Catalog (α : Type) [Keyed α] where
  toList : List α
  ascending : toList.Pairwise (fun a b => key a < key b)

namespace Catalog

variable {α : Type} [Keyed α]

def empty : Catalog α := ⟨[], .nil⟩

instance : Inhabited (Catalog α) := ⟨empty⟩

def get? (c : Catalog α) (k : String) : Option α := c.toList.find? (key · == k)

def contains (c : Catalog α) (k : String) : Bool := (c.get? k).isSome

def keys (c : Catalog α) : List String := c.toList.map key

def size (c : Catalog α) : Nat := c.toList.length

def isEmpty (c : Catalog α) : Bool := c.toList.isEmpty

/-- Puts a thing where its name belongs, in place of one of the same name. -/
def place (a : α) : List α → List α
  | [] => [a]
  | b :: rest =>
    if key a < key b then a :: b :: rest
    else if key a = key b then a :: rest
    else b :: place a rest

theorem mem_place {a x : α} {l : List α} (h : x ∈ place a l) : x = a ∨ x ∈ l := by
  induction l with
  | nil => simpa [place] using h
  | cons b rest ih => grind [place]

theorem ascending_place (a : α) {l : List α} (h : l.Pairwise (fun x y => key x < key y)) :
    (place a l).Pairwise (fun x y => key x < key y) := by
  induction l with
  | nil => simp [place]
  | cons b rest ih =>
    have ⟨head, tail⟩ := List.pairwise_cons.1 h
    rw [place]
    split
    case isTrue before =>
      refine List.pairwise_cons.2 ⟨fun x hx => ?_, h⟩
      rcases List.mem_cons.1 hx with rfl | hx
      · exact before
      · exact String.lt_trans before (head x hx)
    case isFalse notBefore =>
      split
      case isTrue same => exact List.pairwise_cons.2 ⟨fun x hx => same ▸ head x hx, tail⟩
      case isFalse other =>
        refine List.pairwise_cons.2 ⟨fun x hx => ?_, ih tail⟩
        rcases mem_place hx with rfl | hx
        · exact Std.lt_of_le_of_ne (String.not_lt.1 notBefore) (fun e => other e.symm)
        · exact head x hx

/-- The catalogue with `a` in it, in place of what had its name. -/
def insert (c : Catalog α) (a : α) : Catalog α := ⟨place a c.toList, ascending_place a c.ascending⟩

/-- The catalogue of those things that pass a test. -/
def filter (c : Catalog α) (p : α → Bool) : Catalog α :=
  ⟨c.toList.filter p, c.ascending.filter p⟩

def erase (c : Catalog α) (k : String) : Catalog α := c.filter (key · != k)

theorem key_of_get? {c : Catalog α} {k : String} {a : α} (h : c.get? k = some a) : key a = k := by
  simpa using List.find?_some h

theorem mem_of_get? {c : Catalog α} {k : String} {a : α} (h : c.get? k = some a) :
    a ∈ c.toList := List.mem_of_find?_eq_some h

theorem eq_of_key_eq {l : List α} (h : l.Pairwise (fun x y => key x < key y)) {a b : α}
    (ha : a ∈ l) (hb : b ∈ l) (same : key a = key b) : a = b := by
  induction l with
  | nil => cases ha
  | cons x rest ih =>
    have ⟨head, tail⟩ := List.pairwise_cons.1 h
    rcases List.mem_cons.1 ha with rfl | ha' <;> rcases List.mem_cons.1 hb with rfl | hb'
    · rfl
    · exact absurd (same ▸ head b hb') (String.lt_irrefl _)
    · exact absurd (same ▸ head a ha') (String.lt_irrefl _)
    · exact ih tail ha' hb'

theorem get?_eq_some_iff {c : Catalog α} {k : String} {a : α} :
    c.get? k = some a ↔ a ∈ c.toList ∧ key a = k := by
  refine ⟨fun h => ⟨mem_of_get? h, key_of_get? h⟩, fun ⟨mem, same⟩ => ?_⟩
  match found : c.get? k with
  | none => exact absurd same (by simpa using List.find?_eq_none.1 found a mem)
  | some b =>
    have := eq_of_key_eq c.ascending mem (mem_of_get? found) (same.trans (key_of_get? found).symm)
    rw [this]

theorem mem_iff_get? {c : Catalog α} {a : α} : a ∈ c.toList ↔ c.get? (key a) = some a := by
  simp [get?_eq_some_iff]

@[simp] theorem get?_empty (k : String) : (empty : Catalog α).get? k = none := rfl

theorem get?_insert_self (c : Catalog α) (a : α) : (c.insert a).get? (key a) = some a := by
  refine get?_eq_some_iff.2 ⟨?_, rfl⟩
  show a ∈ place a c.toList
  induction c.toList with
  | nil => simp [place]
  | cons b rest ih => grind [place]

theorem mem_place_of_ne {a x : α} {l : List α} (h : x ∈ l) (other : key x ≠ key a) :
    x ∈ place a l := by
  induction l with
  | nil => cases h
  | cons b rest ih => grind [place]

theorem get?_insert_other (c : Catalog α) (a : α) {k : String} (other : k ≠ key a) :
    (c.insert a).get? k = c.get? k := by
  refine Option.ext fun b => ?_
  rw [get?_eq_some_iff, get?_eq_some_iff]
  constructor
  · rintro ⟨mem, rfl⟩
    rcases mem_place mem with rfl | mem
    · exact absurd rfl other
    · exact ⟨mem, rfl⟩
  · rintro ⟨mem, rfl⟩
    exact ⟨mem_place_of_ne mem other, rfl⟩

theorem get?_insert (c : Catalog α) (a : α) (k : String) :
    (c.insert a).get? k = if k = key a then some a else c.get? k := by
  split
  case isTrue same => exact same ▸ get?_insert_self c a
  case isFalse other => exact get?_insert_other c a other

theorem get?_filter (c : Catalog α) (p : α → Bool) (k : String) :
    (c.filter p).get? k = (c.get? k).filter p := by
  refine Option.ext fun b => ?_
  rw [Option.filter_eq_some_iff, get?_eq_some_iff, get?_eq_some_iff]
  simp [filter, and_right_comm]

theorem filter_congr {c : Catalog α} {p q : α → Bool} (h : ∀ a ∈ c.toList, p a = q a) :
    c.filter p = c.filter q := by
  simp only [filter, List.filter_congr h]

theorem get?_erase (c : Catalog α) (k k' : String) :
    (c.erase k).get? k' = if k' = k then none else c.get? k' := by
  rw [erase, get?_filter]
  match found : c.get? k' with
  | none => simp
  | some a =>
    have := key_of_get? found
    by_cases same : k' = k <;> simp [Option.filter, this, same]

theorem ext_mem {c d : Catalog α} (h : ∀ a, a ∈ c.toList ↔ a ∈ d.toList) : c = d := by
  cases c with
  | mk l hl => cases d with
    | mk r hr =>
      congr
      have distinct {l : List α} (h : l.Pairwise (fun x y => key x < key y)) : l.Nodup :=
        h.imp fun {x y} (lt : key x < key y) (same : x = y) => String.lt_irrefl _ (same ▸ lt)
      refine List.Perm.eq_of_pairwise (fun a b _ _ ab ba => ?_) hl hr
        ((List.perm_ext_iff_of_nodup (distinct hl) (distinct hr)).2 h)
      exact absurd (String.lt_trans ab ba) (String.lt_irrefl _)

theorem ext_get? {c d : Catalog α} (h : ∀ k, c.get? k = d.get? k) : c = d :=
  ext_mem fun a => by rw [mem_iff_get?, mem_iff_get?, h]

theorem contains_iff {c : Catalog α} {k : String} : c.contains k = true ↔ ∃ a, c.get? k = some a :=
  Option.isSome_iff_exists

theorem mem_keys {c : Catalog α} {k : String} : k ∈ c.keys ↔ c.contains k = true := by
  simp [keys, contains_iff, get?_eq_some_iff]

end Catalog

end Placement
