import Mathlib
import Placement.Document.Basic

/-!
# Sound documents

A document is sound down to a depth if no value in it is missing and no lists and records are nested
deeper than that. What a format can read of a tree is its document, provided that this is sound.
-/
namespace Placement.Document

variable {α : Type} {n : ℕ} {d : Document}

/-- Whether there is nothing unreadable in a document, and nothing nested deeper than a bound. -/
def sound : ℕ → Document → Bool
  | _, text _ => true
  | _, number _ => true
  | n + 1, list items _ => items.all (sound n)
  | n + 1, record members _ => members.all fun m => sound n m.2
  | _, _ => false

theorem sound_text (n : ℕ) (s : String) : sound n (text s) = true := by cases n <;> rfl

theorem sound_number (n : ℕ) (x : Number) : sound n (number x) = true := by cases n <;> rfl

theorem sound_other (n : ℕ) : sound n other = false := by cases n <;> rfl

theorem sound_mono {k : ℕ} (h : n ≤ k) (hd : sound n d = true) : sound k d = true := by
  induction n generalizing d k with
  | zero =>
    cases d with
    | text s => exact sound_text k s
    | number x => exact sound_number k x
    | _ => cases hd
  | succ n ih =>
    obtain ⟨k, rfl⟩ := Nat.exists_eq_succ_of_ne_zero (Nat.ne_zero_of_lt h)
    have hle : n ≤ k := Nat.le_of_succ_le_succ h
    cases d with
    | text s => exact sound_text _ s
    | number x => exact sound_number _ x
    | list items closed =>
      exact List.all_eq_true.mpr fun e he => ih hle (List.all_eq_true.mp hd e he)
    | record members closed =>
      exact List.all_eq_true.mpr fun m hm => ih hle (List.all_eq_true.mp hd m hm)
    | other => cases hd

/-- A document if it is sound. -/
def soundly (n : ℕ) (d : Document) : Option Document := if sound n d then some d else none

theorem soundly_of_sound (h : sound n d = true) : soundly n d = some d := if_pos h

theorem soundly_eq_none (h : sound n d = false) : soundly n d = none := by
  rw [soundly, h]
  rfl

theorem mapM_soundly (f : α → Document) (as : List α) :
    as.mapM (fun a => soundly n (f a)) =
      if (as.map f).all (sound n) then some (as.map f) else none := by
  induction as with
  | nil => rfl
  | cons a as ih =>
    rw [List.mapM_cons, ih, List.map_cons, List.all_cons, soundly]
    cases sound n (f a) <;> cases (as.map f).all (sound n) <;> rfl

end Placement.Document
