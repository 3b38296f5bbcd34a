import Mathlib

/-!
# Order of texts by their bytes

Texts are compared character by character, by code point. Their UTF-8 bytes, compared byte by byte
as numbers, give the same order, because the encoding of a greater character is greater already in
a byte that both encodings have. Other encodings do not share this property and are not treated.
-/
namespace Placement.Text
open String (utf8EncodeChar)

/-- The bytes of a text in UTF-8. -/
def bytes (s : String) : List UInt8 := s.toByteArray.data.toList

theorem bytes_eq_flatMap (s : String) : bytes s = s.toList.flatMap utf8EncodeChar := by
  unfold bytes
  rw [← String.utf8Encode_toList, List.utf8Encode, List.toList_data_toByteArray]

/-- Of two code points the smaller one is smaller in the first digit in which they differ. -/
theorem digits_lt {v w : ℕ} (h : v < w) :
    v / 262144 < w / 262144 ∨
      v / 262144 = w / 262144 ∧ (v / 4096 % 64 < w / 4096 % 64 ∨
        v / 4096 % 64 = w / 4096 % 64 ∧ (v / 64 % 64 < w / 64 % 64 ∨
          v / 64 % 64 = w / 64 % 64 ∧ v % 64 < w % 64)) := by
  by_cases h₁ : v / 262144 = w / 262144
  · refine Or.inr ⟨h₁, ?_⟩
    by_cases h₂ : v / 4096 = w / 4096
    · refine Or.inr ⟨by rw [h₂], ?_⟩
      by_cases h₃ : v / 64 = w / 64
      · exact Or.inr ⟨by rw [h₃], by omega⟩
      · exact Or.inl (by omega)
    · exact Or.inl (by omega)
  · exact Or.inl (by omega)

/-- The encoding of a smaller character is smaller in one of the bytes that both have. -/
theorem encode_lt {c d : Char} (h : c < d) (x y : List UInt8) :
    utf8EncodeChar c ++ x < utf8EncodeChar d ++ y := by
  have hv : c.val.toNat < d.val.toNat := h
  have hd : d.val.toNat < 0x110000 := by
    rcases d.valid with hs | ⟨-, hs⟩
    · exact Nat.lt_trans hs (by decide)
    · exact hs
  have small (n : ℕ) : (UInt8.ofNat n).toNat = n % 256 := UInt8.toNat_ofNat'
  -- encodings of different lengths differ in the first byte, which tells the length
  rcases digits_lt hv with h | ⟨h₁, h | ⟨h₂, h | ⟨h₃, h⟩⟩⟩
  all_goals
    unfold utf8EncodeChar
    dsimp only
    repeat' split
    all_goals
      simp only [List.cons_append, List.nil_append, List.cons_lt_cons_iff,
        UInt8.lt_iff_toNat_lt, ← UInt8.toNat_inj, small]
      omega

theorem encode_list_lt {l m : List Char} (h : l < m) :
    l.flatMap utf8EncodeChar < m.flatMap utf8EncodeChar := by
  induction l generalizing m with
  | nil =>
    cases m with
    | nil => exact absurd h (List.not_lt_nil [])
    | cons d m =>
      rw [List.flatMap_nil, List.flatMap_cons]
      match hd : utf8EncodeChar d with
      | [] => exact absurd hd String.utf8EncodeChar_ne_nil
      | b :: bs => exact List.nil_lt_cons b _
  | cons c l ih =>
    cases m with
    | nil => exact absurd h (List.not_lt_nil _)
    | cons d m =>
      rw [List.flatMap_cons, List.flatMap_cons]
      rcases List.cons_lt_cons_iff.mp h with hlt | ⟨rfl, hlt⟩
      · exact encode_lt hlt _ _
      · exact List.append_left_lt (ih hlt)

theorem bytes_lt {s t : String} (h : s < t) : bytes s < bytes t := by
  rw [bytes_eq_flatMap, bytes_eq_flatMap]
  exact encode_list_lt h

/-- Texts are ordered as their bytes are. -/
theorem bytes_lt_iff {s t : String} : bytes s < bytes t ↔ s < t := by
  refine ⟨fun h => ?_, bytes_lt⟩
  by_contra hn
  by_cases he : s = t
  · rw [he] at h
    exact List.lt_irrefl _ h
  · have hgt : t < s := Std.lt_of_le_of_ne (String.not_lt.mp hn) fun e => he e.symm
    exact List.lt_irrefl _ (List.lt_trans h (bytes_lt hgt))

end Placement.Text
