/-
  Lib.TextOrder — texts in the order of their characters, and of their UTF-8 bytes.

  Lists of one length that differ are ordered whatever follows them, and a field of fixed
  width decides before the fields after it. UTF-8 keeps the order of code points, so a
  database that compares the bytes of two texts (`memcmp`) orders them as their characters
  do.

  Proved: `field_lt`, `bytes_lt_iff`.
-/

import Mathlib.Data.String.Basic

namespace Lib.TextOrder

/-! ## Lists -/

section Lists

variable {α : Type*} [LT α]

/-- Lists of one length are ordered whatever follows them. -/
theorem append_lt_append {xs ys : List α} (h : xs < ys) (hl : xs.length = ys.length) (as bs : List α) :
    xs ++ as < ys ++ bs := by
  induction xs generalizing ys with
  | nil =>
    cases ys with
    | nil => cases h
    | cons y ys => cases hl
  | cons x xs ih =>
    cases ys with
    | nil => cases hl
    | cons y ys =>
      rw [List.cons_append, List.cons_append, List.cons_lt_cons_iff]
      rcases List.cons_lt_cons_iff.mp h with h | ⟨e, h⟩
      · exact Or.inl h
      · exact Or.inr ⟨e, ih h (Nat.succ.inj hl)⟩

/-- A field decides, or what follows it. -/
theorem field_lt {xs ys as bs : List α} (hl : xs.length = ys.length) (h : xs < ys ∨ xs = ys ∧ as < bs) :
    xs ++ as < ys ++ bs := by
  rcases h with h | ⟨e, h⟩
  · exact append_lt_append h hl as bs
  · subst e
    exact List.append_left_lt h

end Lists

/-! ## Bytes -/

/-- The UTF-8 bytes of a text. -/
def bytes (s : String) : List UInt8 := s.toList.flatMap String.utf8EncodeChar

theorem char_isLt (c : Char) : c.val.toNat < 0x110000 := by
  have h := c.valid
  simp only [UInt32.isValidChar, Nat.isValidChar] at h
  omega

theorem byte_lt {a b : Nat} {x y : List UInt8} (ha : a < 256) (hb : b < 256) (hle : a ≤ b) (h : a = b → x < y) :
    UInt8.ofNat a :: x < UInt8.ofNat b :: y := by
  rw [List.cons_lt_cons_iff, UInt8.ofNat_lt_iff_lt ha hb]
  rcases Nat.lt_or_eq_of_le hle with hlt | e
  · exact Or.inl hlt
  · exact Or.inr ⟨congrArg _ e, h e⟩

/-- The encodings of two characters are ordered whatever follows them. -/
theorem encode_lt {c d : Char} (h : c < d) (x y : List UInt8) :
    String.utf8EncodeChar c ++ x < String.utf8EncodeChar d ++ y := by
  have hlt : c.val.toNat < d.val.toNat := h
  have hc := char_isLt c
  have hd := char_isLt d
  simp only [String.utf8EncodeChar]
  generalize c.val.toNat = m at hlt hc ⊢
  generalize d.val.toNat = n at hlt hd ⊢
  -- the lead byte grows with the length, so only encodings of one length are compared further
  by_cases h1 : m ≤ 0x7f
  · rw [if_pos h1]
    split_ifs
    all_goals exact byte_lt (by omega) (by omega) (by omega) fun e => by omega
  rw [if_neg h1, if_neg (by omega : ¬ n ≤ 0x7f)]
  by_cases h2 : m ≤ 0x7ff
  · rw [if_pos h2]
    split_ifs
    · refine byte_lt (by omega) (by omega) (by omega) fun e => ?_
      exact byte_lt (by omega) (by omega) (by omega) fun e => by omega
    all_goals exact byte_lt (by omega) (by omega) (by omega) fun e => by omega
  rw [if_neg h2, if_neg (by omega : ¬ n ≤ 0x7ff)]
  by_cases h3 : m ≤ 0xffff
  · rw [if_pos h3]
    split_ifs
    · refine byte_lt (by omega) (by omega) (by omega) fun e => ?_
      refine byte_lt (by omega) (by omega) (by omega) fun e => ?_
      exact byte_lt (by omega) (by omega) (by omega) fun e => by omega
    · exact byte_lt (by omega) (by omega) (by omega) fun e => by omega
  rw [if_neg h3, if_neg (by omega : ¬ n ≤ 0xffff)]
  refine byte_lt (by omega) (by omega) (by omega) fun e => ?_
  refine byte_lt (by omega) (by omega) (by omega) fun e => ?_
  refine byte_lt (by omega) (by omega) (by omega) fun e => ?_
  exact byte_lt (by omega) (by omega) (by omega) fun e => by omega

theorem encode_ne_nil (c : Char) : ∃ b bs, String.utf8EncodeChar c = b :: bs :=
  List.exists_cons_of_ne_nil String.utf8EncodeChar_ne_nil

theorem bytes_lt {s t : String} (h : s < t) : bytes s < bytes t := by
  have h : s.toList < t.toList := h
  unfold bytes
  generalize s.toList = xs at h ⊢
  generalize t.toList = ys at h ⊢
  induction xs generalizing ys with
  | nil =>
    cases ys with
    | nil => cases h
    | cons d ys =>
      obtain ⟨b, bs, e⟩ := encode_ne_nil d
      rw [List.flatMap_cons, e]
      exact List.nil_lt_cons _ _
  | cons c xs ih =>
    cases ys with
    | nil => cases h
    | cons d ys =>
      rw [List.flatMap_cons, List.flatMap_cons]
      rcases List.cons_lt_cons_iff.mp h with hlt | ⟨e, hrest⟩
      · exact encode_lt hlt _ _
      · subst e
        exact List.append_left_lt (ih ys hrest)

/-- The bytes of two texts are in the order of the texts. -/
theorem bytes_lt_iff (s t : String) : bytes s < bytes t ↔ s < t := by
  constructor
  · intro h
    rcases lt_trichotomy s t with hlt | e | hgt
    · exact hlt
    · subst e
      exact absurd h (List.lt_irrefl _)
    · exact absurd h (List.lt_asymm (bytes_lt hgt))
  · exact bytes_lt

end Lib.TextOrder
