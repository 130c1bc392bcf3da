/-
  Lib.Erase — some of the tasks of a list, without the others.

  The tasks that meet `p` are those of `l.filter p`. Task `i` of `l`, if it is one of
  them, is task `place p l i` there. A move of a task that is kept is a move of it there;
  a task that starts or moves after it leaves its place as it is.
-/

import Mathlib.Data.List.Basic

namespace Lib.Erase

variable {α : Type*} {p : α → Bool} {l m : List α} {i j : Nat} {a b : α}

def place (p : α → Bool) (l : List α) (i : Nat) : Nat := (l.take i).countP p

@[simp] theorem place_zero : place p l 0 = 0 := rfl

theorem place_cons (i : Nat) : place p (a :: l) (i + 1) = place p l i + if p a then 1 else 0 := by
  simp [place, List.countP_cons]

theorem place_append (h : i ≤ l.length) : place p (l ++ m) i = place p l i := by
  rw [place, List.take_append_of_le_length h]
  rfl

theorem get_kept (hi : l[i]? = some a) (ha : p a = true) : (l.filter p)[place p l i]? = some a := by
  induction l generalizing i with
  | nil => cases hi
  | cons x l ih =>
    cases i with
    | zero =>
      cases hi
      simp [ha]
    | succ i =>
      by_cases hx : p x = true
      · simpa [place_cons, hx] using ih hi
      · simpa [place_cons, hx] using ih hi

theorem filter_set (hi : l[i]? = some a) (ha : p a = true) (hb : p b = true) :
    (l.set i b).filter p = (l.filter p).set (place p l i) b := by
  induction l generalizing i with
  | nil => cases hi
  | cons x l ih =>
    cases i with
    | zero =>
      cases hi
      simp [ha, hb]
    | succ i =>
      by_cases hx : p x = true
      · simpa [place_cons, hx] using ih hi
      · simpa [place_cons, hx] using ih hi

/-- A task that moves stays kept or not kept, and so do the places. -/
theorem place_set (hi : l[i]? = some a) (hb : p b = p a) : place p (l.set i b) j = place p l j := by
  induction l generalizing i j with
  | nil => cases hi
  | cons x l ih =>
    cases j with
    | zero => rfl
    | succ j =>
      cases i with
      | zero =>
        cases hi
        simp [place_cons, hb]
      | succ i => simp [place_cons, ih hi]

end Lib.Erase
