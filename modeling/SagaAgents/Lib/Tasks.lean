/-
  Lib.Tasks — a list of tasks, each known by its place.

  A task is started at the end of the list and keeps its place. A move replaces it, and
  leaves the others where they are. What the tasks write goes into logs they share, where
  an entry has an owner.
-/

import Mathlib.Algebra.GroupWithZero.Nat
import Mathlib.Data.List.Nodup
import Mathlib.Data.List.Perm.Basic

namespace Lib.Tasks

variable {α β : Type*} {l : List α} {i j : Nat} {a b c : α}

/-! ## A task starts -/

theorem get_start : (l ++ [b])[j]? = some c ↔ l[j]? = some c ∨ (j = l.length ∧ b = c) := by
  rcases Nat.lt_trichotomy j l.length with hj | hj | hj
  · simp [List.getElem?_append_left hj, Nat.ne_of_lt hj]
  · subst hj
    simp
  · have hnone : (l ++ [b])[j]? = none := List.getElem?_eq_none (by rw [List.length_append, List.length_singleton]; omega)
    simp [hnone, List.getElem?_eq_none (Nat.le_of_lt hj), Nat.ne_of_gt hj]

theorem get_kept (hj : l[j]? = some c) : (l ++ [b])[j]? = some c := get_start.mpr (Or.inl hj)

theorem nodup_start (h : l.Nodup) (hb : b ∉ l) : (l ++ [b]).Nodup := by
  rw [← List.concat_eq_append]
  exact h.concat hb

/-! ## A task moves -/

/-- What is at a place after task `i` has moved. -/
theorem get_move (hi : l[i]? = some a) : (l.set i b)[j]? = some c ↔ (j = i ∧ b = c) ∨ (j ≠ i ∧ l[j]? = some c) := by
  have hlt : i < l.length := (List.getElem?_eq_some_iff.mp hi).1
  by_cases e : j = i
  · subst e
    simp [hlt]
  · simp [List.getElem?_set_ne (Ne.symm e), e]

theorem get_moved (hi : l[i]? = some a) : (l.set i b)[i]? = some b := (get_move hi).mpr (Or.inl ⟨rfl, rfl⟩)

theorem get_other (hj : l[j]? = some c) (hne : j ≠ i) : (l.set i b)[j]? = some c :=
  (List.getElem?_set_ne (Ne.symm hne)).trans hj

/-- A task of the list is the one that moved, or another one. -/
theorem mem_move (hc : c ∈ l.set i b) : c = b ∨ ∃ j, j ≠ i ∧ l[j]? = some c := by
  obtain ⟨j, hj⟩ := List.mem_iff_getElem?.mp hc
  by_cases e : j = i
  · subst e
    have hlt : j < l.length := by
      have := (List.getElem?_eq_some_iff.mp hj).1
      rw [List.length_set] at this
      exact this
    rw [List.getElem?_set_self hlt] at hj
    exact Or.inl (Option.some.inj hj).symm
  · rw [List.getElem?_set_ne (Ne.symm e)] at hj
    exact Or.inr ⟨j, e, hj⟩

/-- What a move does not change about its task. -/
theorem map_move {f : α → β} (hi : l[i]? = some a) (hf : f b = f a) : (l.set i b).map f = l.map f := by
  obtain ⟨hlt, e⟩ := List.getElem?_eq_some_iff.mp hi
  have hlt' : i < (l.map f).length := by rw [List.length_map]; exact hlt
  have hget : (l.map f)[i] = f a := by rw [List.getElem_map, e]
  rw [List.map_set, hf, ← hget, List.set_getElem_self]

theorem countP_move {p : α → Bool} (hi : l[i]? = some a) :
    (l.set i b).countP p + (p a).toNat = l.countP p + (p b).toNat := by
  induction l generalizing i with
  | nil => cases hi
  | cons x l ih =>
    cases i with
    | zero =>
      cases hi
      cases ha : p a <;> cases hb : p b <;> simp [ha, hb]
    | succ i =>
      have hrest := ih hi
      simp only [List.set_cons_succ, List.countP_cons]
      omega

/-- A task that moves down lowers the sum. -/
theorem sum_move_lt {f : α → Nat} (hi : l[i]? = some a) (hlt : f b < f a) : ((l.set i b).map f).sum < (l.map f).sum := by
  induction l generalizing i with
  | nil => cases hi
  | cons x l ih =>
    cases i with
    | zero =>
      cases hi
      simp only [List.set_cons_zero, List.map_cons, List.sum_cons]
      omega
    | succ i =>
      have hrest := ih hi
      simp only [List.set_cons_succ, List.map_cons, List.sum_cons]
      omega

/-- Two lists of the same tasks, side by side. -/
theorem zip_move {l' : List β} {b' : β} : (l.set i b).zip (l'.set i b') = (l.zip l').set i (b, b') := by
  induction l generalizing i l' with
  | nil => rfl
  | cons x l ih =>
    cases l' with
    | nil => cases i <;> rfl
    | cons y l' =>
      cases i with
      | zero => rfl
      | succ i => simp only [List.set_cons_succ, List.zip_cons_cons, ih]

/-! ## Tasks with an own one elsewhere -/

section

variable {f : α → List β} {log new : List β}

/-! What each task has written is a function of it: the log is that of all of them, in
    some order. -/

theorem log_start (h : log.Perm (l.flatMap f)) (hb : f b = []) : log.Perm ((l ++ [b]).flatMap f) := by
  simpa [hb] using h

theorem log_move (h : log.Perm (l.flatMap f)) (hi : l[i]? = some a) (hb : f b = f a ++ new) :
    (log ++ new).Perm ((l.set i b).flatMap f) := by
  obtain ⟨hlt, e⟩ := List.getElem?_eq_some_iff.mp hi
  have hl : l = l.take i ++ a :: l.drop (i + 1) := by rw [← e, List.getElem_cons_drop, List.take_append_drop]
  have hset : l.set i b = l.take i ++ b :: l.drop (i + 1) := List.set_eq_take_append_cons_drop.trans (if_pos hlt)
  rw [hl] at h
  rw [hset]
  simp only [List.flatMap_append, List.flatMap_cons, hb, List.append_assoc] at h ⊢
  refine (h.append_right new).trans ?_
  simp only [List.append_assoc]
  exact (List.perm_append_comm.append_left _).append_left _

end

section

variable {κ : Type*} [BEq κ] [LawfulBEq κ] {new : List α} {owner : α → κ} {k : κ}

/-- The entries are all of `k`. -/
theorem filter_own (h : ∀ e ∈ new, owner e = k) : new.filter (owner · == k) = new :=
  List.filter_eq_self.mpr fun e he => beq_iff_eq.mpr (h e he)

/-- None is. -/
theorem filter_other (h : ∀ e ∈ new, owner e ≠ k) : new.filter (owner · == k) = [] :=
  List.filter_eq_nil_iff.mpr fun e he hb => h e he (beq_iff_eq.mp hb)

end

end Lib.Tasks
