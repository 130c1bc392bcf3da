/-
  Lib.Sql — a table with named columns and a primary key, and statements that give and
  take values by position.

  A row gives each column a value, or NULL (`none`). INSERT and UPDATE pair a list of
  columns with a list of values; SELECT lists the values of its columns.

  Proved: values given in the order of some columns are read back under each of them
  (`assign_map`); an UPDATE by key changes the named columns of one row (`get_update_same`,
  `get_update_ne`, `assign_other`).
-/

import SagaAgents.Lib.Keyed

namespace Lib.Sql

variable {κ ν : Type*} [DecidableEq κ] [DecidableEq ν]

structure Schema (κ : Type*) where
  key : κ
  notNull : List κ

abbrev Cells (κ ν : Type*) := κ → Option ν

abbrev Table (schema : Schema κ) (ν : Type*) := Keyed fun row : Cells κ ν => row schema.key

/-- The row with the values in these columns. -/
def assign (row : Cells κ ν) (columns : List κ) (values : List (Option ν)) : Cells κ ν :=
  fun c => ((columns.zip values).find? (·.1 == c)).elim (row c) Prod.snd

omit [DecidableEq κ] [DecidableEq ν] in
/-- `SELECT columns`, of one row. -/
def select (columns : List κ) (row : Cells κ ν) : List (Option ν) := columns.map row

variable {schema : Schema κ}

/-- `INSERT`; it raises (`none`) on a NULL in a NOT NULL column, or a key that is there. -/
def insert (t : Table schema ν) (columns : List κ) (values : List (Option ν)) : Option (Table schema ν) :=
  let row := assign (fun _ => none) columns values
  if schema.notNull.any (fun c => (row c).isNone) || (t.get (row schema.key)).isSome then none else some (t.set row)

/-- `UPDATE ... WHERE key = k`. -/
def update (t : Table schema ν) (columns : List κ) (values : List (Option ν)) (k : Option ν) : Table schema ν :=
  match t.get k with
  | none => t
  | some row => t.set (assign row columns values)

omit [DecidableEq ν] in
/-- A column that is not named keeps its value. -/
theorem assign_other {row : Cells κ ν} {columns : List κ} {values : List (Option ν)} {c : κ} (h : c ∉ columns) :
    assign row columns values c = row c := by
  have hnone : (columns.zip values).find? (·.1 == c) = none := by
    rw [List.find?_eq_none]
    intro p hp he
    have := (List.of_mem_zip hp).1
    rw [beq_iff_eq.mp he] at this
    exact h this
  rw [assign, hnone, Option.elim_none]

omit [DecidableEq ν] in
/-- Values listed in the order of the columns land in their columns. -/
theorem assign_map {row f : Cells κ ν} {columns : List κ} {c : κ} (h : c ∈ columns) :
    assign row columns (columns.map f) c = f c := by
  unfold assign
  induction columns with
  | nil => cases h
  | cons d ds ih =>
    rw [List.map_cons, List.zip_cons_cons, List.find?_cons]
    by_cases e : d = c
    · simp [e]
    · have hb : (d == c) = false := by simpa using e
      simp only [hb]
      exact ih (List.mem_of_ne_of_mem (Ne.symm e) h)

theorem insert_some {t t' : Table schema ν} {columns : List κ} {values : List (Option ν)}
    (h : insert t columns values = some t') :
    t.get (assign (fun _ => none) columns values schema.key) = none ∧ t' = t.set (assign (fun _ => none) columns values) := by
  simp only [insert] at h
  split at h
  · cases h
  · rename_i hn
    cases h
    rw [Bool.not_eq_true, Bool.or_eq_false_iff] at hn
    exact ⟨by simpa using hn.2, rfl⟩

/-- An UPDATE that does not name the key keeps the keys. -/
theorem assign_key {t : Table schema ν} {k : Option ν} {row : Cells κ ν} {columns : List κ} {values : List (Option ν)}
    (hk : schema.key ∉ columns) (h : t.get k = some row) : assign row columns values schema.key = k := by
  rw [assign_other hk]
  exact (Keyed.get_some h).2

theorem get_update_same {t : Table schema ν} {k : Option ν} {row : Cells κ ν} {columns : List κ} {values : List (Option ν)}
    (hk : schema.key ∉ columns) (h : t.get k = some row) :
    (update t columns values k).get k = some (assign row columns values) := by
  have hset := Keyed.get_set_same t (assign row columns values)
  rw [assign_key hk h] at hset
  rw [update, h]
  exact hset

theorem get_update_ne {t : Table schema ν} {k k' : Option ν} {columns : List κ} {values : List (Option ν)}
    (hk : schema.key ∉ columns) (hne : k' ≠ k) : (update t columns values k).get k' = t.get k' := by
  unfold update
  split
  · rfl
  · rename_i row h
    refine Keyed.get_set_ne t ?_
    rw [assign_key hk h]
    exact hne

/-- A row of the updated table was there, or is the updated row. -/
theorem mem_update {t : Table schema ν} {k : Option ν} {columns : List κ} {values : List (Option ν)} {row : Cells κ ν}
    (h : row ∈ (update t columns values k).rows) :
    row ∈ t.rows ∨ ∃ old ∈ t.rows, row = assign old columns values := by
  unfold update at h
  split at h
  · exact Or.inl h
  · rename_i old hold
    rcases Keyed.mem_set h with e | h
    · exact Or.inr ⟨old, (Keyed.get_some hold).1, e⟩
    · exact Or.inl h

end Lib.Sql
