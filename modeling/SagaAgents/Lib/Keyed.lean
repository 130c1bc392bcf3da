/-
  Lib.Keyed — an ordered collection with a unique key (a Python dict, a SQL table with
  a primary key, a job store).

  A new key goes to the end; writing a key that is there replaces its entry in place.
  The uniqueness of the keys is a field, so a collection with two entries of one key
  cannot be built.
-/

import Mathlib.Data.List.Nodup

namespace Lib

variable {ρ κ : Type*}

structure Keyed (key : ρ → κ) where
  rows : List ρ
  nodup : (rows.map key).Nodup

namespace Keyed

variable {key : ρ → κ}

theorem ext {t t' : Keyed key} (h : t.rows = t'.rows) : t = t' := by
  cases t; cases t'; cases h; rfl

def empty (key : ρ → κ) : Keyed key := ⟨[], List.nodup_nil⟩

/-- Two entries of one key are the same entry. -/
theorem unique {t : Keyed key} {r r' : ρ} (h : r ∈ t.rows) (h' : r' ∈ t.rows) (he : key r = key r') : r = r' :=
  List.inj_on_of_nodup_map t.nodup h h' he

variable [DecidableEq κ]

def get (t : Keyed key) (k : κ) : Option ρ := t.rows.find? (key · == k)

/-- Replace the entry that has `r`'s key, in place. -/
def replace (rows : List ρ) (key : ρ → κ) (r : ρ) : List ρ := rows.map fun x => if key x = key r then r else x

theorem replace_keys (rows : List ρ) (r : ρ) : (replace rows key r).map key = rows.map key := by
  rw [replace, List.map_map]
  refine List.map_congr_left fun x _ => ?_
  by_cases h : key x = key r <;> simp [h]

/-- `t[key r] = r`. -/
def set (t : Keyed key) (r : ρ) : Keyed key :=
  if h : key r ∈ t.rows.map key then ⟨replace t.rows key r, by rw [replace_keys]; exact t.nodup⟩
  else ⟨t.rows ++ [r], by
    rw [List.map_append]
    exact t.nodup.append (by simp) (by simpa using h)⟩

/-- The collection a sequence of writes leaves, starting from the empty one. -/
def ofList (key : ρ → κ) (rs : List ρ) : Keyed key := rs.foldl set (empty key)

theorem get_some {t : Keyed key} {k : κ} {r : ρ} (h : t.get k = some r) : r ∈ t.rows ∧ key r = k :=
  ⟨List.mem_of_find?_eq_some h, by simpa using List.find?_some h⟩

theorem get_none {t : Keyed key} {k : κ} : t.get k = none ↔ k ∉ t.rows.map key := by
  simp [get, List.find?_eq_none]

theorem get_of_mem {t : Keyed key} {r : ρ} (h : r ∈ t.rows) : t.get (key r) = some r := by
  cases hg : t.get (key r) with
  | none => exact absurd (List.mem_map_of_mem h) (get_none.mp hg)
  | some r' =>
    obtain ⟨hm, hk⟩ := get_some hg
    rw [unique hm h hk]

theorem set_fresh {t : Keyed key} {r : ρ} (h : key r ∉ t.rows.map key) : (t.set r).rows = t.rows ++ [r] := by
  simp only [set, h, dif_neg, not_false_iff]

theorem set_present {t : Keyed key} {r : ρ} (h : key r ∈ t.rows.map key) :
    (t.set r).rows = replace t.rows key r := by
  simp only [set, h, dif_pos]

theorem mem_set {t : Keyed key} {r x : ρ} (h : x ∈ (t.set r).rows) : x = r ∨ x ∈ t.rows := by
  by_cases hp : key r ∈ t.rows.map key
  · rw [set_present hp] at h
    obtain ⟨y, hy, e⟩ := List.mem_map.mp h
    split at e
    · exact Or.inl e.symm
    · exact Or.inr (e ▸ hy)
  · rw [set_fresh hp] at h
    rcases List.mem_append.mp h with h | h
    · exact Or.inr h
    · exact Or.inl (List.mem_singleton.mp h)

@[simp] theorem get_set_same (t : Keyed key) (r : ρ) : (t.set r).get (key r) = some r := by
  have hm : r ∈ (t.set r).rows := by
    by_cases h : key r ∈ t.rows.map key
    · rw [set_present h]
      obtain ⟨x, hx, he⟩ := List.mem_map.mp h
      exact List.mem_map.mpr ⟨x, hx, if_pos he⟩
    · rw [set_fresh h]; simp
  exact get_of_mem hm

theorem get_set_ne (t : Keyed key) {r : ρ} {k : κ} (h : k ≠ key r) : (t.set r).get k = t.get k := by
  unfold get
  by_cases hp : key r ∈ t.rows.map key
  · rw [set_present hp, replace]
    induction t.rows with
    | nil => rfl
    | cons x xs ih =>
      by_cases e : key x = key r
      · have h1 : ¬ key r = k := Ne.symm h
        simp [e, h1, ih]
      · simp only [List.map_cons, e, if_false, List.find?_cons]
        split
        · rfl
        · exact ih
  · rw [set_fresh hp, List.find?_append]
    have : (key r == k) = false := by simpa using Ne.symm h
    simp [this]

theorem get_foldl_set (rs : List ρ) (t : Keyed key) (k : κ) :
    (rs.foldl set t).get k = (rs.filter fun r => decide (key r = k)).getLast?.or (t.get k) := by
  induction rs generalizing t with
  | nil => rfl
  | cons r rs ih =>
    rw [List.foldl_cons, ih]
    by_cases e : key r = k
    · subst e
      rw [List.filter_cons_of_pos (by simp), get_set_same, List.getLast?_cons]
      cases (rs.filter fun x => decide (key x = key r)).getLast? <;> rfl
    · rw [List.filter_cons_of_neg (by simpa using e), get_set_ne t (Ne.symm e)]

/-- The last write under a key is the one that is kept. -/
theorem get_ofList (rs : List ρ) (k : κ) : (ofList key rs).get k = (rs.filter fun r => decide (key r = k)).getLast? := by
  rw [ofList, get_foldl_set]
  cases (rs.filter fun r => decide (key r = k)).getLast? <;> rfl

/-- Writes of new and distinct keys are all kept, in order. -/
theorem foldl_set_rows {rs : List ρ} {t : Keyed key} (h : ((t.rows ++ rs).map key).Nodup) :
    (rs.foldl set t).rows = t.rows ++ rs := by
  induction rs generalizing t with
  | nil => simp
  | cons r rs ih =>
    have hf : key r ∉ t.rows.map key := by
      rw [List.map_append, List.map_cons] at h
      intro hm
      exact (List.nodup_append.mp h).2.2 _ hm _ List.mem_cons_self rfl
    rw [List.foldl_cons, ih (by rw [set_fresh hf]; simpa using h), set_fresh hf]
    simp

theorem ofList_rows {rs : List ρ} (h : (rs.map key).Nodup) : (ofList key rs).rows = rs :=
  foldl_set_rows (by simpa [empty] using h)

theorem foldl_set_length (rs : List ρ) (t : Keyed key) : (rs.foldl set t).rows.length ≤ t.rows.length + rs.length := by
  induction rs generalizing t with
  | nil => simp
  | cons r rs ih =>
    have hs : (t.set r).rows.length ≤ t.rows.length + 1 := by
      by_cases hp : key r ∈ t.rows.map key
      · rw [set_present hp, replace, List.length_map]
        omega
      · have e := congrArg List.length (set_fresh hp)
        rw [List.length_append, List.length_singleton] at e
        omega
    have := ih (t.set r)
    rw [List.foldl_cons, List.length_cons]
    omega

/-- A collection has only what was written. -/
theorem mem_foldl_set {rs : List ρ} {t : Keyed key} {x : ρ} (h : x ∈ (rs.foldl set t).rows) : x ∈ t.rows ∨ x ∈ rs := by
  induction rs generalizing t with
  | nil => exact Or.inl h
  | cons r rs ih =>
    rcases ih h with h | h
    · rcases mem_set h with e | h
      · exact Or.inr (e ▸ List.mem_cons_self)
      · exact Or.inl h
    · exact Or.inr (List.mem_cons_of_mem _ h)

theorem mem_ofList {rs : List ρ} {x : ρ} (h : x ∈ (ofList key rs).rows) : x ∈ rs :=
  (mem_foldl_set h).resolve_left (fun h => by cases h)

/-- Writes that are all kept were of new and distinct keys. -/
theorem foldl_set_nodup {rs : List ρ} {t : Keyed key} (h : (rs.foldl set t).rows.length = t.rows.length + rs.length) :
    ((t.rows ++ rs).map key).Nodup := by
  induction rs generalizing t with
  | nil => simpa using t.nodup
  | cons r rs ih =>
    have hb := foldl_set_length rs (t.set r)
    rw [List.foldl_cons, List.length_cons] at h
    by_cases hp : key r ∈ t.rows.map key
    · -- the write replaces an entry, so one is missing at the end
      rw [set_present hp, replace, List.length_map] at hb
      omega
    · have he := set_fresh hp
      have := ih (t := t.set r) (by rw [h, he, List.length_append, List.length_singleton]; omega)
      rw [he] at this
      simpa using this

/-- Every write is kept exactly if the keys are distinct. -/
theorem ofList_length {rs : List ρ} : (ofList key rs).rows.length = rs.length ↔ (rs.map key).Nodup := by
  constructor
  · intro h
    simpa [empty] using foldl_set_nodup (t := empty key) (by simpa [ofList, empty] using h)
  · intro h
    rw [ofList_rows h]

/-- Writing one key twice keeps the second write. -/
theorem set_set {t : Keyed key} {r r' : ρ} (h : key r = key r') : (t.set r).set r' = t.set r' := by
  have hm : key r' ∈ (t.set r).rows.map key := by
    obtain ⟨hr, -⟩ := get_some (get_set_same t r)
    exact h ▸ List.mem_map_of_mem hr
  refine ext ?_
  rw [set_present hm]
  by_cases hp : key r ∈ t.rows.map key
  · rw [set_present hp, set_present (h ▸ hp), replace, replace, replace, List.map_map]
    refine List.map_congr_left fun x _ => ?_
    by_cases e : key x = key r'
    · simp [e, h]
    · simp [e, h]
  · have hp' : key r' ∉ t.rows.map key := h ▸ hp
    rw [set_fresh hp, set_fresh hp', replace, List.map_append]
    congr 1
    · conv_rhs => rw [← List.map_id t.rows]
      refine List.map_congr_left fun x hx => ?_
      have : key x ≠ key r' := fun e => hp' (e ▸ List.mem_map_of_mem hx)
      simp [this]
    · simp [h]

/-- A write to a present key replaces that one entry. -/
theorem set_split {t : Keyed key} {r old : ρ} (h : t.get (key r) = some old) :
    ∃ pre post, t.rows = pre ++ old :: post ∧ (t.set r).rows = pre ++ r :: post := by
  obtain ⟨hm, hk⟩ := get_some h
  obtain ⟨pre, post, hrows⟩ := List.append_of_mem hm
  have hnodup : ((pre ++ old :: post).map key).Nodup := hrows ▸ t.nodup
  rw [List.map_append, List.map_cons, List.nodup_append, List.nodup_cons] at hnodup
  obtain ⟨-, ⟨hpost, -⟩, hpre⟩ := hnodup
  have hkeep (l : List ρ) (hl : ∀ x ∈ l, key x ≠ key r) : replace l key r = l := by
    refine (List.map_congr_left fun x hx => ?_).trans (List.map_id l)
    exact if_neg (hl x hx)
  have hp : replace pre key r = pre := by
    refine hkeep pre fun x hx e => hpre _ (List.mem_map_of_mem hx) _ List.mem_cons_self ?_
    rw [e, hk]
  have hq : replace post key r = post := by
    refine hkeep post fun x hx e => hpost ?_
    rw [hk, ← e]
    exact List.mem_map_of_mem hx
  refine ⟨pre, post, hrows, ?_⟩
  rw [set_present (hk ▸ List.mem_map_of_mem hm), hrows]
  show replace (pre ++ old :: post) key r = pre ++ r :: post
  unfold replace at hp hq ⊢
  rw [List.map_append, List.map_cons, hp, hq, if_pos hk]

/-! ## A collection of images -/

section

variable {ρ' κ' : Type*} {key' : ρ' → κ'} {name : κ' → κ} {f : ρ' → ρ} {t : Keyed key} {u : Keyed key'}

omit [DecidableEq κ] in
theorem keys_image (hf : ∀ r, key (f r) = name (key' r)) (h : t.rows = u.rows.map f) :
    t.rows.map key = (u.rows.map key').map name := by
  rw [h, List.map_map, List.map_map]
  exact List.map_congr_left fun r _ => hf r

variable [DecidableEq κ']

theorem get_image (hn : Function.Injective name) (hf : ∀ r, key (f r) = name (key' r)) (h : t.rows = u.rows.map f) (k : κ') :
    t.get (name k) = (u.get k).map f := by
  unfold get
  rw [h, List.find?_map]
  congr 2
  funext r
  rw [Function.comp_apply, hf, Bool.eq_iff_iff, beq_iff_eq, beq_iff_eq, hn.eq_iff]

theorem set_image (hn : Function.Injective name) (hf : ∀ r, key (f r) = name (key' r)) (h : t.rows = u.rows.map f) (r : ρ') :
    (t.set (f r)).rows = (u.set r).rows.map f := by
  by_cases hp : key' r ∈ u.rows.map key'
  · have hp' : key (f r) ∈ t.rows.map key := by
      rw [keys_image hf h, hf]
      exact List.mem_map_of_mem hp
    rw [set_present hp, set_present hp', h]
    unfold replace
    rw [List.map_map, List.map_map]
    refine List.map_congr_left fun x _ => ?_
    simp only [Function.comp, hf, hn.eq_iff, apply_ite f]
  · have hp' : key (f r) ∉ t.rows.map key := by
      rw [keys_image hf h, hf, List.mem_map_of_injective hn]
      exact hp
    rw [set_fresh hp, set_fresh hp', h, List.map_append, List.map_singleton]

end

section

variable {ρ' : Type*} {key' : ρ' → κ} {f : ρ' → ρ} {t : Keyed key} {u : Keyed key'}

theorem get_map (hf : ∀ r, key (f r) = key' r) (h : t.rows = u.rows.map f) (k : κ) : t.get k = (u.get k).map f :=
  get_image Function.injective_id hf h k

theorem set_map (hf : ∀ r, key (f r) = key' r) (h : t.rows = u.rows.map f) (r : ρ') :
    (t.set (f r)).rows = (u.set r).rows.map f :=
  set_image Function.injective_id hf h r

end

end Keyed

end Lib
