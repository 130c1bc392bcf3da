/-
  Lib.CheckThenAct — actors that read a shared cell, act if they found it open, and
  write their decision afterwards.

  An actor sees the cell open (`see`), performs its effect (`act`) and writes a decision
  (`write`); between these steps anybody may move. The kinds of actors in `effectful`
  have an effect that counts. Nothing in the steps keeps two actors apart. What does:
  - `effects_le_one`: if no actor sees the cell open while a clashing one is between its
    own `see` and `write`, and effectful kinds clash, at most one effect happens;
  - `agreed`, `decision_final`: if moreover kinds that do not clash can only write one and
    the same decision, the first decision is final, and a decision that only quiet kinds
    write means that no effect happened.
  An actor that acted with an effect is counted whatever the others do (`acted_counted`).
-/

import Mathlib.Logic.Function.Basic
import SagaAgents.Lib.Machine

namespace Lib.CheckThenAct

variable {κ δ : Type*}

inductive Phase (κ : Type*) where
  | idle
  | saw (k : κ)
  | acted (k : κ)

structure Race (κ δ : Type*) where
  cell : Option δ
  phase : Nat → Phase κ
  effects : Nat

inductive Ev (κ δ : Type*) where
  | see (a : Nat) (k : κ)
  | act (a : Nat)
  | write (a : Nat) (d : δ)

variable (effectful : κ → Bool)

def step (s : Race κ δ) : Ev κ δ → Option (Race κ δ)
  | .see a k =>
    match s.cell, s.phase a with
    | none, .idle => some { s with phase := Function.update s.phase a (.saw k) }
    | _, _ => none
  | .act a =>
    match s.phase a with
    | .saw k => some { s with phase := Function.update s.phase a (.acted k),
                              effects := if effectful k then s.effects + 1 else s.effects }
    | _ => none
  | .write a d =>
    match s.phase a with
    | .acted _ => some { s with cell := some d, phase := Function.update s.phase a .idle }
    | _ => none

/-- The actor has seen the cell open and has not written. -/
def Race.Busy (s : Race κ δ) (a : Nat) (k : κ) : Prop := s.phase a = .saw k ∨ s.phase a = .acted k

/-- Nobody sees the cell open while a clashing actor is busy. -/
def Apart (clash : κ → κ → Prop) (s : Race κ δ) : Ev κ δ → Prop
  | .see _ k => ∀ b k', s.Busy b k' → ¬ clash k k'
  | _ => True

/-- An actor writes a decision of its kind. -/
def Bound (writes : κ → δ → Prop) (s : Race κ δ) : Ev κ δ → Prop
  | .write a d => ∀ k, s.phase a = .acted k → writes k d
  | _ => True

def Race.Fresh (s : Race κ δ) : Prop := (∀ a, s.phase a = .idle) ∧ s.effects = 0

variable {effectful} {clash : κ → κ → Prop} {writes : κ → δ → Prop} {s t : Race κ δ}

theorem step_cases {e : Ev κ δ} (h : step effectful s e = some t) :
    (∃ a k, e = .see a k ∧ s.cell = none ∧ s.phase a = .idle ∧
      t = { s with phase := Function.update s.phase a (.saw k) }) ∨
    (∃ a k, e = .act a ∧ s.phase a = .saw k ∧
      t = { s with phase := Function.update s.phase a (.acted k),
                   effects := if effectful k then s.effects + 1 else s.effects }) ∨
    (∃ a k d, e = .write a d ∧ s.phase a = .acted k ∧
      t = { s with cell := some d, phase := Function.update s.phase a .idle }) := by
  cases e with
  | see a k =>
    left
    simp only [step] at h
    split at h
    · rename_i hc hp; cases h; exact ⟨a, k, rfl, hc, hp, rfl⟩
    · cases h
  | act a =>
    right; left
    simp only [step] at h
    split at h
    · rename_i k hp; cases h; exact ⟨a, k, rfl, hp, rfl⟩
    · cases h
  | write a d =>
    right; right
    simp only [step] at h
    split at h
    · rename_i k hp; cases h; exact ⟨a, k, d, rfl, hp, rfl⟩
    · cases h

/-- After `a` moved to phase `p`, an actor is busy as `p` says, or it is another one
    and was busy before. -/
theorem busy_update {a b : Nat} {p : Phase κ} {k : κ} {c : Option δ} {n : Nat}
    (h : Race.Busy ⟨c, Function.update s.phase a p, n⟩ b k) : (b = a ∧ (p = .saw k ∨ p = .acted k)) ∨ (b ≠ a ∧ s.Busy b k) := by
  by_cases e : b = a
  · subst e; simpa [Race.Busy] using h
  · right
    refine ⟨e, ?_⟩
    simpa [Race.Busy, Function.update_of_ne e] using h

/-- To act makes nobody busy who was not. -/
theorem busy_act {a b : Nat} {k m : κ} {n : Nat} (hp : s.phase a = .saw k)
    (h : Race.Busy ⟨s.cell, Function.update s.phase a (.acted k), n⟩ b m) : s.Busy b m := by
  rcases busy_update h with ⟨e, hm⟩ | ⟨-, h⟩
  · have : k = m := by simpa using hm
    subst this; subst e
    exact Or.inl hp
  · exact h

/-- Whoever is busy after a write is another actor, and was busy before. -/
theorem busy_write {a b : Nat} {m : κ} {c : Option δ} {n : Nat}
    (h : Race.Busy ⟨c, Function.update s.phase a .idle, n⟩ b m) : b ≠ a ∧ s.Busy b m := by
  rcases busy_update h with ⟨-, e⟩ | h
  · simp at e
  · exact h

/-- Every effect so far is of an actor that has not written yet. -/
def Race.Unwritten (effectful : κ → Bool) (s : Race κ δ) : Prop :=
  s.effects = 0 ∨ ∃ a k, s.phase a = .acted k ∧ effectful k = true

theorem unwritten_update {a : Nat} {p : Phase κ} {c : Option δ} (hp : ∀ k, s.phase a ≠ .acted k)
    (h : s.Unwritten effectful) : Race.Unwritten effectful ⟨c, Function.update s.phase a p, s.effects⟩ := by
  rcases h with h0 | ⟨b, m, hb, hm⟩
  · exact Or.inl h0
  · right
    have hne : b ≠ a := by intro e; subst e; exact hp m hb
    exact ⟨b, m, by simpa [Function.update_of_ne hne] using hb, hm⟩

theorem unwritten_act {a : Nat} {k : κ} (hp : s.phase a = .saw k) (h : s.Unwritten effectful) :
    Race.Unwritten effectful ⟨s.cell, Function.update s.phase a (.acted k), if effectful k then s.effects + 1 else s.effects⟩ := by
  by_cases hk : effectful k = true
  · exact Or.inr ⟨a, k, by simp, hk⟩
  · rw [if_neg hk]
    refine unwritten_update (fun m hm => ?_) h
    rw [hp] at hm
    cases hm

/-! ## At most one effect -/

structure Single (effectful : κ → Bool) (s : Race κ δ) : Prop where
  alone : ∀ a b k k', s.Busy a k → s.Busy b k' → effectful k = true → effectful k' = true → a = b
  /-- While the cell is open, whoever acted is still busy. -/
  open_ : s.cell = none → s.Unwritten effectful
  before : ∀ a k, s.phase a = .saw k → effectful k = true → s.effects = 0
  once : s.effects ≤ 1

theorem single_see (hc : ∀ k k', effectful k = true → effectful k' = true → clash k k') (hs : Single effectful s) {a : Nat}
    {k : κ} (ho : ∀ b k', s.Busy b k' → ¬ clash k k') (hn : s.cell = none) (hi : s.phase a = .idle) :
    Single effectful { s with phase := Function.update s.phase a (.saw k) } := by
  -- an effectful actor enters alone: any other one would clash with it
  have clear : effectful k = true → ∀ b k', s.Busy b k' → effectful k' = true → False := by
    intro hk b k' hb hk'
    exact ho b k' hb (hc k k' hk hk')
  refine ⟨?_, fun h0 => unwritten_update (by simp [hi]) (hs.open_ h0), ?_, hs.once⟩
  · intro b b' m m' hb hb' hm hm'
    rcases busy_update hb with ⟨e1, e⟩ | ⟨-, old⟩ <;> rcases busy_update hb' with ⟨e1', e'⟩ | ⟨-, old'⟩
    · rw [e1, e1']
    · have : k = m := by simpa using e
      subst this; exact (clear hm _ _ old' hm').elim
    · have : k = m' := by simpa using e'
      subst this; exact (clear hm' _ _ old hm).elim
    · exact hs.alone _ _ _ _ old old' hm hm'
  · intro b m hb hm
    by_cases hba : b = a
    · subst hba
      have : k = m := by simpa using hb
      subst this
      rcases hs.open_ hn with h0 | ⟨c, m, hcb, hcm⟩
      · exact h0
      · exact (clear hm c m (Or.inr hcb) hcm).elim
    · exact hs.before b m (by simpa [Function.update_of_ne hba] using hb) hm

theorem single_act (hs : Single effectful s) {a : Nat} {k : κ} (hp : s.phase a = .saw k) :
    Single effectful { s with phase := Function.update s.phase a (.acted k),
                              effects := if effectful k then s.effects + 1 else s.effects } := by
  refine ⟨?_, fun h0 => unwritten_act hp (hs.open_ h0), ?_, ?_⟩
  · intro b b' m m' hb hb' hm hm'
    exact hs.alone _ _ _ _ (busy_act hp hb) (busy_act hp hb') hm hm'
  · intro b m hb hm
    have hne : b ≠ a := by intro e; subst e; simp at hb
    have hb : s.phase b = .saw m := by simpa [Function.update_of_ne hne] using hb
    by_cases hk : effectful k = true
    · exact absurd (hs.alone b a m k (Or.inl hb) (Or.inl hp) hm hk) hne
    · simpa [hk] using hs.before b m hb hm
  · by_cases hk : effectful k = true
    · simp [hk, hs.before a k hp hk]
    · simpa [hk] using hs.once

theorem single_write (hs : Single effectful s) (a : Nat) (d : δ) :
    Single effectful { s with cell := some d, phase := Function.update s.phase a .idle } := by
  refine ⟨?_, fun h0 => (by cases h0), ?_, hs.once⟩
  · intro b b' m m' hb hb' hm hm'
    exact hs.alone _ _ _ _ (busy_write hb).2 (busy_write hb').2 hm hm'
  · intro b m hb hm
    have hne : b ≠ a := by intro e; subst e; simp at hb
    exact hs.before b m (by simpa [Function.update_of_ne hne] using hb) hm

theorem single_step (hc : ∀ k k', effectful k = true → effectful k' = true → clash k k') (t u : Race κ δ) (e : Ev κ δ)
    (hs : Single effectful t) (ho : Apart clash t e) (h : step effectful t e = some u) : Single effectful u := by
  rcases step_cases h with ⟨a, k, rfl, hn, hi, rfl⟩ | ⟨a, k, rfl, hp, rfl⟩ | ⟨a, k, d, rfl, -, rfl⟩
  · exact single_see hc hs ho hn hi
  · exact single_act hs hp
  · exact single_write hs a d

theorem Race.Fresh.idle (h : s.Fresh) {a : Nat} {k : κ} : ¬ s.Busy a k := by
  simp [Race.Busy, h.1 a]

theorem fresh_single (h : s.Fresh) : Single effectful s :=
  ⟨fun _ _ _ _ hb _ _ _ => (h.idle hb).elim, fun _ => Or.inl h.2, fun _ _ hp _ => (h.idle (Or.inl hp)).elim,
    by rw [h.2]; exact Nat.zero_le _⟩

theorem effects_le_one (hc : ∀ k k', effectful k = true → effectful k' = true → clash k k')
    (h : Run (step effectful) (Apart clash) s t) (h0 : s.Fresh) : t.effects ≤ 1 :=
  (h.invariant (fun t e u hs ho h => single_step hc t u e hs ho h) (fresh_single h0)).once

/-! ## Agreement -/

/-- The cell is decided as `d`: whoever is busy will write `d` again. -/
structure Agreed (effectful : κ → Bool) (clash : κ → κ → Prop) (writes : κ → δ → Prop) (s : Race κ δ) : Prop where
  apart : ∀ a b k k', a ≠ b → s.Busy a k → s.Busy b k' → ¬ clash k k'
  decided : ∀ d, s.cell = some d → ∀ a k, s.Busy a k → ∀ d', writes k d' → d' = d
  open_ : s.cell = none → s.Unwritten effectful
  quiet : ∀ d, s.cell = some d → (∀ k, writes k d → effectful k = false) → s.effects = 0

/-- The assumptions on kinds: clashing is symmetric, every effectful kind can write
    something, and kinds that do not clash can only write one decision. -/
structure Kinds (effectful : κ → Bool) (clash : κ → κ → Prop) (writes : κ → δ → Prop) : Prop where
  symm : ∀ k k', clash k k' → clash k' k
  writer : ∀ k, effectful k = true → ∃ d, writes k d
  same : ∀ k k', ¬ clash k k' → ∀ d d', writes k d → writes k' d' → d = d'

theorem agreed_see (hk : Kinds effectful clash writes) (hs : Agreed effectful clash writes s) {a : Nat} {k : κ}
    (ho : ∀ b k', s.Busy b k' → ¬ clash k k') (hn : s.cell = none) (hi : s.phase a = .idle) :
    Agreed effectful clash writes { s with phase := Function.update s.phase a (.saw k) } := by
  refine ⟨?_, ?_, fun h0 => unwritten_update (by simp [hi]) (hs.open_ h0), ?_⟩
  · intro b b' m m' hne hb hb'
    rcases busy_update hb with ⟨e1, e⟩ | ⟨-, old⟩ <;> rcases busy_update hb' with ⟨e1', e'⟩ | ⟨-, old'⟩
    · exact absurd (e1.trans e1'.symm) hne
    · have : k = m := by simpa using e
      subst this; exact ho _ _ old'
    · have : k = m' := by simpa using e'
      subst this; exact fun hcl => ho _ _ old (hk.symm _ _ hcl)
    · exact hs.apart _ _ _ _ hne old old'
  · intro d hd
    cases hn.symm.trans hd
  · intro d hd
    cases hn.symm.trans hd

theorem agreed_act (hk : Kinds effectful clash writes) (hs : Agreed effectful clash writes s) {a : Nat} {k : κ}
    (hp : s.phase a = .saw k) :
    Agreed effectful clash writes { s with phase := Function.update s.phase a (.acted k),
                                           effects := if effectful k then s.effects + 1 else s.effects } := by
  refine ⟨?_, ?_, fun h0 => unwritten_act hp (hs.open_ h0), ?_⟩
  · intro b b' m m' hne hb hb'
    exact hs.apart _ _ _ _ hne (busy_act hp hb) (busy_act hp hb')
  · intro d hd b m hb
    exact hs.decided d hd b m (busy_act hp hb)
  · intro d hd hq
    by_cases hke : effectful k = true
    · -- an effectful actor cannot be busy once a quiet decision stands
      obtain ⟨d', hd'⟩ := hk.writer k hke
      have := hs.decided d hd a k (Or.inl hp) d' hd'
      subst this
      rw [hq k hd'] at hke
      cases hke
    · simpa [hke] using hs.quiet d hd hq

/-- An actor that writes a quiet decision finds no effect. -/
theorem quiet_write (hk : Kinds effectful clash writes) (hs : Agreed effectful clash writes s) {a : Nat} {k : κ} {d : δ}
    (hp : s.phase a = .acted k) (hw : writes k d) (hq : ∀ k, writes k d → effectful k = false) : s.effects = 0 := by
  have hab : s.Busy a k := Or.inr hp
  cases hcell : s.cell with
  | none =>
    rcases hs.open_ hcell with h0 | ⟨b, m, hb, hm⟩
    · exact h0
    · have hne : b ≠ a := by
        intro e
        subst e
        cases hp.symm.trans hb
        rw [hq _ hw] at hm
        cases hm
      obtain ⟨x, hx⟩ := hk.writer m hm
      have := hk.same m k (hs.apart b a m k hne (Or.inr hb) hab) x d hx hw
      subst this
      rw [hq m hx] at hm
      cases hm
  | some c =>
    have := hs.decided c hcell a k hab d hw
    subst this
    exact hs.quiet d hcell hq

theorem agreed_write (hk : Kinds effectful clash writes) (hs : Agreed effectful clash writes s) {a : Nat} {k : κ} {d : δ}
    (hp : s.phase a = .acted k) (hw : writes k d) :
    Agreed effectful clash writes { s with cell := some d, phase := Function.update s.phase a .idle } := by
  refine ⟨?_, ?_, fun h0 => (by cases h0), ?_⟩
  · intro b b' m m' hne hb hb'
    exact hs.apart _ _ _ _ hne (busy_write hb).2 (busy_write hb').2
  · intro d' hd' b m hb x hx
    cases hd'
    obtain ⟨hne, hb⟩ := busy_write hb
    exact hk.same m k (hs.apart b a m k hne hb (Or.inr hp)) x d hx hw
  · intro d' hd' hq
    cases hd'
    show s.effects = 0
    exact quiet_write hk hs hp hw hq

theorem agreed_step (hk : Kinds effectful clash writes) (t u : Race κ δ) (e : Ev κ δ)
    (hs : Agreed effectful clash writes t) (ho : Apart clash t e ∧ Bound writes t e)
    (h : step effectful t e = some u) : Agreed effectful clash writes u := by
  obtain ⟨ha, hb⟩ := ho
  rcases step_cases h with ⟨a, k, rfl, hn, hi, rfl⟩ | ⟨a, k, rfl, hp, rfl⟩ | ⟨a, k, d, rfl, hp, rfl⟩
  · exact agreed_see hk hs ha hn hi
  · exact agreed_act hk hs hp
  · exact agreed_write hk hs hp (hb k hp)

theorem fresh_agreed (h : s.Fresh) : Agreed effectful clash writes s :=
  ⟨fun _ _ _ _ _ hb _ => (h.idle hb).elim, fun _ _ _ _ hb => (h.idle hb).elim, fun _ => Or.inl h.2, fun _ _ _ => h.2⟩

theorem agreed (hk : Kinds effectful clash writes)
    (h : Run (step effectful) (fun s e => Apart clash s e ∧ Bound writes s e) s t)
    (h0 : Agreed effectful clash writes s) : Agreed effectful clash writes t :=
  h.invariant (fun t e u hs ho h => agreed_step hk t u e hs ho h) h0

theorem cell_final {e : Ev κ δ} {d : δ} (hs : Agreed effectful clash writes s) (hb : Bound writes s e)
    (h : step effectful s e = some t) (hd : s.cell = some d) : t.cell = some d := by
  rcases step_cases h with ⟨a, k, rfl, hn, -, rfl⟩ | ⟨a, k, rfl, hp, rfl⟩ | ⟨a, k, d', rfl, hp, rfl⟩
  · rw [hn] at hd; cases hd
  · exact hd
  · rw [hs.decided d hd a k (Or.inr hp) d' (hb k hp)]

/-- The first decision is final. -/
theorem decision_final (hk : Kinds effectful clash writes)
    (h : Run (step effectful) (fun s e => Apart clash s e ∧ Bound writes s e) s t)
    (h0 : Agreed effectful clash writes s) {d : δ} (hd : s.cell = some d) : t.cell = some d := by
  have hrel : s.cell = some d → t.cell = some d := by
    refine h.relate (I := Agreed effectful clash writes) (R := fun s t => s.cell = some d → t.cell = some d)
      (fun t e u hs ho h => agreed_step hk t u e hs ho h) (fun _ h => h) (fun _ _ _ h h' hd => h' (h hd))
      (fun _ _ _ hs ho h => cell_final hs ho.2 h) h0
  exact hrel hd

/-- Whoever acted with an effect is counted, whatever the others do. -/
theorem acted_counted {ok : Race κ δ → Ev κ δ → Prop} (h : Run (step effectful) ok s t) (h0 : s.Fresh) {a : Nat} {k : κ}
    (ha : t.phase a = .acted k) (hk : effectful k = true) : 1 ≤ t.effects := by
  have hI : ∀ a k, t.phase a = .acted k → effectful k = true → 1 ≤ t.effects := by
    refine h.invariant (I := fun s => ∀ a k, s.phase a = .acted k → effectful k = true → 1 ≤ s.effects)
      (fun t u e hs _ hst => ?_) (fun a k ha _ => (h0.idle (Or.inr ha)).elim)
    intro b m hb hm
    rcases step_cases hst with ⟨a, k, rfl, -, -, rfl⟩ | ⟨a, k, rfl, hp, rfl⟩ | ⟨a, k, d, rfl, -, rfl⟩
    · have hne : b ≠ a := by intro e; subst e; simp at hb
      exact hs b m (by simpa [Function.update_of_ne hne] using hb) hm
    · by_cases e : b = a
      · subst e
        have : k = m := by simpa using hb
        simp [this, hm]
      · have := hs b m (by simpa [Function.update_of_ne e] using hb) hm
        simp only
        split <;> omega
    · have hne : b ≠ a := by intro e; subst e; simp at hb
      exact hs b m (by simpa [Function.update_of_ne hne] using hb) hm
  exact hI a k ha hk

end Lib.CheckThenAct
