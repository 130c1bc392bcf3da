/-
  Lib.Timeout — awaits under a deadline, as `asyncio.timeout` sets one.

  An await ends by itself after some time, or never, with a result or an exception. Under
  a deadline it may be cancelled before that: then the cancellation leaves it, or an
  exception it raises instead. A context is entered, its body is awaited, and it is left
  however the body ended. At the deadline whatever is awaited is cancelled, once; the
  timeout turns a cancellation that leaves its block into its own exception and lets any
  other through.

  What has taken no time has not waited, so no deadline cancels it.

  Proved: `under_own`, `under_cut`. A block under a deadline ends as it would alone iff it
  would end in time, and is cut short otherwise.
-/

import Mathlib.Algebra.Order.Monoid.Canonical.Defs
import Mathlib.Tactic.TypeStar

namespace Lib

variable {τ ε α : Type*}

/-- `ends`: after how long, and with what. `cancelled`: what it raises when it is
    cancelled, if not the cancellation. -/
structure Await (τ ε α : Type*) where
  ends : Option (τ × Except ε α)
  cancelled : Option ε := none

/-- How an await ends under a deadline: by itself at a time, or cut short. -/
inductive Ended (τ ε α : Type*) where
  | own (t : τ) (r : Except ε α)
  | cut (x : Option ε)

/-- What ends at `t` ends before the deadline. -/
def InTime [Zero τ] [LT τ] (deadline t : τ) : Prop := t = 0 ∨ t < deadline

instance [Zero τ] [LinearOrder τ] (deadline t : τ) : Decidable (InTime deadline t) := inferInstanceAs (Decidable (_ ∨ _))

/-- The await starts at `now`. -/
def Await.under [AddMonoid τ] [LinearOrder τ] (w : Await τ ε α) (deadline now : τ) : Ended τ ε α :=
  match w.ends with
  | some (d, r) => if InTime deadline (now + d) then .own (now + d) r else .cut w.cancelled
  | none => .cut w.cancelled

/-! ## Contexts -/

/-- `async with` around an await. `leaveCut`: what leaving raises once the body was cut. -/
structure Managed (τ ε α : Type*) where
  enter : Await τ ε Unit
  body : Await τ ε α
  leave : Await τ ε Unit
  leaveCut : Option ε := none

/-- What leaving raises takes the place of what the body came to. -/
def leaving (l : Except ε Unit) (r : Except ε α) : Except ε α := l.bind fun _ => r

namespace Managed

variable [AddMonoid τ] [LinearOrder τ]

/-- When the block would end, and with what, without a deadline. -/
def alone (m : Managed τ ε α) : Option (τ × Except ε α) :=
  m.enter.ends.bind fun p =>
    match p.2 with
    | .error e => some (p.1, .error e)
    | .ok _ => m.body.ends.bind fun q => m.leave.ends.map fun l => (p.1 + q.1 + l.1, leaving l.2 q.2)

def under (m : Managed τ ε α) (deadline : τ) : Ended τ ε α :=
  match m.enter.under deadline 0 with
  | .cut x => .cut x
  | .own t (.error e) => .own t (.error e)
  | .own t (.ok _) =>
    match m.body.under deadline t with
    | .cut x => .cut (m.leaveCut.or x)
    | .own t r =>
      match m.leave.under deadline t with
      | .cut x => .cut x
      | .own t l => .own t (leaving l r)

/-- The body is started. -/
def reached (m : Managed τ ε α) (deadline : τ) : Bool :=
  match m.enter.under deadline 0 with
  | .own _ (.ok _) => true
  | _ => false

/-- `asyncio.timeout` around the block. -/
def timeout (m : Managed τ ε α) (deadline : τ) (timeoutError : ε) : Except ε α :=
  match m.under deadline with
  | .own _ r => r
  | .cut none => .error timeoutError
  | .cut (some e) => .error e

end Managed

/-! ## Blocks that end in time -/

section

variable [AddMonoid τ] [LinearOrder τ] {deadline t : τ}

theorem InTime.of_le [CanonicallyOrderedAdd τ] {s : τ} (h : InTime deadline t) (hs : s ≤ t) : InTime deadline s := by
  rcases h with e | h
  · subst e
    exact Or.inl (le_antisymm hs zero_le)
  · exact Or.inr (lt_of_le_of_lt hs h)

theorem Await.under_own {w : Await τ ε α} {now : τ} {r : Except ε α} :
    w.under deadline now = .own t r ↔ ∃ d, w.ends = some (d, r) ∧ t = now + d ∧ InTime deadline t := by
  unfold Await.under
  split
  · rename_i d r' h
    split
    · rename_i ht
      constructor
      · intro e
        cases e
        exact ⟨d, h, rfl, ht⟩
      · rintro ⟨d', h', rfl, -⟩
        rw [h] at h'
        cases h'
        rfl
    · rename_i ht
      constructor
      · intro e
        cases e
      · rintro ⟨d', h', rfl, ht'⟩
        rw [h] at h'
        cases h'
        exact absurd ht' ht
  · rename_i h
    constructor
    · intro e
      cases e
    · rintro ⟨d, h', -⟩
      rw [h] at h'
      cases h'

namespace Managed

variable {m : Managed τ ε α} {r : Except ε α}

/-- A block ends by itself where entering raises, or where each of its parts ends by itself. -/
theorem under_parts : m.under deadline = .own t r ↔
    (∃ e, m.enter.under deadline 0 = .own t (.error e) ∧ r = .error e) ∨
      ∃ t₁ u t₂ q l, m.enter.under deadline 0 = .own t₁ (.ok u) ∧ m.body.under deadline t₁ = .own t₂ q ∧
        m.leave.under deadline t₂ = .own t l ∧ r = leaving l q := by
  constructor
  · intro h
    unfold under at h
    split at h
    · cases h
    · rename_i e he
      cases h
      exact Or.inl ⟨e, he, rfl⟩
    · rename_i t₁ u he
      split at h
      · cases h
      · rename_i t₂ q hb
        split at h
        · cases h
        · rename_i t₃ l hl
          cases h
          exact Or.inr ⟨t₁, u, t₂, q, l, he, hb, hl, rfl⟩
  · rintro (⟨e, he, rfl⟩ | ⟨t₁, u, t₂, q, l, he, hb, hl, rfl⟩)
    · simp [under, he]
    · simp [under, he, hb, hl]

omit [LinearOrder τ] in
/-- A block returns where each of its parts does. -/
theorem alone_ok {a : α} (h : m.alone = some (t, .ok a)) :
    (∃ d u, m.enter.ends = some (d, .ok u)) ∧ (∃ d, m.body.ends = some (d, .ok a)) ∧ ∃ d u, m.leave.ends = some (d, .ok u) := by
  obtain ⟨⟨d₁, r₁⟩, h₁, h⟩ := Option.bind_eq_some_iff.mp h
  cases r₁ with
  | error e => cases h
  | ok u =>
    obtain ⟨⟨d₂, q⟩, h₂, h⟩ := Option.bind_eq_some_iff.mp h
    obtain ⟨⟨d₃, l⟩, h₃, h⟩ := Option.map_eq_some_iff.mp h
    cases l with
    | error e => cases h
    | ok v =>
      cases h
      exact ⟨⟨d₁, u, h₁⟩, ⟨d₂, h₂⟩, d₃, v, h₃⟩

/-- Under a deadline a block ends by itself iff it would end in time. -/
theorem under_own [CanonicallyOrderedAdd τ] : m.under deadline = .own t r ↔ m.alone = some (t, r) ∧ InTime deadline t := by
  rw [under_parts]
  constructor
  · rintro (⟨e, he, rfl⟩ | ⟨t₁, u, t₂, q, l, he, hb, hl, rfl⟩)
    · obtain ⟨d, hd, rfl, ht⟩ := Await.under_own.mp he
      exact ⟨by simp [alone, hd], ht⟩
    · obtain ⟨d₁, h₁, rfl, -⟩ := Await.under_own.mp he
      obtain ⟨d₂, h₂, rfl, -⟩ := Await.under_own.mp hb
      obtain ⟨d₃, h₃, rfl, ht⟩ := Await.under_own.mp hl
      exact ⟨by simp [alone, h₁, h₂, h₃], ht⟩
  · rintro ⟨h, ht⟩
    obtain ⟨⟨d₁, r₁⟩, h₁, h⟩ := Option.bind_eq_some_iff.mp h
    cases r₁ with
    | error e =>
      cases h
      exact Or.inl ⟨e, Await.under_own.mpr ⟨d₁, h₁, (zero_add d₁).symm, ht⟩, rfl⟩
    | ok u =>
      obtain ⟨⟨d₂, q⟩, h₂, h⟩ := Option.bind_eq_some_iff.mp h
      obtain ⟨⟨d₃, l⟩, h₃, h⟩ := Option.map_eq_some_iff.mp h
      cases h
      -- what ends earlier ends in time as well
      have h12 : InTime deadline (d₁ + d₂) := ht.of_le (le_self_add)
      refine Or.inr ⟨d₁, u, d₁ + d₂, q, l, ?_, ?_, ?_, rfl⟩
      · exact Await.under_own.mpr ⟨d₁, h₁, (zero_add d₁).symm, h12.of_le (le_self_add)⟩
      · exact Await.under_own.mpr ⟨d₂, h₂, rfl, h12⟩
      · exact Await.under_own.mpr ⟨d₃, h₃, rfl, ht⟩

/-- It is cut short iff it would not. -/
theorem under_cut [CanonicallyOrderedAdd τ] : (∃ x, m.under deadline = .cut x) ↔ ∀ t r, m.alone = some (t, r) → ¬ InTime deadline t := by
  constructor
  · rintro ⟨x, hx⟩ t r ha ht
    rw [under_own.mpr ⟨ha, ht⟩] at hx
    cases hx
  · intro h
    cases hu : m.under deadline with
    | cut x => exact ⟨x, rfl⟩
    | own t r =>
      obtain ⟨ha, ht⟩ := under_own.mp hu
      exact absurd ht (h t r ha)

end Managed

end

end Lib
