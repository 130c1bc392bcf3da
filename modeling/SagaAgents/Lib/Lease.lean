/-
  Lib.Lease — keys held under a lease: `SET key token NX EX ttl` and a
  compare-and-delete by token (a Redis lock).

  A key is free when nobody set it, when its owner deleted it, or from its expiry on.
  `Holds` says that a token has a key until a time; while that time has not come, no
  other operation than the owner's own delete ends it (`holds_setNx`,
  `holds_compareAndDelete`), and two tokens cannot hold one key (`holds_unique`).
-/

import Mathlib.Logic.Function.Basic
import Mathlib.Order.Lattice

namespace Lib

variable {κ τ T : Type*}

structure Lease (τ T : Type*) where
  token : τ
  expires : T
  deriving DecidableEq, Repr

namespace Lease

abbrev Store (κ τ T : Type*) := κ → Option (Lease τ T)

variable [DecidableEq κ] [DecidableEq τ] [LinearOrder T]

/-- The token a reader at `now` finds under the key. -/
def live (s : Store κ τ T) (now : T) (k : κ) : Option τ :=
  (s k).bind fun l => if now < l.expires then some l.token else none

/-- `SET k t NX EX`: succeeds when the key is free. -/
def setNx (s : Store κ τ T) (now : T) (k : κ) (t : τ) (expires : T) : Bool × Store κ τ T :=
  if (live s now k).isSome then (false, s) else (true, Function.update s k (some ⟨t, expires⟩))

/-- Delete the key if it holds this token. -/
def compareAndDelete (s : Store κ τ T) (now : T) (k : κ) (t : τ) : Bool × Store κ τ T :=
  if live s now k = some t then (true, Function.update s k none) else (false, s)

/-- `t` has `k` until `u`. -/
def Holds (s : Store κ τ T) (k : κ) (t : τ) (u : T) : Prop := s k = some ⟨t, u⟩

omit [DecidableEq κ] [DecidableEq τ] [LinearOrder T] in
theorem holds_unique {s : Store κ τ T} {k : κ} {t t' : τ} {u u' : T} (h : Holds s k t u) (h' : Holds s k t' u') :
    t = t' := by
  have := h.symm.trans h'
  cases this
  rfl

omit [DecidableEq κ] [DecidableEq τ] in
theorem holds_live {s : Store κ τ T} {now : T} {k : κ} {t : τ} {u : T} (h : Holds s k t u) (hn : now < u) :
    live s now k = some t := by
  simp only [live, show s k = _ from h, Option.bind_some, hn, if_true]

omit [DecidableEq τ] in
theorem setNx_holds {s s' : Store κ τ T} {now : T} {k : κ} {t : τ} {u : T} (h : setNx s now k t u = (true, s')) :
    Holds s' k t u := by
  simp only [setNx] at h
  split at h
  · cases h
  · cases h; simp [Holds]

omit [DecidableEq τ] in
/-- A key that is held survives every `SET NX` before its expiry. -/
theorem holds_setNx {s s' : Store κ τ T} {now : T} {k k' : κ} {t t' : τ} {u u' : T} {b : Bool}
    (h : Holds s k t u) (hn : now < u) (hs : setNx s now k' t' u' = (b, s')) : Holds s' k t u := by
  simp only [setNx] at hs
  split at hs
  · cases hs; exact h
  · rename_i hl
    cases hs
    have hne : k ≠ k' := by
      rintro rfl; simp [holds_live h hn] at hl
    simpa [Holds, Function.update_of_ne hne] using h

/-- A key that is held survives every delete under another token. -/
theorem holds_compareAndDelete {s s' : Store κ τ T} {now : T} {k k' : κ} {t t' : τ} {u : T} {b : Bool}
    (h : Holds s k t u) (ht : t ≠ t') (hs : compareAndDelete s now k' t' = (b, s')) : Holds s' k t u := by
  simp only [compareAndDelete] at hs
  split at hs
  · rename_i hl
    cases hs
    have hne : k ≠ k' := by
      rintro rfl
      simp only [live, show s k = _ from h, Option.bind_some] at hl
      split at hl
      · exact ht (Option.some.inj hl)
      · cases hl
    simpa [Holds, Function.update_of_ne hne] using h
  · cases hs; exact h

end Lease

end Lib
