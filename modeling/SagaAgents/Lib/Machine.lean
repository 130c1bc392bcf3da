/-
  Lib.Machine — finite runs of a machine with partial steps.

  A machine is a function `step : σ → ε → Option σ`: in a state an event is either
  disabled or leads to one next state. What the environment chooses (who moves next,
  what a call returns, whether it fails) is part of the event, so the runs of the
  machine are all interleavings of all outcomes. A run is guarded by `ok`, the events
  it may take in each state; `fun _ _ => True` allows every enabled event.

  What holds of each item of a sequence and the items in front of it is proved item by item
  (`forall_split_cons`).
-/

import Mathlib.Tactic.TypeStar

namespace Lib

variable {σ ε : Type*}

inductive Run (step : σ → ε → Option σ) (ok : σ → ε → Prop) : σ → σ → Prop
  | refl (s : σ) : Run step ok s s
  | tail {s t u : σ} (e : ε) : Run step ok s t → ok t e → step t e = some u → Run step ok s u

variable {step : σ → ε → Option σ} {ok ok' : σ → ε → Prop} {s t u : σ}

namespace Run

theorem trans (h : Run step ok s t) (h' : Run step ok t u) : Run step ok s u := by
  induction h' with
  | refl => exact h
  | tail e _ ho hs ih => exact ih.tail e ho hs

theorem single (e : ε) (ho : ok s e) (hs : step s e = some t) : Run step ok s t :=
  (Run.refl s).tail e ho hs

/-- A run under a guard is a run under every weaker one. -/
theorem mono (hw : ∀ s e, ok s e → ok' s e) (h : Run step ok s t) : Run step ok' s t := by
  induction h with
  | refl => exact .refl _
  | tail e _ ho hs ih => exact ih.tail e (hw _ _ ho) hs

/-- What every allowed step keeps holds at the end of the run. -/
theorem invariant {I : σ → Prop} (hI : ∀ t e u, I t → ok t e → step t e = some u → I u)
    (h : Run step ok s t) (h0 : I s) : I t := by
  induction h with
  | refl => exact h0
  | tail e _ ho hs ih => exact hI _ e _ ih ho hs

/-- What every allowed step keeps between its two ends, and composes, holds between
    the two ends of the run; the invariant `I` is at hand at each step. -/
theorem relate {I : σ → Prop} {R : σ → σ → Prop} (hI : ∀ t e u, I t → ok t e → step t e = some u → I u)
    (hr : ∀ s, R s s) (ht : ∀ s t u, R s t → R t u → R s u)
    (hs : ∀ t e u, I t → ok t e → step t e = some u → R t u) (h : Run step ok s t) (h0 : I s) : R s t := by
  induction h with
  | refl => exact hr _
  | tail e h ho hst ih => exact ht _ _ _ ih (hs _ e _ (h.invariant hI h0) ho hst)

/-- A map that sends every allowed step to a run of another machine sends runs to runs. -/
theorem simulate {σ' ε' : Type*} {step' : σ' → ε' → Option σ'} {okImage : σ' → ε' → Prop} {I : σ → Prop} (f : σ → σ')
    (hI : ∀ t e u, I t → ok t e → step t e = some u → I u)
    (hf : ∀ t e u, I t → ok t e → step t e = some u → Run step' okImage (f t) (f u))
    (h : Run step ok s t) (h0 : I s) : Run step' okImage (f s) (f t) := by
  induction h with
  | refl => exact .refl _
  | tail e h ho hs ih => exact ih.trans (hf _ e _ (h.invariant hI h0) ho hs)

/-- Where every state short of `done` has an allowed step down a rank, a run leads to
    `done`. -/
theorem exists_done {I done : σ → Prop} (rank : σ → Nat) (hI : ∀ t e u, I t → ok t e → step t e = some u → I u)
    (hd : ∀ s, I s → ¬ done s → ∃ e t, ok s e ∧ step s e = some t ∧ rank t < rank s) (h0 : I s) :
    ∃ t, Run step ok s t ∧ done t := by
  induction hn : rank s using Nat.strongRecOn generalizing s with
  | ind n ih =>
    by_cases hs : done s
    · exact ⟨s, .refl s, hs⟩
    · obtain ⟨e, t, ho, hst, hlt⟩ := hd s h0 hs
      obtain ⟨u, hr, hu⟩ := ih (rank t) (hn ▸ hlt) (hI s e t h0 ho hst) rfl
      exact ⟨u, (Run.single e ho hst).trans hr, hu⟩

end Run

/-! ## Executing a list of events -/

variable (step ok)
variable [∀ s e, Decidable (ok s e)]

def exec : σ → List ε → Option σ
  | s, [] => some s
  | s, e :: es => if ok s e then (step s e).bind fun t => exec t es else none

variable {step ok}

theorem Run.of_exec {es : List ε} (h : exec step ok s es = some t) : Run step ok s t := by
  induction es generalizing s with
  | nil => cases h; exact .refl _
  | cons e es ih =>
    simp only [exec] at h
    split at h
    · rename_i ho
      obtain ⟨u, hu, hr⟩ := Option.bind_eq_some_iff.mp h
      exact (Run.single e ho hu).trans (ih hr)
    · cases h

/-- Where every allowed step goes down a rank, no list of them is longer than the rank. -/
theorem length_le_of_exec {I : σ → Prop} (rank : σ → Nat) (hI : ∀ t e u, I t → ok t e → step t e = some u → I u)
    (hd : ∀ t e u, I t → ok t e → step t e = some u → rank u < rank t) {es : List ε} (h : exec step ok s es = some t)
    (h0 : I s) : es.length ≤ rank s := by
  induction es generalizing s with
  | nil => exact Nat.zero_le _
  | cons e es ih =>
    simp only [exec] at h
    split at h
    · rename_i ho
      obtain ⟨u, hu, hr⟩ := Option.bind_eq_some_iff.mp h
      have hrest := ih hr (hI s e u h0 ho hu)
      have hlt := hd s e u h0 ho hu
      rw [List.length_cons]
      omega
    · cases h

variable (step ok)

/-- A run found by computing it: the events are enabled, and `p` holds at the end. -/
theorem Run.exists_of_exec (s : σ) (es : List ε) (p : σ → Bool) (h : (exec step ok s es).any p = true) :
    ∃ t, Run step ok s t ∧ p t = true := by
  cases he : exec step ok s es with
  | none => simp [he] at h
  | some t => exact ⟨t, Run.of_exec he, by simpa [he] using h⟩

/-! ## Each item of a sequence -/

section

variable {α : Type*} {P : List α → α → Prop} {a : α} {as : List α}

theorem forall_split_nil : ∀ before b rest, ([] : List α) = before ++ b :: rest → P before b := by
  intro before b rest e
  cases before <;> cases e

theorem forall_split_cons :
    (∀ before b rest, a :: as = before ++ b :: rest → P before b) ↔
      P [] a ∧ ∀ before b rest, as = before ++ b :: rest → P (a :: before) b := by
  constructor
  · intro h
    refine ⟨h [] a as rfl, fun before b rest e => ?_⟩
    exact h (a :: before) b rest (by rw [e]; rfl)
  · rintro ⟨hfirst, h⟩ before b rest e
    cases before with
    | nil =>
      cases e
      exact hfirst
    | cons c before =>
      cases e
      exact h before b rest rfl

end

end Lib
