/-
  Lib.Serial — requests served one after the other.

  A service maps a state and a request to an answer and the next state. Two services
  that keep a relation between their states and answer alike under it answer every
  history alike (`answers_simulate`): the rule for showing that an implementation is
  what an abstract machine says.
-/

import Mathlib.Tactic.TypeStar

namespace Lib

variable {σ τ ε ω : Type*}

/-- The answers to the requests, in order, and the state after them. -/
def answers (serve : σ → ε → ω × σ) : σ → List ε → List ω × σ
  | s, [] => ([], s)
  | s, e :: es => ((serve s e).1 :: (answers serve (serve s e).2 es).1, (answers serve (serve s e).2 es).2)

variable {serve : σ → ε → ω × σ} {serve' : τ → ε → ω × τ}

theorem answers_append (s : σ) (es es' : List ε) :
    (answers serve s (es ++ es')).2 = (answers serve (answers serve s es).2 es').2 := by
  induction es generalizing s with
  | nil => rfl
  | cons e es ih => exact ih _

/-- What one request relates, and composes, relates the state to the one after a history. -/
theorem answers_relate {I : σ → Prop} {R : σ → σ → Prop} {es : List ε} (hI : ∀ s, ∀ e ∈ es, I s → I (serve s e).2)
    (hr : ∀ s, R s s) (ht : ∀ s t u, R s t → R t u → R s u) (hs : ∀ s, ∀ e ∈ es, I s → R s (serve s e).2) {s : σ} (h : I s) :
    R s (answers serve s es).2 := by
  induction es generalizing s with
  | nil => exact hr s
  | cons e es ih =>
    have hfirst := hs s e List.mem_cons_self h
    refine ht _ _ _ hfirst (ih (fun s e he => hI s e (List.mem_cons_of_mem _ he))
      (fun s e he => hs s e (List.mem_cons_of_mem _ he)) (hI s e List.mem_cons_self h))

/-- The rule of simulation. -/
theorem answers_simulate {R : σ → τ → Prop} {es : List ε}
    (hR : ∀ s t, ∀ e ∈ es, R s t → (serve s e).1 = (serve' t e).1 ∧ R (serve s e).2 (serve' t e).2) {s : σ} {t : τ} (h : R s t) :
    (answers serve s es).1 = (answers serve' t es).1 ∧ R (answers serve s es).2 (answers serve' t es).2 := by
  induction es generalizing s t with
  | nil => exact ⟨rfl, h⟩
  | cons e es ih =>
    obtain ⟨ha, hn⟩ := hR s t e List.mem_cons_self h
    obtain ⟨has, hns⟩ := ih (fun s t e he => hR s t e (List.mem_cons_of_mem _ he)) hn
    exact ⟨by rw [answers, answers, ha, has], hns⟩

end Lib
