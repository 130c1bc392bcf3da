/-
  Lib.Linear — concurrent calls of a service, each of which takes effect at one instant.

  A trace says which calls were made and what they were answered, in the order in which
  this happened. The service it is compared with serves one call after the other
  (`Lib.Serial`). A linearization is an order of the calls that have taken effect:
  - every call that was answered is in it, with the answer it gets when they are served in
    this order;
  - a call that was answered before another one was made is in front of it.
  A call that was made and not answered may be in it or not.

  A trace and its linearization grow together: a call is made (`invoke`), it takes effect
  (`effect`), it is answered what it got there (`respond`). So whatever takes these steps,
  for each call at most once and in this order, is linearizable.
-/

import Mathlib.Data.List.Nodup
import SagaAgents.Lib.Serial

namespace Lib

inductive Act (ι ρ ω : Type*) where
  | invoke (i : ι) (r : ρ)
  | respond (i : ι) (a : ω)

namespace Linear

variable {ι ρ ω τ ε : Type*}

/-- The state after these calls. -/
def state (serve : τ → ε → ω × τ) (start : τ) (lin : List (ι × ε)) : τ := (answers serve start (lin.map Prod.snd)).2

/-- The calls and what each of them gets. -/
def taken (serve : τ → ε → ω × τ) (start : τ) (lin : List (ι × ε)) : List (ι × ω) :=
  (lin.map Prod.fst).zip (answers serve start (lin.map Prod.snd)).1

def Before (lin : List (ι × ε)) (i j : ι) : Prop := ∃ front op rest, lin = front ++ (i, op) :: rest ∧ j ∈ rest.map Prod.fst

/-- `fits r op`: `op` is what a call with request `r` may do. -/
structure Linearization (serve : τ → ε → ω × τ) (fits : ρ → ε → Prop) (start : τ) (trace : List (Act ι ρ ω))
    (lin : List (ι × ε)) : Prop where
  once : (lin.map Prod.fst).Nodup
  invoked : ∀ i op, (i, op) ∈ lin → ∃ r, Act.invoke i r ∈ trace ∧ fits r op
  answered : ∀ i a, Act.respond i a ∈ trace → (i, a) ∈ taken serve start lin
  order : ∀ before i a rest, trace = before ++ .respond i a :: rest →
    ∀ j r, Act.invoke j r ∈ rest → j ∈ lin.map Prod.fst → Before lin i j

variable {serve : τ → ε → ω × τ} {fits : ρ → ε → Prop} {start : τ} {trace : List (Act ι ρ ω)} {lin : List (ι × ε)} {i j : ι}

/-! ## One more call has taken effect -/

theorem answers_length (s : τ) (es : List ε) : (answers serve s es).1.length = es.length := by
  induction es generalizing s with
  | nil => rfl
  | cons e es ih => exact congrArg (· + 1) (ih _)

theorem answers_concat (s : τ) (es : List ε) (e : ε) :
    (answers serve s (es ++ [e])).1 = (answers serve s es).1 ++ [(serve (answers serve s es).2 e).1] := by
  induction es generalizing s with
  | nil => rfl
  | cons e' es ih => exact congrArg (List.cons _) (ih _)

theorem state_concat (i : ι) (op : ε) :
    state serve start (lin ++ [(i, op)]) = (serve (state serve start lin) op).2 := by
  rw [state, List.map_append, answers_append]
  rfl

theorem taken_concat (i : ι) (op : ε) :
    taken serve start (lin ++ [(i, op)]) = taken serve start lin ++ [(i, (serve (state serve start lin) op).1)] := by
  rw [taken, List.map_append, List.map_append, List.map_singleton, List.map_singleton, answers_concat, List.zip_append]
  · rfl
  · rw [answers_length, List.length_map, List.length_map]

/-- What a call got, it has got for good. -/
theorem taken_kept {a : ω} (h : (i, a) ∈ taken serve start lin) (p : ι × ε) : (i, a) ∈ taken serve start (lin ++ [p]) := by
  rw [taken_concat]
  exact List.mem_append_left _ h

theorem taken_new (serve : τ → ε → ω × τ) (start : τ) (lin : List (ι × ε)) (i : ι) (op : ε) : (i, (serve (state serve start lin) op).1) ∈ taken serve start (lin ++ [(i, op)]) := by
  rw [taken_concat]
  exact List.mem_append_right _ List.mem_cons_self

theorem mem_of_taken {a : ω} (h : (i, a) ∈ taken serve start lin) : i ∈ lin.map Prod.fst := (List.of_mem_zip h).1

theorem Before.later (h : Before lin i j) (p : ι × ε) : Before (lin ++ [p]) i j := by
  obtain ⟨front, op, rest, e, hj⟩ := h
  refine ⟨front, op, rest ++ [p], by simp [e], ?_⟩
  rw [List.map_append]
  exact List.mem_append_left _ hj

theorem before_last (h : i ∈ lin.map Prod.fst) (p : ι × ε) : Before (lin ++ [p]) i p.1 := by
  obtain ⟨⟨i', op⟩, hm, e⟩ := List.mem_map.mp h
  cases e
  obtain ⟨front, rest, e⟩ := List.append_of_mem hm
  exact ⟨front, op, rest ++ [p], by simp [e], by simp⟩

/-! ## The rules -/

theorem split_last {α : Type*} {l before rest : List α} {x y : α} (h : l ++ [x] = before ++ y :: rest) :
    (rest = [] ∧ x = y ∧ l = before) ∨ ∃ rest', rest = rest' ++ [x] ∧ l = before ++ y :: rest' := by
  rcases List.eq_nil_or_concat rest with e | ⟨rest', z, e⟩
  · subst e
    obtain ⟨hl, hx⟩ := List.append_inj' h rfl
    exact Or.inl ⟨rfl, by simpa using hx, hl⟩
  · right
    rw [e, List.concat_eq_append] at h ⊢
    have h' : l ++ [x] = (before ++ y :: rest') ++ [z] := by simpa using h
    obtain ⟨hl, hx⟩ := List.append_inj' h' rfl
    have hz : x = z := by simpa using hx
    exact ⟨rest', by rw [hz], hl⟩

namespace Linearization

theorem nil : Linearization serve fits start ([] : List (Act ι ρ ω)) [] :=
  ⟨List.nodup_nil, fun _ _ h => (by cases h), fun _ _ h => (by cases h), fun before i a rest e => by cases before <;> cases e⟩

theorem invoke (h : Linearization serve fits start trace lin) (hi : ∀ r, Act.invoke i r ∉ trace) (r : ρ) :
    Linearization serve fits start (trace ++ [.invoke i r]) lin := by
  refine ⟨h.once, fun j op hj => ?_, fun j a hj => ?_, fun before j a rest e k r' hk hlin => ?_⟩
  · obtain ⟨r', hr, hf⟩ := h.invoked j op hj
    exact ⟨r', List.mem_append_left _ hr, hf⟩
  · rcases List.mem_append.mp hj with hj | hj
    · exact h.answered j a hj
    · cases List.mem_singleton.mp hj
  · rcases split_last e with ⟨-, hx, -⟩ | ⟨rest', e', htrace⟩
    · cases hx
    · subst e'
      rcases List.mem_append.mp hk with hk | hk
      · exact h.order before j a rest' htrace k r' hk hlin
      · -- the new call has not taken effect
        cases List.mem_singleton.mp hk
        obtain ⟨⟨k', op⟩, hm, e⟩ := List.mem_map.mp hlin
        cases e
        obtain ⟨r'', hr, -⟩ := h.invoked k' op hm
        exact absurd hr (hi r'')

theorem effect (h : Linearization serve fits start trace lin) {r : ρ} (hr : Act.invoke i r ∈ trace) (hi : i ∉ lin.map Prod.fst)
    {op : ε} (hf : fits r op) : Linearization serve fits start trace (lin ++ [(i, op)]) := by
  refine ⟨?_, fun j op' hj => ?_, fun j a hj => taken_kept (h.answered j a hj) _, fun before j a rest e k r' hk hlin => ?_⟩
  · rw [List.map_append]
    refine List.nodup_append.mpr ⟨h.once, List.nodup_singleton _, fun a ha b hb e => hi ?_⟩
    have e : a = i := e.trans (List.mem_singleton.mp hb)
    rw [← e]
    exact ha
  · rcases List.mem_append.mp hj with hj | hj
    · exact h.invoked j op' hj
    · cases List.mem_singleton.mp hj
      exact ⟨r, hr, hf⟩
  · have hj : j ∈ lin.map Prod.fst := mem_of_taken (h.answered j a (by rw [e]; simp))
    rw [List.map_append] at hlin
    rcases List.mem_append.mp hlin with hlin | hlin
    · exact (h.order before j a rest e k r' hk hlin).later _
    · rw [List.mem_singleton.mp hlin]
      exact before_last hj _

theorem respond (h : Linearization serve fits start trace lin) {a : ω} (ha : (i, a) ∈ taken serve start lin) :
    Linearization serve fits start (trace ++ [.respond i a]) lin := by
  refine ⟨h.once, fun j op hj => ?_, fun j b hj => ?_, fun before j b rest e k r hk hlin => ?_⟩
  · obtain ⟨r, hr, hf⟩ := h.invoked j op hj
    exact ⟨r, List.mem_append_left _ hr, hf⟩
  · rcases List.mem_append.mp hj with hj | hj
    · exact h.answered j b hj
    · cases List.mem_singleton.mp hj
      exact ha
  · rcases split_last e with ⟨e', -, -⟩ | ⟨rest', e', htrace⟩
    · rw [e'] at hk
      cases hk
    · subst e'
      rcases List.mem_append.mp hk with hk | hk
      · exact h.order before j b rest' htrace k r hk hlin
      · cases List.mem_singleton.mp hk

end Linearization

end Linear

end Lib
