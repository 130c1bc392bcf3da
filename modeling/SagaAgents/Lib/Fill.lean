/-
  Lib.Fill — texts made of symbols and of blocks that are put in.

  `fill` writes the blocks out. A symbol that is in no block can only come from the symbols,
  so where it stands in the filled text, the pieces split (`split_symbol`).
-/

import Mathlib.Data.List.Basic

namespace Lib

variable {γ : Type*}

/-- The text of symbols and blocks. -/
def fill (ps : List (γ ⊕ List γ)) : List γ := ps.flatMap (Sum.elim (fun c => [c]) id)

namespace Fill

@[simp] theorem fill_nil : fill ([] : List (γ ⊕ List γ)) = [] := rfl

@[simp] theorem fill_symbol (c : γ) (ps : List (γ ⊕ List γ)) : fill (.inl c :: ps) = c :: fill ps := rfl

@[simp] theorem fill_block (b : List γ) (ps : List (γ ⊕ List γ)) : fill (.inr b :: ps) = b ++ fill ps := rfl

theorem fill_append (ps qs : List (γ ⊕ List γ)) : fill (ps ++ qs) = fill ps ++ fill qs := List.flatMap_append

/-- No block has the symbol. -/
def Free (c : γ) (ps : List (γ ⊕ List γ)) : Prop := ∀ b, .inr b ∈ ps → c ∉ b

theorem Free.right {c : γ} {ps qs : List (γ ⊕ List γ)} (h : Free c (ps ++ qs)) : Free c qs :=
  fun b hb => h b (List.mem_append_right _ hb)

theorem Free.tail {c : γ} {p : γ ⊕ List γ} {ps : List (γ ⊕ List γ)} (h : Free c (p :: ps)) : Free c ps :=
  fun b hb => h b (List.mem_cons_of_mem _ hb)

/-- Where a symbol stands that is in no block, the pieces split. -/
theorem split_symbol {ps : List (γ ⊕ List γ)} {x y : List γ} {c : γ} (hc : Free c ps) (h : fill ps = x ++ c :: y) :
    ∃ us vs, ps = us ++ .inl c :: vs ∧ fill us = x ∧ fill vs = y := by
  induction ps generalizing x with
  | nil => simp at h
  | cons p ps ih =>
    have hc' := hc.tail
    cases p with
    | inl d =>
      rw [fill_symbol] at h
      cases x with
      | nil =>
        obtain ⟨e, hy⟩ := List.cons.inj h
        subst e
        exact ⟨[], ps, rfl, rfl, hy⟩
      | cons d' x =>
        obtain ⟨e, hx⟩ := List.cons.inj h
        subst e
        obtain ⟨us, vs, e, hu, hv⟩ := ih hc' hx
        subst e
        exact ⟨.inl d :: us, vs, rfl, by rw [fill_symbol, hu], hv⟩
    | inr b =>
      rw [fill_block] at h
      have hin {z : List γ} (e : fill ps = z ++ c :: y) : ∃ us vs, .inr b :: ps = us ++ .inl c :: vs ∧ fill us = b ++ z ∧ fill vs = y := by
        obtain ⟨us, vs, e, hu, hv⟩ := ih hc' e
        subst e
        exact ⟨.inr b :: us, vs, rfl, by rw [fill_block, hu], hv⟩
      rcases List.append_eq_append_iff.mp h with ⟨z, hx, hz⟩ | ⟨z, hb, hz⟩
      · rw [hx]
        exact hin hz
      · cases z with
        | nil =>
          rw [List.append_nil] at hb
          subst hb
          have h0 := hin (z := []) (by rw [List.nil_append] at hz ⊢; exact hz.symm)
          rw [List.append_nil] at h0
          exact h0
        | cons d z =>
          obtain ⟨e, -⟩ := List.cons.inj hz
          subst e
          refine absurd ?_ (hc b List.mem_cons_self)
          rw [hb]
          exact List.mem_append_right _ List.mem_cons_self

end Fill

end Lib
