/-
  SagaAgents.Proposals.Approval — what an invocation of the approve endpoint rests on.

  A handler that waits for the store was let in with the token, and past `store.get` it
  goes by the record it was given (`Reads`). It invokes a tool once, from a record that
  was pending, with that record's action and arguments; `Approved` says so of a call, and
  no later step takes it back.

  These invariants do not look at the table, so they hold as well when rows are added
  between the steps.
-/

import SagaAgents.Lib.Tasks
import SagaAgents.Triggers.Api

namespace SagaAgents.Proposals.Approval

open Lib
open Triggers.Api (Request Handler App St Ev Move Advance Effect Call)

variable {Args Val Out : Type}

/-- A handler that has not acted yet was let in, and holds what `store.get` gave it. -/
def Reads (api : App Args Val Out) (h : Handler Args Val Out) : Prop :=
  match h.pc with
  | .getting => Triggers.Api.verifyToken api h.req.authorization = true ∧ h.fetched = none
  | .got record => Triggers.Api.verifyToken api h.req.authorization = true ∧ h.fetched = record
  | _ => True

/-- The call of an approve handler with the token, from the pending record it read. -/
structure Approves (api : App Args Val Out) (h : Handler Args Val Out) (c : Call Args) : Prop where
  past : h.pc ≠ .getting
  endpoint : h.req.endpoint = .approve
  token : Triggers.Api.verifyToken api h.req.authorization = true
  proposal : h.req.proposalId = c.proposalId
  record : ∃ r, h.fetched = some r ∧ r.status = .pending ∧ r.action = c.action ∧ r.arguments = c.arguments

def Approved (api : App Args Val Out) (s : St Args Val Out) : Prop :=
  (∀ h ∈ s.handlers, Reads api h) ∧ ∀ c ∈ s.calls, ∃ h, s.handlers[c.handler]? = some h ∧ Approves api h c

theorem reads_enter (api : App Args Val Out) (r : Request) : Reads api ⟨r, Triggers.Api.enter api r, none⟩ := by
  rcases Triggers.Api.enter_cases api r with ⟨he, hv⟩ | ⟨a, he, -⟩
  · simp only [Reads, he]
    exact ⟨hv, trivial⟩
  · simp only [Reads, he]

theorem reads_move {api : App Args Val Out} {i : Nat} {t : Table} {h : Handler Args Val Out} {m : Move Val}
    {f : Effect Args Val Out} (hs : Reads api h) (ha : Advance api i t h m f) : Reads api f.handler := by
  cases ha with
  | read record hp hg =>
    simp only [Reads, hp] at hs
    exact ⟨hs.1, rfl⟩
  | _ => trivial

/-- A handler past its `store.get` keeps the record it was given. -/
theorem fetched_move {api : App Args Val Out} {i : Nat} {t : Table} {h : Handler Args Val Out} {m : Move Val}
    {f : Effect Args Val Out} (ha : Advance api i t h m f) :
    (h.pc ≠ .getting → f.handler.fetched = h.fetched ∧ f.handler.pc ≠ .getting) ∧
      (f.handler.fetched = h.fetched ∨ ∃ record, get api.codec t h.req.proposalId = some record ∧ f.handler.fetched = record) := by
  cases ha with
  | unreadable hp hg => exact ⟨fun h => absurd hp h, Or.inl rfl⟩
  | read record hp hg => exact ⟨fun h => absurd hp h, Or.inr ⟨record, hg, rfl⟩⟩
  | readFails hp => exact ⟨fun h => absurd hp h, Or.inl rfl⟩
  | _ => exact ⟨fun _ => ⟨rfl, by intro h; cases h⟩, Or.inl rfl⟩

theorem approves_move {api : App Args Val Out} {i : Nat} {t : Table} {h : Handler Args Val Out} {m : Move Val}
    {f : Effect Args Val Out} {c : Call Args} (hc : Approves api h c) (ha : Advance api i t h m f) :
    Approves api f.handler c := by
  obtain ⟨hfetched, hpast⟩ := (fetched_move ha).1 hc.past
  exact ⟨hpast, by rw [ha.req]; exact hc.endpoint, by rw [ha.req]; exact hc.token, by rw [ha.req]; exact hc.proposal,
    by rw [hfetched]; exact hc.record⟩

/-- The call a move makes is an approved one. -/
theorem approves_new {api : App Args Val Out} {i : Nat} {t : Table} {h : Handler Args Val Out} {m : Move Val}
    {f : Effect Args Val Out} (hs : Reads api h) (ha : Advance api i t h m f) {c : Call Args} (hc : c ∈ f.calls) :
    c.handler = i ∧ Approves api f.handler c := by
  cases ha with
  | invoke record hp hst he =>
    simp only [Reads, hp] at hs
    have e := List.mem_singleton.mp hc
    subst e
    exact ⟨rfl, (by intro h; cases h), he, hs.1, rfl, record, hs.2, hst, rfl, rfl⟩
  | _ => cases hc

theorem approved_step {api : App Args Val Out} {s t : St Args Val Out} {e : Ev Val} (hs : Approved api s)
    (h : Triggers.Api.step api s e = some t) : Approved api t := by
  rcases Triggers.Api.step_cases h with ⟨r, -, e⟩ | ⟨i, m, hd, f, -, hi, ha, e⟩
  · subst e
    refine ⟨?_, ?_⟩
    · intro h hm
      rcases List.mem_append.mp hm with hm | hm
      · exact hs.1 h hm
      · rw [List.mem_singleton.mp hm]
        exact reads_enter api r
    · intro c hc
      obtain ⟨h, hh, ha⟩ := hs.2 c hc
      exact ⟨h, Tasks.get_kept hh, ha⟩
  · subst e
    have hread := hs.1 hd (List.mem_of_getElem? hi)
    refine ⟨?_, ?_⟩
    · intro h hm
      rcases List.mem_or_eq_of_mem_set hm with hm | e
      · exact hs.1 h hm
      · rw [e]
        exact reads_move hread ha
    · intro c hc
      rcases List.mem_append.mp hc with hc | hc
      · obtain ⟨h, hh, happ⟩ := hs.2 c hc
        by_cases e : c.handler = i
        · rw [e, hi] at hh
          cases hh
          exact ⟨f.handler, by rw [e]; exact Tasks.get_moved hi, approves_move happ ha⟩
        · exact ⟨h, Tasks.get_other hh e, happ⟩
      · obtain ⟨e, happ⟩ := approves_new hread ha hc
        exact ⟨f.handler, by rw [e]; exact Tasks.get_moved hi, happ⟩

end SagaAgents.Proposals.Approval
