/-
  SagaAgents.Finality — a proposal once it is decided, whatever comes after.

  The endpoints check that a proposal is pending when they read it, and never again: a
  handler that has read it as pending goes on with it when another one has decided it
  meanwhile. Handlers may race, be cancelled or fail, and the service may be stopped and
  started again at any point (`Restarts`).

  Proved, over every run from a state where the proposal is decided:
  - `decided_for_good`: it stays decided. Its tool is invoked again at most once for each
    approve handler that had already read it as pending, in this life and all later ones
    together. Where no handler was past its read, its row never changes again and its tool
    is never invoked again. A service that has just been started has no handlers: what was
    decided before stays as it is.
  The bound is reached: `decided_for_good_late`.
-/

import SagaAgents.Proposals.Decisions
import SagaAgents.Restarts

namespace SagaAgents.Finality

open Lib
open Proposals (Row Status Table deciding phaseOf statusOf)
open Restarts (Ev Life St init step)
open Triggers.Api (Advance App Call Effect Handler Move)

variable {Args Val Out : Type}

/-! ## A decided proposal -/

def Decided (pid : String) (t : Table) : Prop := ∃ σ, statusOf t pid = some σ ∧ σ ≠ .pending

/-- An approve handler that has read the proposal as pending and has not gone on. -/
def armed (pid : String) (h : Handler Args Val Out) : Bool :=
  match phaseOf pid h with
  | .saw .approve => true
  | _ => false

/-- No handler is between reading the proposal as pending and storing its decision. -/
def Quiet (pid : String) (handlers : List (Handler Args Val Out)) : Prop := ∀ h ∈ handlers, deciding pid h = false

/-- The invocations for a proposal in all lives. -/
def invocations (s : St Args Val Out) (pid : String) : List (Call Args) := s.lives.flatMap (·.system.api.callsFor pid)

/-- The approve handlers that may still invoke its tool. -/
def late (s : St Args Val Out) (pid : String) : Nat := s.life.system.api.handlers.countP (armed pid)

variable {pid : String} {h : Handler Args Val Out}

theorem phase_idle (hq : deciding pid h = false) : phaseOf pid h = .idle := by
  unfold deciding at hq
  split at hq
  · assumption
  · cases hq

theorem armed_deciding (hq : deciding pid h = false) : armed pid h = false := by
  rw [armed, phase_idle hq]

/-! ## A handler goes on -/

variable {app : App Args Val Out} {i : Nat} {t : Table} {m : Move Val} {f : Effect Args Val Out}

theorem other_row (ha : Advance app i t h m f) (hne : h.req.proposalId ≠ pid) : f.table.get pid = t.get pid := by
  rcases ha.table with e | ⟨d, -, e⟩
  · rw [e]
  · rw [e]
    exact Proposals.get_setStatus_ne (Ne.symm hne) _ _

theorem other_calls (ha : Advance app i t h m f) (hne : h.req.proposalId ≠ pid) :
    f.calls.filter (·.proposalId == pid) = [] := by
  cases ha with
  | invoke => simp [hne]
  | _ => rfl

/-- What a move does to a decided proposal and to those who go on with it. -/
structure Kept (pid : String) (t : Table) (h : Handler Args Val Out) (f : Effect Args Val Out) : Prop where
  decided : Decided pid f.table
  calls : (f.calls.filter (·.proposalId == pid)).length + (armed pid f.handler).toNat ≤ (armed pid h).toNat
  quiet : deciding pid h = false → deciding pid f.handler = false ∧ f.table.get pid = t.get pid

theorem kept_idle (hd : Decided pid t) (hidle : phaseOf pid f.handler = .idle) (hrow : f.table.get pid = t.get pid)
    (hcalls : f.calls.filter (·.proposalId == pid) = []) : Kept pid t h f := by
  refine ⟨?_, by simp [hcalls, armed, hidle], fun _ => ⟨by rw [deciding, hidle], hrow⟩⟩
  rw [Decided, statusOf, hrow]
  exact hd

/-- A handler that is past its read goes on to store its decision. -/
theorem kept_deciding (hd : Decided pid f.table) (hbusy : deciding pid h = true) (hf : armed pid f.handler = false)
    (hcalls : f.calls = []) : Kept pid t h f := by
  refine ⟨hd, by simp [hcalls, hf], fun hq => ?_⟩
  rw [hbusy] at hq
  cases hq

theorem read_idle {c : Proposals.Codec Args} {record : Option (Proposals.ProposalRecord Args)} (hd : Decided h.req.proposalId t)
    (hg : Proposals.get c t h.req.proposalId = some record) :
    phaseOf h.req.proposalId ({ h with pc := .got record, fetched := record } : Handler Args Val Out) = .idle := by
  cases record with
  | none => simp [phaseOf]
  | some r =>
    obtain ⟨σ, hσ, hne⟩ := hd
    rw [Proposals.get_status hg] at hσ
    cases hσ
    simp [phaseOf, hne]

theorem decided_setStatus {d : Triggers.Api.Decision Val} (hd : Decided pid t) :
    Decided pid (Proposals.setStatus t pid d.status d.error).2 := by
  obtain ⟨σ, hσ, -⟩ := hd
  exact ⟨d.status, Proposals.statusOf_setStatus_same hσ, Proposals.Decision.status_ne d⟩

theorem kept_move (hd : Decided pid t) (ha : Advance app i t h m f) : Kept pid t h f := by
  by_cases hpid : h.req.proposalId = pid
  · subst hpid
    cases ha with
    | read record hp hg => exact kept_idle hd (read_idle hd hg) rfl rfl
    | invoke record hp hs he => exact ⟨hd, by simp [armed, phaseOf, hp, hs, he], fun hq => by simp [deciding, phaseOf, hp, hs] at hq⟩
    | decline record hp hs he => exact kept_deciding hd (by simp [deciding, phaseOf, hp, hs]) (by simp [armed, phaseOf]) rfl
    | mcpReturns record v hp => exact kept_deciding hd (by simp [deciding, phaseOf, hp]) (by simp [armed, phaseOf]) rfl
    | mcpRaises record e hp => exact kept_deciding hd (by simp [deciding, phaseOf, hp]) (by simp [armed, phaseOf]) rfl
    | commits d hp => exact kept_deciding (decided_setStatus hd) (by simp [deciding, phaseOf, hp]) (by simp [armed, phaseOf]) rfl
    | _ => exact kept_idle hd (by simp [phaseOf]) rfl rfl
  · exact kept_idle hd (by rw [phaseOf, ha.req, if_neg hpid]) (other_row ha hpid) (other_calls ha hpid)

/-! ## A step of the service -/

/-- What is known of a later state `t` of a service where the proposal is decided. -/
structure Later (pid : String) (s t : St Args Val Out) : Prop where
  decided : Decided pid t.table
  grows : invocations s pid <+: invocations t pid
  bound : (invocations t pid).length + late t pid ≤ (invocations s pid).length + late s pid
  quiet : Quiet pid s.life.system.api.handlers →
    Quiet pid t.life.system.api.handlers ∧ t.table.get pid = s.table.get pid

theorem later_refl {s : St Args Val Out} (hd : Decided pid s.table) : Later pid s s :=
  ⟨hd, List.prefix_rfl, Nat.le_refl _, fun hq => ⟨hq, rfl⟩⟩

theorem later_trans {s t u : St Args Val Out} (h : Later pid s t) (h' : Later pid t u) : Later pid s u := by
  refine ⟨h'.decided, h.grows.trans h'.grows, Nat.le_trans h'.bound h.bound, fun hq => ?_⟩
  obtain ⟨hq', hrow⟩ := h.quiet hq
  obtain ⟨hq'', hrow'⟩ := h'.quiet hq'
  exact ⟨hq'', hrow'.trans hrow⟩

/-- A step of the current life. -/
theorem later_life {s : St Args Val Out} {t : System.St Args Val Out} (hd : Decided pid t.api.table)
    (hgrows : s.life.system.api.callsFor pid <+: t.api.callsFor pid)
    (hbound : (t.api.callsFor pid).length + t.api.handlers.countP (armed pid) ≤
      (s.life.system.api.callsFor pid).length + late s pid)
    (hquiet : Quiet pid s.life.system.api.handlers → Quiet pid t.api.handlers ∧ t.api.table.get pid = s.table.get pid) :
    Later pid s { s with life := { s.life with system := t } } := by
  have hcalls (life : Life Args Val Out) : invocations { s with life := life } pid =
      (s.past.flatMap (·.system.api.callsFor pid)) ++ life.system.api.callsFor pid := by
    simp [invocations, St.lives]
  refine ⟨hd, ?_, ?_, hquiet⟩
  · rw [show s = { s with life := s.life } from rfl, hcalls, hcalls]
    exact (List.prefix_append_right_inj _).mpr hgrows
  · rw [show invocations s pid = _ from hcalls s.life, hcalls, List.length_append, List.length_append]
    show _ + (t.api.callsFor pid).length + t.api.handlers.countP (armed pid) ≤ _
    omega

/-- The handlers and their calls stay as they are, and so does the row. -/
theorem later_same {s : St Args Val Out} (hd : Decided pid s.table) {t : System.St Args Val Out}
    (hh : t.api.handlers = s.life.system.api.handlers) (hc : t.api.calls = s.life.system.api.calls)
    (hrow : t.api.table.get pid = s.table.get pid) : Later pid s { s with life := { s.life with system := t } } := by
  have hcalls : t.api.callsFor pid = s.life.system.api.callsFor pid := by
    rw [Triggers.Api.St.callsFor, hc]
    rfl
  refine later_life ?_ (by simp [hcalls]) (by rw [hcalls, hh]; exact Nat.le_refl _) fun hq => ⟨by rw [hh]; exact hq, hrow⟩
  rw [Decided, statusOf, hrow]
  exact hd

theorem later_api {s : St Args Val Out} (hd : Decided pid s.table) {e : Triggers.Api.Ev Val} {api : Triggers.Api.St Args Val Out}
    (h : Triggers.Api.step s.life.wiring.app s.life.system.api e = some api) :
    Later pid s { s with life := { s.life with system := { s.life.system with api := api } } } := by
  rcases Triggers.Api.step_cases h with ⟨r, -, e⟩ | ⟨i, m, hd', f, -, hi, ha, e⟩
  · subst e
    -- the new handler has read nothing
    have hidle : phaseOf pid (⟨r, Triggers.Api.enter s.life.wiring.app r, none⟩ : Handler Args Val Out) = .idle := by
      rcases Triggers.Api.enter_cases s.life.wiring.app r with ⟨he, -⟩ | ⟨a, he, -⟩ <;> simp [phaseOf, he]
    refine later_life hd List.prefix_rfl ?_ fun hq => ⟨fun q hm => ?_, rfl⟩
    · rw [late, List.countP_append]
      simp [armed, hidle, Triggers.Api.St.callsFor]
    · rcases List.mem_append.mp hm with hm | hm
      · exact hq q hm
      · rw [List.mem_singleton.mp hm, deciding, hidle]
  · subst e
    have hk := kept_move hd ha
    have hcalls : (s.life.system.api.apply i f).callsFor pid =
        s.life.system.api.callsFor pid ++ f.calls.filter (·.proposalId == pid) := List.filter_append _ _
    refine later_life hk.decided ?_ ?_ fun hq => ?_
    · rw [hcalls]
      exact List.prefix_append _ _
    · have hcount := Tasks.countP_move (p := armed pid) (b := f.handler) hi
      have hmove := hk.calls
      rw [hcalls, List.length_append]
      show _ + (s.life.system.api.handlers.set i f.handler).countP (armed pid) ≤ _
      rw [late]
      omega
    · obtain ⟨hq', hrow⟩ := hk.quiet (hq hd' (List.mem_of_getElem? hi))
      refine ⟨fun q hm => ?_, hrow⟩
      rcases List.mem_or_eq_of_mem_set hm with hm | e
      · exact hq q hm
      · rw [e]
        exact hq'

/-- A new row has a new id. -/
theorem added_row {w : System.Wiring Args Val Out} {s t : System.St Args Val Out} {i : Nat} {id : String} {now : Proposals.Instant}
    {r r' : Runtime.Runner.RunState Args} (hd : Decided pid s.api.table) (h : System.addNext w s i id now r r' = some t) :
    t.api.handlers = s.api.handlers ∧ t.api.calls = s.api.calls ∧ t.api.table.get pid = s.api.table.get pid := by
  unfold System.addNext at h
  split at h
  case h_2 => cases h
  obtain ⟨p, -, h⟩ := Option.bind_eq_some_iff.mp h
  obtain ⟨⟨table, record⟩, hadd, e⟩ := Option.map_eq_some_iff.mp h
  obtain ⟨hfresh, htable, hid, -⟩ := Proposals.add_cases hadd
  subst e
  refine ⟨rfl, rfl, ?_⟩
  have hne : pid ≠ id := by
    intro e
    obtain ⟨σ, hσ, -⟩ := hd
    rw [statusOf, e, hfresh] at hσ
    cases hσ
  show table.get pid = _
  rw [htable]
  exact Keyed.get_set_ne _ (by rw [← hid] at hne; exact hne)

theorem later_step {s t : St Args Val Out} {e : Ev Args Val Out} (hd : Decided pid s.table) (h : step s e = some t) :
    Later pid s t := by
  cases e with
  | restart w =>
    cases h
    -- no handler is left, and none is there yet
    have hcalls : invocations ⟨s.lives, .on w s.life.system.api.table⟩ pid = invocations s pid := by
      simp [invocations, St.lives, Life.on, Triggers.Api.St.callsFor, Triggers.Api.init]
    refine ⟨hd, by simp [hcalls], ?_, fun _ => ⟨fun _ hm => (by cases hm), rfl⟩⟩
    rw [hcalls]
    exact Nat.add_le_add_left (Nat.zero_le _) _
  | step e =>
    obtain ⟨system, hs, e⟩ := Option.map_eq_some_iff.mp h
    subst e
    cases e with
    | start agentId runId traceId =>
      obtain ⟨d, -, e⟩ := Option.map_eq_some_iff.mp hs
      subst e
      exact later_same hd rfl rfl rfl
    | run i m =>
      cases m with
      | added => cases hs
      | _ =>
        obtain ⟨r, -, hs⟩ := Option.bind_eq_some_iff.mp hs
        obtain ⟨r', -, e⟩ := Option.map_eq_some_iff.mp hs
        subst e
        exact later_same hd rfl rfl rfl
    | add i id now m =>
      simp only [System.step] at hs
      split at hs
      case isFalse => cases hs
      obtain ⟨r, -, hs⟩ := Option.bind_eq_some_iff.mp hs
      obtain ⟨r', -, hadd⟩ := Option.bind_eq_some_iff.mp hs
      obtain ⟨hh, hc, hrow⟩ := added_row hd hadd
      exact later_same hd hh hc hrow
    | api e =>
      obtain ⟨api, ha, e⟩ := Option.map_eq_some_iff.mp hs
      subst e
      exact later_api hd ha

/-- From a state where the proposal is decided, on every run of this life and the later
    ones: it stays decided, and its tool is invoked again at most once for each approve
    handler that has read it as pending and not gone on. Where no handler is between its
    read and its decision, the row never changes again and the tool is never invoked. -/
theorem decided_for_good {s t : St Args Val Out} (hd : Decided pid s.table) (h : Run step (fun _ _ => True) s t) :
    Decided pid t.table ∧ (invocations t pid).length ≤ (invocations s pid).length + late s pid ∧
      (Quiet pid s.life.system.api.handlers → t.table.get pid = s.table.get pid ∧ invocations t pid = invocations s pid) := by
  have hl : Later pid s t := by
    induction h with
    | refl => exact later_refl hd
    | tail e _ _ hst ih => exact later_trans ih (later_step ih.decided hst)
  refine ⟨hl.decided, Nat.le_trans (Nat.le_add_right _ _) hl.bound, fun hq => ⟨(hl.quiet hq).2, ?_⟩⟩
  have hnone : late s pid = 0 := List.countP_eq_zero.mpr fun h hm => by simp [armed_deciding (hq h hm)]
  have hle := hl.bound
  exact (hl.grows.eq_of_length_le (by omega)).symm

/-! Two approves read the proposal before either of them goes on. The first is through when
    the second goes on. -/

def twoApproves : List (Triggers.Api.Ev Unit) :=
  [Triggers.Api.authorised .approve, .move 0 .read, .move 1 .read, .move 0 .resume, .move 0 (.mcpReturns ()), .move 0 .commits,
    .move 0 .finishes]

def firstThrough : List (Ev Unit Unit Unit) :=
  ((System.proposesAndApproves "merge_events").take 6 ++ twoApproves.map System.Ev.api).map Ev.step

def secondGoesOn : List (Ev Unit Unit Unit) := [.step (.api (.move 1 .resume))]

theorem decided_for_good_late :
    ∃ s t : St Unit Unit Unit, Run step (fun _ _ => True) (init System.demo) s ∧ Run step (fun _ _ => True) s t ∧
      (invocations s "p").length = 1 ∧ late s "p" = 1 ∧ (invocations t "p").length = 2 ∧ Decided "p" t.table ∧
      (invocations t "p").length ≤ (invocations s "p").length + late s "p" := by
  obtain ⟨s, hr, hp⟩ := Run.exists_of_exec step (fun _ _ => True) (init System.demo) firstThrough
    (fun s => statusOf s.table "p" == some .applied && (invocations s "p").length == 1 && late s "p" == 1 &&
      (exec step (fun _ _ => True) s secondGoesOn).any fun t => (invocations t "p").length == 2) (by decide)
  simp only [Bool.and_eq_true, beq_iff_eq] at hp
  obtain ⟨⟨⟨hst, hcalls⟩, hlate⟩, hnext⟩ := hp
  obtain ⟨t, hr', ht⟩ := Run.exists_of_exec step (fun _ _ => True) s secondGoesOn (fun t => (invocations t "p").length == 2) hnext
  have hd : Decided "p" s.table := ⟨.applied, hst, by decide⟩
  obtain ⟨hd', hle, -⟩ := decided_for_good hd hr'
  exact ⟨s, t, hr, hr', hcalls, hlate, by simpa using ht, hd', hle⟩

end SagaAgents.Finality
