/-
  SagaAgents.System — runs, the proposal table, and the approve and reject endpoints.

  Any number of runs of the service's agents and any number of requests take turns at
  every await. A run invokes MCP tools itself (`toolCalls`), or proposes actions, which it
  stores in the table when its agent has ended (`add`, with the id and the time the store
  draws). The calls of its `propose` tool are logged with the values they were given
  (`proposeCalls`). A proposal belongs to the run that stored it (`Origin`). So an
  invocation is made on behalf of an agent in two ways: by a run of the agent, or by an
  approve handler for a proposal of one of its runs (`Invokes`). The executor only limits
  when runs start; here they start at any time.

  Proved, over every run of the system:
  - `writes_only_approved`: a write tool is invoked on behalf of a proposal-mode agent only
    by an approve handler with the token, from a pending record of that agent with that
    action and those arguments.
  - `direct_in_allow`: a tool that a run invokes itself is in its agent's allow-list.
  - `approved_was_proposed`: a tool invoked for a proposal of an agent is the action that a
    `propose` call of a proposal-mode run of it was given. Nothing compares it with the
    agent's allow-list: `proposal_outside_allow`.
-/

import SagaAgents.Proposals.Approval
import SagaAgents.Runtime.Runner

namespace SagaAgents.System

open Lib
open Config (AgentDefinition Definitions)
open Proposals (Instant Table Row ProposalRecord statusOf)
open Runtime.Runner (AgentRunner RunState ProposedAction)
open Triggers.Api (App Handler)

variable {Args Val Out : Type}

/-- What the service is built from, as far as runs and proposals go. -/
structure Wiring (Args Val Out : Type) where
  definitions : Definitions
  runner : AgentRunner
  app : App Args Val Out

/-- An MCP call of a run's toolset. -/
structure ToolCall (Args : Type) where
  run : Nat
  tool : String
  arguments : Args
  deriving DecidableEq, Repr

/-- A call of a run's `propose` tool, with the values it was given. -/
structure ProposeCall (Args : Type) where
  run : Nat
  action : String
  arguments : Args
  rationale : String
  deriving DecidableEq, Repr

/-- The run that stored a proposal, and what it had proposed. -/
structure Origin (Args : Type) where
  proposalId : String
  run : Nat
  proposed : ProposedAction Args
  deriving DecidableEq, Repr

structure St (Args Val Out : Type) where
  runs : List (RunState Args)
  api : Triggers.Api.St Args Val Out
  toolCalls : List (ToolCall Args)
  proposeCalls : List (ProposeCall Args)
  origins : List (Origin Args)

def init : St Args Val Out := ⟨[], Triggers.Api.init (Keyed.empty Row.id), [], [], []⟩

inductive Ev (Args Val : Type) where
  | start (agentId runId : String) (traceId : Option String)
  | run (i : Nat) (m : Runtime.Runner.Move Args)
  | add (i : Nat) (id : String) (now : Instant) (m : Runtime.Runner.Move Args)
  | api (e : Triggers.Api.Ev Val)

def toolCallsOf (i : Nat) : Runtime.Runner.Move Args → List (ToolCall Args)
  | .toolCall tool arguments => [⟨i, tool, arguments⟩]
  | _ => []

def proposeCallsOf (i : Nat) : Runtime.Runner.Move Args → List (ProposeCall Args)
  | .propose action arguments rationale => [⟨i, action, arguments, rationale⟩]
  | _ => []

/-- How a run goes on once the row of its proposal is committed: `sink.add` returns, or
    it raises all the same, or the run is cancelled there. -/
def afterAdd : Runtime.Runner.Move Args → Bool
  | .added | .addFails _ | .cancel => true
  | _ => false

/-- The row of the run's next proposal is committed. -/
def addNext (w : Wiring Args Val Out) (s : St Args Val Out) (i : Nat) (id : String) (now : Instant) (r r' : RunState Args) :
    Option (St Args Val Out) :=
  match r.pc with
  | .persisting _ k =>
    r.proposals[k]?.bind fun p =>
      (Proposals.add w.app.codec s.api.table id now r.definition.id r.runId p.action p.arguments p.rationale).map fun a =>
        { s with runs := s.runs.set i r', api := { s.api with table := a.1 }, origins := s.origins ++ [⟨id, i, p⟩] }
  | _ => none

def step (w : Wiring Args Val Out) (s : St Args Val Out) : Ev Args Val → Option (St Args Val Out)
  | .start agentId runId traceId =>
    (w.definitions.get agentId).map fun d => { s with runs := s.runs ++ [Runtime.Runner.begin d runId traceId] }
  | .run _ .added => none
  | .run i m =>
    s.runs[i]?.bind fun r => (Runtime.Runner.advance w.runner r m).map fun r' =>
      { s with runs := s.runs.set i r', toolCalls := s.toolCalls ++ toolCallsOf i m,
               proposeCalls := s.proposeCalls ++ proposeCallsOf i m }
  | .add i id now m =>
    if afterAdd m then
      s.runs[i]?.bind fun r => (Runtime.Runner.advance w.runner r m).bind fun r' => addNext w s i id now r r'
    else none
  | .api e => (Triggers.Api.step w.app s.api e).map fun api => { s with api := api }

/-! ## On whose behalf -/

inductive Origination where
  | run (i : Nat)
  | handler (i : Nat)
  deriving DecidableEq, Repr

/-- The MCP invocations, who made them, and on behalf of which agent. -/
inductive Invokes (s : St Args Val Out) : Origination → String → String → Args → Prop
  | direct {c : ToolCall Args} (hc : c ∈ s.toolCalls) {r : RunState Args} (hr : s.runs[c.run]? = some r) :
      Invokes s (.run c.run) r.definition.id c.tool c.arguments
  | approved {c : Triggers.Api.Call Args} (hc : c ∈ s.api.calls) {o : Origin Args} (ho : o ∈ s.origins)
      (hp : o.proposalId = c.proposalId) {r : RunState Args} (hr : s.runs[o.run]? = some r) :
      Invokes s (.handler c.handler) r.definition.id c.action c.arguments

/-- The proposal was stored by a run of the agent, for this action. -/
def OfRun (runs : List (RunState Args)) (origins : List (Origin Args)) (pid agentId action : String) : Prop :=
  ∃ o ∈ origins, o.proposalId = pid ∧ o.proposed.action = action ∧ ∃ r, runs[o.run]? = some r ∧ r.definition.id = agentId

/-- Runs stay what they are. -/
def Grow (runs runs' : List (RunState Args)) : Prop :=
  ∀ (i : Nat) (r : RunState Args), runs[i]? = some r → ∃ r', runs'[i]? = some r' ∧ Runtime.Runner.Grows r r'

/-- The run is of one of the definitions, and it proposes only in proposal mode. -/
def RunOk (w : Wiring Args Val Out) (r : RunState Args) : Prop :=
  w.definitions.get r.definition.id = some r.definition ∧ (r.proposals ≠ [] → r.definition.autonomy = .proposal)

/-- What the runs have proposed their `propose` calls were given. -/
def Given (runs : List (RunState Args)) (calls : List (ProposeCall Args)) : Prop :=
  ∀ (i : Nat) (r : RunState Args), runs[i]? = some r → ∀ p ∈ r.proposals, ⟨i, p.action, p.arguments, p.rationale⟩ ∈ calls

structure Inv (w : Wiring Args Val Out) (s : St Args Val Out) : Prop where
  runs : ∀ r ∈ s.runs, RunOk w r
  given : Given s.runs s.proposeCalls
  tools : ∀ c ∈ s.toolCalls, ∃ r, s.runs[c.run]? = some r ∧ Runtime.Runner.admits r.definition c.tool = true
  origins : ∀ o ∈ s.origins, ∃ r, s.runs[o.run]? = some r ∧ r.definition.autonomy = .proposal ∧ o.proposed ∈ r.proposals
  unique : ∀ o ∈ s.origins, ∀ o' ∈ s.origins, o.proposalId = o'.proposalId → o = o'
  known : ∀ o ∈ s.origins, (statusOf s.api.table o.proposalId).isSome = true
  rows : ∀ row ∈ s.api.table.rows, OfRun s.runs s.origins row.id row.agentId row.action
  fetched : ∀ h ∈ s.api.handlers, ∀ r, h.fetched = some r → OfRun s.runs s.origins h.req.proposalId r.agentId r.action
  approved : Proposals.Approval.Approved w.app s.api

/-! ## Every step keeps the invariant -/

theorem ofRun_mono {runs runs' : List (RunState Args)} {origins origins' : List (Origin Args)} {pid agentId action : String}
    (hg : Grow runs runs') (ho : ∀ o ∈ origins, o ∈ origins') (h : OfRun runs origins pid agentId action) :
    OfRun runs' origins' pid agentId action := by
  obtain ⟨o, hm, hp, ha, r, hr, hid⟩ := h
  obtain ⟨r', hr', hgr⟩ := hg o.run r hr
  exact ⟨o, ho o hm, hp, ha, r', hr', by rw [hgr.definition]; exact hid⟩

theorem grow_refl (runs : List (RunState Args)) : Grow runs runs :=
  fun _ r hr => ⟨r, hr, Runtime.Runner.grows_same rfl rfl rfl⟩

theorem grow_append (runs : List (RunState Args)) (r : RunState Args) : Grow runs (runs ++ [r]) := by
  intro i r' hr
  exact ⟨r', Tasks.get_kept hr, Runtime.Runner.grows_same rfl rfl rfl⟩

theorem grow_set {runs : List (RunState Args)} {i : Nat} {r r' : RunState Args} (hr : runs[i]? = some r)
    (hg : Runtime.Runner.Grows r r') : Grow runs (runs.set i r') := by
  intro j q hq
  by_cases e : j = i
  · subst e
    cases hr.symm.trans hq
    exact ⟨r', Tasks.get_moved hr, hg⟩
  · exact ⟨q, Tasks.get_other hq e, Runtime.Runner.grows_same rfl rfl rfl⟩

theorem mem_grown {r r' : RunState Args} (hg : Runtime.Runner.Grows r r') {p : ProposedAction Args} (hp : p ∈ r.proposals) :
    p ∈ r'.proposals := by
  obtain ⟨more, hm, -⟩ := hg.proposals
  rw [hm]
  exact List.mem_append_left _ hp

theorem given_start {runs : List (RunState Args)} {calls : List (ProposeCall Args)} (h : Given runs calls) (d : AgentDefinition)
    (runId : String) (traceId : Option String) : Given (runs ++ [Runtime.Runner.begin d runId traceId]) calls := by
  intro i r hr p hp
  rcases Tasks.get_start.mp hr with hr | ⟨-, e⟩
  · exact h i r hr p hp
  · subst e
    cases hp

/-- A run goes on, and what it proposes with that is what its call was given. -/
theorem given_move {runs : List (RunState Args)} {calls : List (ProposeCall Args)} (h : Given runs calls) {x : AgentRunner}
    {i : Nat} {r r' : RunState Args} {m : Runtime.Runner.Move Args} (hr : runs[i]? = some r)
    (ha : Runtime.Runner.advance x r m = some r') : Given (runs.set i r') (calls ++ proposeCallsOf i m) := by
  intro j q hq p hp
  rcases (Tasks.get_move hr).mp hq with ⟨e₁, e₂⟩ | ⟨-, hq⟩
  · subst e₁ e₂
    rcases Runtime.Runner.advance_proposed ha hp with hp | e
    · exact List.mem_append_left _ (h j r hr p hp)
    · subst e
      exact List.mem_append_right _ List.mem_cons_self
  · exact List.mem_append_left _ (h j q hq p hp)

variable {w : Wiring Args Val Out} {s : St Args Val Out}

/-- Runs grow, and nothing else changes. -/
theorem inv_runs (h : Inv w s) {runs : List (RunState Args)} (hg : Grow s.runs runs)
    (hok : ∀ r ∈ runs, RunOk w r) {calls : List (ProposeCall Args)} (hgiven : Given runs calls) :
    Inv w { s with runs := runs, proposeCalls := calls } := by
  refine ⟨hok, hgiven, ?_, ?_, h.unique, h.known, ?_, ?_, h.approved⟩
  · intro c hc
    obtain ⟨r, hr, ha⟩ := h.tools c hc
    obtain ⟨r', hr', hgr⟩ := hg c.run r hr
    exact ⟨r', hr', by rw [hgr.definition]; exact ha⟩
  · intro o ho
    obtain ⟨r, hr, ha, hp⟩ := h.origins o ho
    obtain ⟨r', hr', hgr⟩ := hg o.run r hr
    exact ⟨r', hr', by rw [hgr.definition]; exact ha, mem_grown hgr hp⟩
  · intro row hrow
    exact ofRun_mono hg (fun _ ho => ho) (h.rows row hrow)
  · intro hd hm r hf
    exact ofRun_mono hg (fun _ ho => ho) (h.fetched hd hm r hf)

theorem runOk_grows {r r' : RunState Args} (h : RunOk w r) (hg : Runtime.Runner.Grows r r') : RunOk w r' := by
  obtain ⟨more, hm, hmode⟩ := hg.proposals
  refine ⟨by rw [hg.definition]; exact h.1, fun hne => ?_⟩
  rw [hg.definition]
  by_cases e : more = []
  · rw [hm, e, List.append_nil] at hne
    exact h.2 hne
  · exact hmode e

theorem runOk_set (h : Inv w s) {i : Nat} {r r' : RunState Args} (hr : s.runs[i]? = some r)
    (hg : Runtime.Runner.Grows r r') : ∀ q ∈ s.runs.set i r', RunOk w q := by
  intro q hq
  rcases List.mem_or_eq_of_mem_set hq with hq | e
  · exact h.runs q hq
  · rw [e]
    exact runOk_grows (h.runs r (List.mem_of_getElem? hr)) hg

theorem inv_start (h : Inv w s) {agentId runId : String} {traceId : Option String} {d : AgentDefinition}
    (hd : w.definitions.get agentId = some d) :
    Inv w { s with runs := s.runs ++ [Runtime.Runner.begin d runId traceId] } := by
  refine inv_runs h (grow_append _ _) (fun r hr => ?_) (given_start h.given d runId traceId)
  rcases List.mem_append.mp hr with hr | hr
  · exact h.runs r hr
  · rw [List.mem_singleton.mp hr]
    refine ⟨?_, fun hne => absurd rfl hne⟩
    have hid := (Keyed.get_some hd).2
    show w.definitions.get d.id = some d
    rw [hid]
    exact hd

theorem inv_run (h : Inv w s) {i : Nat} {r r' : RunState Args} {m : Runtime.Runner.Move Args} (hr : s.runs[i]? = some r)
    (ha : Runtime.Runner.advance w.runner r m = some r') :
    Inv w { s with runs := s.runs.set i r', toolCalls := s.toolCalls ++ toolCallsOf i m,
                   proposeCalls := s.proposeCalls ++ proposeCallsOf i m } := by
  have hg := Runtime.Runner.advance_grows ha
  have hi := inv_runs h (grow_set hr hg) (runOk_set h hr hg) (given_move h.given hr ha)
  refine ⟨hi.runs, hi.given, fun c hc => ?_, hi.origins, hi.unique, hi.known, hi.rows, hi.fetched, hi.approved⟩
  rcases List.mem_append.mp hc with hc | hc
  · exact hi.tools c hc
  · -- the toolset admitted the new call
    cases m with
    | toolCall tool arguments =>
      rw [List.mem_singleton.mp hc]
      refine ⟨r', Tasks.get_moved hr, ?_⟩
      rw [hg.definition]
      exact Runtime.Runner.advance_toolCall ha
    | _ => cases hc

/-- An id that is not in the table is no proposal's. -/
theorem fresh_origin (h : Inv w s) {id : String} (hid : s.api.table.get id = none) :
    ∀ o ∈ s.origins, o.proposalId ≠ id := by
  intro o ho e
  have hk := h.known o ho
  rw [e, statusOf, hid] at hk
  cases hk

/-- A row under a new id, for what a proposal-mode run has proposed. -/
theorem inv_row (h : Inv w s) {row : Row} {o : Origin Args} {r : RunState Args} (hfresh : s.api.table.get row.id = none)
    (hid : o.proposalId = row.id) (hr : s.runs[o.run]? = some r) (hmode : r.definition.autonomy = .proposal)
    (hmem : o.proposed ∈ r.proposals) (hagent : r.definition.id = row.agentId) (haction : o.proposed.action = row.action) :
    Inv w { s with api := { s.api with table := s.api.table.set row }, origins := s.origins ++ [o] } := by
  have hnew := fresh_origin h hfresh
  have hkeep : ∀ o' ∈ s.origins, o' ∈ s.origins ++ [o] := fun o' ho => List.mem_append_left _ ho
  refine ⟨h.runs, h.given, h.tools, ?_, ?_, ?_, ?_, ?_, h.approved⟩
  · intro o' ho
    rcases List.mem_append.mp ho with ho | ho
    · exact h.origins o' ho
    · rw [List.mem_singleton.mp ho]
      exact ⟨r, hr, hmode, hmem⟩
  · intro o1 h1 o2 h2 e
    rcases List.mem_append.mp h1 with h1 | h1 <;> rcases List.mem_append.mp h2 with h2 | h2
    · exact h.unique o1 h1 o2 h2 e
    · rw [List.mem_singleton.mp h2, hid] at e
      exact absurd e (hnew o1 h1)
    · rw [List.mem_singleton.mp h1, hid] at e
      exact absurd e.symm (hnew o2 h2)
    · rw [List.mem_singleton.mp h1, List.mem_singleton.mp h2]
  · intro o' ho
    show (statusOf (s.api.table.set row) o'.proposalId).isSome = true
    rcases List.mem_append.mp ho with ho | ho
    · rw [statusOf, Keyed.get_set_ne _ (hnew o' ho)]
      exact h.known o' ho
    · rw [List.mem_singleton.mp ho, hid, statusOf, Keyed.get_set_same]
      rfl
  · intro row' hm
    rcases Keyed.mem_set hm with e | hm
    · subst e
      exact ⟨o, List.mem_append_right _ (List.mem_singleton.mpr rfl), hid, haction, r, hr, hagent⟩
    · exact ofRun_mono (grow_refl _) hkeep (h.rows row' hm)
  · intro hd hm q hf
    exact ofRun_mono (grow_refl _) hkeep (h.fetched hd hm q hf)

/-- After its agent has ended a run proposes nothing. -/
theorem afterAdd_silent {i : Nat} {m : Runtime.Runner.Move Args} (h : afterAdd m = true) : proposeCallsOf i m = [] := by
  cases m with
  | propose => cases h
  | _ => rfl

theorem inv_add (h : Inv w s) {i : Nat} {id : String} {now : Instant} {r r' : RunState Args} {t : St Args Val Out}
    {m : Runtime.Runner.Move Args} (hr : s.runs[i]? = some r) (hafter : afterAdd m = true)
    (hadv : Runtime.Runner.advance w.runner r m = some r') (ha : addNext w s i id now r r' = some t) : Inv w t := by
  have hg := Runtime.Runner.advance_grows hadv
  have hgiven := given_move h.given hr hadv
  rw [afterAdd_silent hafter, List.append_nil] at hgiven
  unfold addNext at ha
  split at ha
  case h_2 => cases ha
  rename_i o k hpc
  obtain ⟨p, hk, ha⟩ := Option.bind_eq_some_iff.mp ha
  obtain ⟨⟨table, record⟩, hadd, e⟩ := Option.map_eq_some_iff.mp ha
  obtain ⟨hfresh, htable, hid, hagent, -, haction, -, -, -⟩ := Proposals.add_cases hadd
  have hmem := List.mem_of_getElem? hk
  have hmode := (h.runs r (List.mem_of_getElem? hr)).2 (List.ne_nil_of_mem hmem)
  have hrow : (Proposals.recordToRow w.app.codec record).id = id := hid
  have hi := inv_runs h (grow_set hr hg) (runOk_set h hr hg) hgiven
  subst e
  rw [htable]
  refine inv_row hi (o := ⟨id, i, p⟩) (by rw [hrow]; exact hfresh) hrow.symm
    (Tasks.get_moved hr) ?_ (mem_grown hg hmem) ?_ haction.symm
  · rw [hg.definition]
    exact hmode
  · rw [hg.definition]
    exact hagent.symm

theorem inv_api (h : Inv w s) {e : Triggers.Api.Ev Val} {api : Triggers.Api.St Args Val Out}
    (ha : Triggers.Api.step w.app s.api e = some api) : Inv w { s with api := api } := by
  have happ := Proposals.Approval.approved_step h.approved ha
  rcases Triggers.Api.step_cases ha with ⟨req, -, rfl⟩ | ⟨i, m, hd, f, -, hi, hadv, rfl⟩
  · refine ⟨h.runs, h.given, h.tools, h.origins, h.unique, h.known, h.rows, fun hd hm r hf => ?_, happ⟩
    rcases List.mem_append.mp hm with hm | hm
    · exact h.fetched hd hm r hf
    · rw [List.mem_singleton.mp hm] at hf
      cases hf
  · refine ⟨h.runs, h.given, h.tools, h.origins, h.unique, ?_, ?_, ?_, happ⟩
    · intro o ho
      show (statusOf f.table o.proposalId).isSome = true
      rw [hadv.rows]
      exact h.known o ho
    · intro row hm
      have hm : row ∈ f.table.rows := hm
      rcases hadv.table with e | ⟨d, -, e⟩
      · rw [e] at hm
        exact h.rows row hm
      · rw [e] at hm
        obtain ⟨old, hold, hid, hagent, -, haction, -⟩ := Proposals.setStatus_rows hm
        rw [hid, hagent, haction]
        exact h.rows old hold
    · intro hd' hm r hf
      rcases List.mem_or_eq_of_mem_set hm with hm | e
      · exact h.fetched hd' hm r hf
      · rw [e] at hf ⊢
        rw [hadv.req]
        rcases (Proposals.Approval.fetched_move hadv).2 with hsame | ⟨record, hg, hrec⟩
        · exact h.fetched hd (List.mem_of_getElem? hi) r (by rw [← hsame]; exact hf)
        · -- the record just read is a row of the table
          rw [hrec] at hf
          subst hf
          obtain ⟨row, hrow, hdec⟩ := Proposals.get_record hg
          obtain ⟨-, hagent, -, haction, -⟩ := Proposals.rowToRecord_fields hdec
          obtain ⟨hmem, hkey⟩ := Keyed.get_some hrow
          rw [hagent, haction, ← hkey]
          exact h.rows row hmem

theorem inv_init : Inv w (init : St Args Val Out) := by
  refine ⟨?_, fun i r hr => (by cases hr), ?_, ?_, ?_, ?_, ?_, ?_, ?_, ?_⟩
  all_goals intro x hx; cases hx

theorem inv_step (s : St Args Val Out) (e : Ev Args Val) (t : St Args Val Out) (hs : Inv w s) (h : step w s e = some t) :
    Inv w t := by
  cases e with
  | start agentId runId traceId =>
    obtain ⟨d, hd, e⟩ := Option.map_eq_some_iff.mp h
    subst e
    exact inv_start hs hd
  | run i m =>
    cases m with
    | added => cases h
    | _ =>
      obtain ⟨r, hr, h⟩ := Option.bind_eq_some_iff.mp h
      obtain ⟨r', ha, e⟩ := Option.map_eq_some_iff.mp h
      subst e
      exact inv_run hs hr ha
  | add i id now m =>
    simp only [step] at h
    split at h
    · rename_i hafter
      obtain ⟨r, hr, h⟩ := Option.bind_eq_some_iff.mp h
      obtain ⟨r', ha, h⟩ := Option.bind_eq_some_iff.mp h
      exact inv_add hs hr hafter ha h
    · cases h
  | api e =>
    obtain ⟨api, ha, e⟩ := Option.map_eq_some_iff.mp h
    subst e
    exact inv_api hs ha

theorem inv_reach {ok : St Args Val Out → Ev Args Val → Prop} (h : Run (step w) ok init s) : Inv w s :=
  h.invariant (fun s e t hs _ h => inv_step s e t hs h) inv_init

/-! ## Human in the loop -/

/-- The call of an approve handler, with the record it went by: it is of the run that
    stored the proposal. -/
theorem call_record (h : Inv w s) {c : Triggers.Api.Call Args} (hc : c ∈ s.api.calls) {o : Origin Args} (ho : o ∈ s.origins)
    (hp : o.proposalId = c.proposalId) {r : RunState Args} (hr : s.runs[o.run]? = some r) :
    o.proposed.action = c.action ∧ ∃ hd record, s.api.handlers[c.handler]? = some hd ∧ Proposals.Approval.Approves w.app hd c ∧
      hd.fetched = some record ∧ record.status = .pending ∧ record.agentId = r.definition.id ∧ record.action = c.action ∧
      record.arguments = c.arguments := by
  obtain ⟨hd, hh, happ⟩ := h.approved.2 c hc
  obtain ⟨record, hf, hst, haction, hargs⟩ := happ.record
  obtain ⟨o', ho', hp', ha', r', hr', hid⟩ := h.fetched hd (List.mem_of_getElem? hh) record hf
  have e : o = o' := h.unique o ho o' ho' (by rw [hp, hp', happ.proposal])
  subst e
  cases hr.symm.trans hr'
  exact ⟨ha'.trans haction, hd, record, hh, happ, hf, hst, hid.symm, haction, hargs⟩

/-- No call is made on nobody's behalf: a run has made it, or it is for a proposal that a run
    has stored. -/
theorem calls_attributed (h : Inv w s) :
    (∀ c ∈ s.toolCalls, ∃ agentId, Invokes s (.run c.run) agentId c.tool c.arguments) ∧
      ∀ c ∈ s.api.calls, ∃ agentId, Invokes s (.handler c.handler) agentId c.action c.arguments := by
  constructor
  · intro c hc
    obtain ⟨r, hr, -⟩ := h.tools c hc
    exact ⟨r.definition.id, .direct hc hr⟩
  · intro c hc
    obtain ⟨hd, hh, happ⟩ := h.approved.2 c hc
    obtain ⟨record, hf, -⟩ := happ.record
    obtain ⟨o, ho, hp, -, r, hr, -⟩ := h.fetched hd (List.mem_of_getElem? hh) record hf
    exact ⟨r.definition.id, .approved hc ho (by rw [hp, happ.proposal]) hr⟩

/-- A write tool is invoked on behalf of a proposal-mode agent only by an approve handler
    with the token, from a pending record of that agent, with its action and arguments. -/
theorem writes_only_approved {ok : St Args Val Out → Ev Args Val → Prop} (h : Run (step w) ok init s) {d : AgentDefinition}
    (hd : w.definitions.get d.id = some d) (hmode : d.autonomy = .proposal) {b : Origination} {tool : String}
    {arguments : Args} (hi : Invokes s b d.id tool arguments) (hw : tool ∈ d.tools.write) :
    ∃ j hd r, b = .handler j ∧ s.api.handlers[j]? = some hd ∧ hd.req.endpoint = .approve ∧
      Triggers.Api.verifyToken w.app hd.req.authorization = true ∧ hd.fetched = some r ∧ r.status = .pending ∧
      r.agentId = d.id ∧ r.action = tool ∧ r.arguments = arguments := by
  have hinv := inv_reach h
  generalize hid : d.id = agentId at hi
  cases hi with
  | @direct c hc r hr =>
    -- the toolset of a run of this agent admits no write tool
    obtain ⟨r', hr', hadm⟩ := hinv.tools c hc
    cases hr.symm.trans hr'
    have hdef := (hinv.runs r (List.mem_of_getElem? hr)).1
    rw [← hid, hd] at hdef
    cases hdef
    exact absurd hw (Runtime.Runner.admits_not_write hmode hadm)
  | @approved c hc o ho hp r hr =>
    obtain ⟨-, h', record, hh, happ, hf, hst, hag, hac, har⟩ := call_record hinv hc ho hp hr
    exact ⟨c.handler, h', record, rfl, hh, happ.endpoint, happ.token, hf, hst, hag, hac, har⟩

/-! ## The allow-list -/

/-- The calls that a run makes itself are in its agent's allow-list. -/
theorem direct_in_allow {ok : St Args Val Out → Ev Args Val → Prop} (h : Run (step w) ok init s) {i : Nat}
    {agentId tool : String} {arguments : Args} (hi : Invokes s (.run i) agentId tool arguments) :
    ∃ d, w.definitions.get agentId = some d ∧ tool ∈ d.tools.allow := by
  have hinv := inv_reach h
  cases hi with
  | @direct c hc r hr =>
    obtain ⟨r', hr', hadm⟩ := hinv.tools c hc
    cases hr.symm.trans hr'
    exact ⟨r.definition, (hinv.runs r (List.mem_of_getElem? hr)).1, Runtime.Runner.admits_allowed hadm⟩

/-- A tool invoked for a proposal of an agent is the action that a `propose` call of a
    proposal-mode run of it was given. -/
theorem approved_was_proposed {ok : St Args Val Out → Ev Args Val → Prop} (h : Run (step w) ok init s) {j : Nat}
    {agentId tool : String} {arguments : Args} (hi : Invokes s (.handler j) agentId tool arguments) :
    ∃ (k : Nat) (r : RunState Args), s.runs[k]? = some r ∧ r.definition.id = agentId ∧ r.definition.autonomy = .proposal ∧
      ∃ p ∈ r.proposals, p.action = tool ∧ ⟨k, p.action, p.arguments, p.rationale⟩ ∈ s.proposeCalls := by
  have hinv := inv_reach h
  cases hi with
  | @approved c hc o ho hp r hr =>
    obtain ⟨ha, -⟩ := call_record hinv hc ho hp hr
    obtain ⟨r', hr', hmode, hprop⟩ := hinv.origins o ho
    cases hr.symm.trans hr'
    exact ⟨o.run, r, hr, rfl, hmode, o.proposed, hprop, ha, hinv.given o.run r hr o.proposed hprop⟩

/-! One proposal-mode agent, with one write tool; and a run of it that proposes an action
    which is then approved. -/

def deduplicator : AgentDefinition where
  id := "event-deduplicator"
  tools := { allow := ["hybrid_search", "merge_events"], write := ["merge_events"] }

def demo : Wiring Unit Unit Unit where
  definitions := Keyed.ofList AgentDefinition.id [deduplicator]
  runner := { config := { mcp := ⟨"", ""⟩, ollama := ⟨"", ""⟩, redis := ⟨"", ""⟩ }, proposalSink := true }
  app := Triggers.Api.demoApp

def proposesAndApproves (action : String) : List (Ev Unit Unit) :=
  [.start "event-deduplicator" "r" none, .run 0 .resolved, .run 0 (.propose action () "same event"),
    .run 0 (.agentEnds (.returned "done" 0)), .add 0 "p" 0 .added,
    .api (Triggers.Api.authorised .approve), .api (.move 0 .read), .api (.move 0 .resume)]

def approvedCall (action : String) (s : St Unit Unit Unit) : Bool :=
  s.api.calls.contains ⟨0, "p", action, ()⟩ &&
    s.origins.any fun o => o.proposalId == "p" && (s.runs[o.run]?).any (·.definition.id == "event-deduplicator")

theorem invokes_of_approvedCall {action : String} {s : St Unit Unit Unit} (h : approvedCall action s = true) :
    Invokes s (.handler 0) "event-deduplicator" action () := by
  simp only [approvedCall, Bool.and_eq_true, List.contains_iff_mem, List.any_eq_true, beq_iff_eq] at h
  obtain ⟨hc, o, ho, hp, hr⟩ := h
  obtain ⟨r, hr, hid⟩ := (Option.any_eq_true _ _).mp hr
  have hinv := Invokes.approved hc ho hp hr
  rwa [beq_iff_eq.mp hid] at hinv

/-- The write tool is invoked, and it is the approve handler that does it. -/
theorem writes_only_approved_merge :
    ∃ s, Run (step demo) (fun _ _ => True) init s ∧ Invokes s (.handler 0) "event-deduplicator" "merge_events" () ∧
      ∃ j hd r, Origination.handler 0 = .handler j ∧ s.api.handlers[j]? = some hd ∧ hd.req.endpoint = .approve ∧
        Triggers.Api.verifyToken demo.app hd.req.authorization = true ∧ hd.fetched = some r ∧ r.status = .pending ∧
        r.agentId = deduplicator.id ∧ r.action = "merge_events" ∧ r.arguments = () := by
  obtain ⟨s, hr, hp⟩ := Run.exists_of_exec (step demo) (fun _ _ => True) init (proposesAndApproves "merge_events")
    (approvedCall "merge_events") (by decide)
  have hi := invokes_of_approvedCall hp
  exact ⟨s, hr, hi, writes_only_approved hr (d := deduplicator) rfl rfl hi (by decide)⟩

/-- What the approve handler invokes is what the run has proposed. -/
theorem approved_was_proposed_merge :
    ∃ s, Run (step demo) (fun _ _ => True) init s ∧ Invokes s (.handler 0) "event-deduplicator" "merge_events" () ∧
      ∃ (k : Nat) (r : RunState Unit), s.runs[k]? = some r ∧ r.definition.id = "event-deduplicator" ∧
        r.definition.autonomy = .proposal ∧ ∃ p ∈ r.proposals, p.action = "merge_events" ∧
          ⟨k, p.action, p.arguments, p.rationale⟩ ∈ s.proposeCalls := by
  obtain ⟨s, hr, hp⟩ := Run.exists_of_exec (step demo) (fun _ _ => True) init (proposesAndApproves "merge_events")
    (approvedCall "merge_events") (by decide)
  have hi := invokes_of_approvedCall hp
  exact ⟨s, hr, hi, approved_was_proposed hr hi⟩

/-- The run proposes a tool that its agent is not allowed to use: approving the proposal
    invokes it. -/
theorem proposal_outside_allow :
    ∃ s, Run (step demo) (fun _ _ => True) init s ∧ Invokes s (.handler 0) "event-deduplicator" "delete_document" () ∧
      demo.definitions.get "event-deduplicator" = some deduplicator ∧ "delete_document" ∉ deduplicator.tools.allow := by
  obtain ⟨s, hr, hp⟩ := Run.exists_of_exec (step demo) (fun _ _ => True) init (proposesAndApproves "delete_document")
    (approvedCall "delete_document") (by decide)
  exact ⟨s, hr, invokes_of_approvedCall hp, rfl, by decide⟩

end SagaAgents.System
