/-
  SagaAgents.Runtime.Runner — one `AgentRunner.run` (`runtime/runner.py`), with the tools
  it is given (`runtime/toolset.py`, `runtime/propose.py`).

  A run resolves its system prompt, runs the agent, and in proposal mode hands each
  proposed action to the sink, one after the other. In between the model acts as it
  likes: it calls tools that its toolset admits, and `propose`, which appends to
  `deps.proposals`. A move is one of these steps, with what the model, the MCP server,
  the guidance provider or the sink answers; a run can be cancelled wherever it waits.

  Proved: a proposal-mode run is admitted to no write tool (`admits_not_write`), and a
  move keeps what the run is and only appends to what it has proposed (`advance_grows`).
-/

import SagaAgents.Config.Models

namespace SagaAgents.Runtime.Runner

open Config (AgentDefinition Autonomy GlobalConfig ToolsSpec)

/-! ## Tools -/

def visibleToolNames (tools : ToolsSpec) (autonomy : Autonomy) : List String :=
  match autonomy with
  | .autonomous => tools.allow
  | .proposal => tools.allow.filter (· ∉ tools.write)

/-- The predicate of `filtered_server`. -/
def filteredServer (allowed : List String) (tool : String) : Bool := allowed.contains tool

/-- The toolset of an agent admits the tool. -/
def admits (d : AgentDefinition) (tool : String) : Bool := filteredServer (visibleToolNames d.tools d.autonomy) tool

theorem admits_allowed {d : AgentDefinition} {tool : String} (h : admits d tool = true) : tool ∈ d.tools.allow := by
  simp only [admits, filteredServer, List.contains_iff_mem, visibleToolNames] at h
  split at h
  · exact h
  · exact (List.mem_filter.mp h).1

theorem admits_not_write {d : AgentDefinition} {tool : String} (hd : d.autonomy = .proposal) (h : admits d tool = true) :
    tool ∉ d.tools.write := by
  simp only [admits, filteredServer, List.contains_iff_mem, visibleToolNames, hd] at h
  simpa using (List.mem_filter.mp h).2

/-! ## Reports -/

inductive RunStatus where
  | ok
  | limitExceeded
  | timeout
  | error
  deriving DecidableEq, Repr

structure ProposedAction (Args : Type) where
  action : String
  arguments : Args
  rationale : String
  deriving DecidableEq, Repr

structure RunReport (Args : Type) where
  runId : String
  agentId : String
  status : RunStatus
  summary : String
  toolCalls : Nat
  proposals : List (ProposedAction Args)
  error : Option String := none
  traceId : Option String := none
  deriving DecidableEq, Repr

/-- How the guarded section ends: `agent.run` returns (its output, and the tool calls in
    its messages), or an exception leaves the section. -/
inductive AgentOutcome where
  | returned (output : String) (toolCalls : Nat)
  | usageLimitExceeded (text : String)
  | timeoutError
  | raised (text : String)
  deriving DecidableEq, Repr

/-- What the run keeps of it. -/
structure Outcome where
  status : RunStatus
  summary : String
  toolCalls : Nat
  error : Option String
  deriving DecidableEq, Repr

def AgentOutcome.outcome (timeoutSeconds : Int) : AgentOutcome → Outcome
  | .returned output n => ⟨.ok, output, n, none⟩
  | .usageLimitExceeded text => ⟨.limitExceeded, "", 0, some text⟩
  | .timeoutError => ⟨.timeout, "", 0, some ("Run exceeded " ++ toString timeoutSeconds ++ "s")⟩
  | .raised text => ⟨.error, "", 0, some text⟩

/-! ## A run -/

structure AgentRunner where
  config : GlobalConfig
  proposalSink : Bool
  deriving DecidableEq, Repr

variable {Args : Type}

inductive Pc (Args : Type) where
  | resolving
  | agent
  | persisting (o : Outcome) (next : Nat)
  | ended (report : RunReport Args)
  | raised
  | cancelled
  deriving DecidableEq, Repr

structure RunState (Args : Type) where
  definition : AgentDefinition
  runId : String
  traceId : Option String
  pc : Pc Args
  proposals : List (ProposedAction Args)
  persistenceError : Option String
  deriving DecidableEq

def begin (d : AgentDefinition) (runId : String) (traceId : Option String) : RunState Args :=
  ⟨d, runId, traceId, .resolving, [], none⟩

def RunState.to (r : RunState Args) (pc : Pc Args) : RunState Args := { r with pc := pc }

def RunState.report (r : RunState Args) (o : Outcome) : RunReport Args :=
  { runId := r.runId, agentId := r.definition.id, status := o.status,
    summary := match r.persistenceError with
      | some e => if o.status = .ok then o.summary ++ "\n[warning: proposal persistence degraded: " ++ e ++ "]" else o.summary
      | none => o.summary
    toolCalls := o.toolCalls, proposals := r.proposals, error := o.error, traceId := r.traceId }

/-- Proposal `k` is the next for the sink, or there is none and the run reports. -/
def RunState.persistFrom (x : AgentRunner) (r : RunState Args) (o : Outcome) (k : Nat) : RunState Args :=
  if r.definition.autonomy = .proposal ∧ x.proposalSink = true ∧ k < r.proposals.length then r.to (.persisting o k)
  else r.to (.ended (r.report o))

inductive Move (Args : Type) where
  | resolved
  | guidanceFails (text : String)
  | raises
  | toolCall (tool : String) (arguments : Args)
  | propose (action : String) (arguments : Args) (rationale : String)
  | agentEnds (o : AgentOutcome)
  | added
  | addFails (text : String)
  | cancel
  deriving DecidableEq, Repr

/-- `raises`: an exception that `run` does not catch (a factory, or an exception of the
    guidance provider other than `GuidanceFetchError`). -/
def advance (x : AgentRunner) (r : RunState Args) (m : Move Args) : Option (RunState Args) :=
  match r.pc, m with
  | .resolving, .resolved => some (r.to .agent)
  | .resolving, .guidanceFails text =>
    some (r.to (.ended { runId := r.runId, agentId := r.definition.id, status := .error, summary := "", toolCalls := 0,
                         proposals := [], error := some text }))
  | .resolving, .raises => some (r.to .raised)
  | .agent, .toolCall tool _ => if admits r.definition tool then some r else none
  | .agent, .propose action arguments rationale =>
    if r.definition.autonomy = .proposal then some { r with proposals := r.proposals ++ [⟨action, arguments, rationale⟩] }
    else none
  | .agent, .agentEnds o => some (r.persistFrom x (o.outcome r.definition.limits.timeoutSeconds) 0)
  | .persisting o k, .added => some (r.persistFrom x o (k + 1))
  | .persisting o k, .addFails text => some ({ r with persistenceError := some text }.persistFrom x o (k + 1))
  | .resolving, .cancel | .agent, .cancel | .persisting _ _, .cancel => some (r.to .cancelled)
  | _, _ => none

/-! ## What a move keeps -/

@[simp] theorem persistFrom_definition (x : AgentRunner) (r : RunState Args) (o : Outcome) (k : Nat) :
    (r.persistFrom x o k).definition = r.definition := by
  unfold RunState.persistFrom
  split <;> rfl

@[simp] theorem persistFrom_runId (x : AgentRunner) (r : RunState Args) (o : Outcome) (k : Nat) :
    (r.persistFrom x o k).runId = r.runId := by
  unfold RunState.persistFrom
  split <;> rfl

@[simp] theorem persistFrom_proposals (x : AgentRunner) (r : RunState Args) (o : Outcome) (k : Nat) :
    (r.persistFrom x o k).proposals = r.proposals := by
  unfold RunState.persistFrom
  split <;> rfl

/-- What a run is stays, and what it has proposed is only appended to, in proposal mode. -/
structure Grows (r r' : RunState Args) : Prop where
  definition : r'.definition = r.definition
  runId : r'.runId = r.runId
  proposals : ∃ more, r'.proposals = r.proposals ++ more ∧ (more ≠ [] → r.definition.autonomy = .proposal)

theorem grows_same {r r' : RunState Args} (hd : r'.definition = r.definition) (hi : r'.runId = r.runId)
    (hp : r'.proposals = r.proposals) : Grows r r' :=
  ⟨hd, hi, [], by rw [hp, List.append_nil], fun h => absurd rfl h⟩

/-- The moves of a run, one constructor for each way through `advance`. -/
inductive Advance (x : AgentRunner) (r : RunState Args) : Move Args → RunState Args → Prop
  | resolved (hp : r.pc = .resolving) : Advance x r .resolved (r.to .agent)
  | guidanceFails (text : String) (hp : r.pc = .resolving) :
      Advance x r (.guidanceFails text)
        (r.to (.ended { runId := r.runId, agentId := r.definition.id, status := .error, summary := "", toolCalls := 0,
                        proposals := [], error := some text }))
  | raises (hp : r.pc = .resolving) : Advance x r .raises (r.to .raised)
  | toolCall (tool : String) (arguments : Args) (hp : r.pc = .agent) (ha : admits r.definition tool = true) :
      Advance x r (.toolCall tool arguments) r
  | propose (action : String) (arguments : Args) (rationale : String) (hp : r.pc = .agent)
      (hd : r.definition.autonomy = .proposal) :
      Advance x r (.propose action arguments rationale) { r with proposals := r.proposals ++ [⟨action, arguments, rationale⟩] }
  | agentEnds (o : AgentOutcome) (hp : r.pc = .agent) :
      Advance x r (.agentEnds o) (r.persistFrom x (o.outcome r.definition.limits.timeoutSeconds) 0)
  | added (o : Outcome) (k : Nat) (hp : r.pc = .persisting o k) : Advance x r .added (r.persistFrom x o (k + 1))
  | addFails (text : String) (o : Outcome) (k : Nat) (hp : r.pc = .persisting o k) :
      Advance x r (.addFails text) ({ r with persistenceError := some text }.persistFrom x o (k + 1))
  | cancel (hp : r.pc = .resolving ∨ r.pc = .agent ∨ ∃ o k, r.pc = .persisting o k) : Advance x r .cancel (r.to .cancelled)

theorem advance_cases {x : AgentRunner} {r r' : RunState Args} {m : Move Args} (h : advance x r m = some r') :
    Advance x r m r' := by
  unfold advance at h
  split at h
  · rename_i hp; cases h; exact .resolved hp
  · rename_i text hp; cases h; exact .guidanceFails text hp
  · rename_i hp; cases h; exact .raises hp
  · rename_i tool arguments hp
    split at h
    · rename_i ha; cases h; exact .toolCall tool arguments hp ha
    · cases h
  · rename_i action arguments rationale hp
    split at h
    · rename_i hd; cases h; exact .propose action arguments rationale hp hd
    · cases h
  · rename_i o hp; cases h; exact .agentEnds o hp
  · rename_i o k hp; cases h; exact .added o k hp
  · rename_i o k text hp; cases h; exact .addFails text o k hp
  · rename_i hp; cases h; exact .cancel (Or.inl hp)
  · rename_i hp; cases h; exact .cancel (Or.inr (Or.inl hp))
  · rename_i o k hp; cases h; exact .cancel (Or.inr (Or.inr ⟨o, k, hp⟩))
  · cases h

theorem advance_grows {x : AgentRunner} {r r' : RunState Args} {m : Move Args} (h : advance x r m = some r') :
    Grows r r' := by
  cases advance_cases h with
  | propose action arguments rationale hp hd => exact ⟨rfl, rfl, _, rfl, fun _ => hd⟩
  | agentEnds | added | addFails => exact grows_same (by simp) (by simp) (by simp)
  | _ => exact grows_same rfl rfl rfl

/-- What a run has proposed it was given by a `propose` call. -/
theorem advance_proposed {x : AgentRunner} {r r' : RunState Args} {m : Move Args} (h : advance x r m = some r')
    {p : ProposedAction Args} (hp : p ∈ r'.proposals) : p ∈ r.proposals ∨ m = .propose p.action p.arguments p.rationale := by
  cases advance_cases h with
  | propose action arguments rationale =>
    rcases List.mem_append.mp hp with hp | hp
    · exact Or.inl hp
    · rw [List.mem_singleton.mp hp]
      exact Or.inr rfl
  | agentEnds | added | addFails =>
    rw [persistFrom_proposals] at hp
    exact Or.inl hp
  | _ => exact Or.inl hp

/-- A tool call is one its toolset admits. -/
theorem advance_toolCall {x : AgentRunner} {r r' : RunState Args} {tool : String} {arguments : Args}
    (h : advance x r (.toolCall tool arguments) = some r') : admits r.definition tool = true := by
  cases advance_cases h with
  | toolCall _ _ _ ha => exact ha

end SagaAgents.Runtime.Runner
