/-
  SagaAgents.Runtime.Outcomes — `AgentRunner.run` from end to end
  (`runtime/runner.py`), against everything that it calls.

  What each collaborator does in one run is given: it returns or raises, and what is
  awaited under the timeout also takes its time. The factories, `filtered` and the
  construction of the agent stand outside every `try`; around the guidance only
  `GuidanceFetchError` is caught. The guarded section is entering the agent's context,
  `agent.run` and leaving the context. What leaves it is told apart by its type alone.

  Proved:
  - `run_advances`: `run` goes through the moves of `Runner.advance`.
  - `run_reports_iff`: `run` returns a report, and one with an error if anything but the
    sink raised, iff nothing outside its `try` blocks raises.
  - `classified_iff`: the status says how the guarded section ended iff the section raises
    no `TimeoutError` of its own, and nothing else when the deadline cancels it.
  - `discloses_iff`: failed `add`s show in the report iff there are none or `agent.run`
    returned in time.
-/

import Mathlib.Algebra.Order.Ring.NNRat
import SagaAgents.Lib.Machine
import SagaAgents.Lib.Timeout
import SagaAgents.Runtime.Guidance
import SagaAgents.Runtime.Runner

namespace SagaAgents.Runtime.Outcomes

open Lib
open Config (AgentDefinition Limits)
open Guidance (StoreGuidance referencedKeys substitute)
open Runner (AgentOutcome AgentRunner Outcome ProposedAction RunReport RunState RunStatus visibleToolNames)

/-! ## Exceptions and collaborators -/

/-- An exception, as far as `run` tells them apart; `text` is its `str`. -/
inductive Exn where
  | guidanceFetchError (text : String)
  | usageLimitExceeded (text : String)
  | timeoutError (text : String)
  | other (text : String)
  deriving DecidableEq, Repr

def Exn.text : Exn → String
  | .guidanceFetchError text | .usageLimitExceeded text | .timeoutError text | .other text => text

/-- What `Agent` is built from. -/
structure AgentSpec where
  modelName : String
  instructions : Text
  allowed : List String
  proposeTool : Bool

/-- What the collaborators do in one run. `proposed`: what the model has proposed by the
    end of the guarded section. `add k p`: the text of the exception the `k`-th `add`
    raises, if any. -/
structure Collaborators (Args : Type) where
  modelFactory : (baseUrl modelName : String) → Except Exn Unit
  mcpServerFactory : (baseUrl bearerToken : String) → Except Exn Unit
  filtered : (allowed : List String) → Except Exn Unit
  guidance : Except Exn StoreGuidance
  agentInit : AgentSpec → Except Exn Unit
  enter : Await ℚ≥0 Exn Unit
  agentRun : (prompt : String) → Limits → Await ℚ≥0 Exn (String × Nat)
  leave : Await ℚ≥0 Exn Unit
  leaveCut : Option Exn
  proposed : List (ProposedAction Args)
  add : Nat → ProposedAction Args → Option String

/-! ## `run` -/

variable {Args : Type}

/-- `definition.model or self._config.ollama.default_model`. -/
def modelName (x : AgentRunner) (d : AgentDefinition) : String :=
  match d.model with
  | some name => if name = "" then x.config.ollama.defaultModel else name
  | none => x.config.ollama.defaultModel

def resolveSystemPrompt (d : AgentDefinition) (guidance : Except Exn StoreGuidance) : Except Exn Text :=
  let prompt := Text.ofString d.systemPrompt
  if referencedKeys prompt = [] then .ok prompt else guidance.map (substitute prompt)

def agentSpec (x : AgentRunner) (d : AgentDefinition) (instructions : Text) : AgentSpec :=
  { modelName := modelName x d, instructions := instructions, allowed := visibleToolNames d.tools d.autonomy,
    proposeTool := d.autonomy = .proposal }

/-- The guarded section. -/
def Collaborators.guardedSection (c : Collaborators Args) (d : AgentDefinition) (prompt : Option String) :
    Managed ℚ≥0 Exn (String × Nat) :=
  ⟨c.enter, c.agentRun (prompt.getD "Run your maintenance task now.") d.limits, c.leave, c.leaveCut⟩

/-- The seconds of `asyncio.timeout`: a deadline that is not in the future is now. Left out
    are numbers that no float holds (2^1024 - 2^970 and more): the sum with the time of the
    loop raises `OverflowError`. -/
def deadline (d : AgentDefinition) : ℚ≥0 := d.limits.timeoutSeconds.toNat

/-- The `except` clauses, in their order. -/
def caught : Except Exn (String × Nat) → AgentOutcome
  | .ok (output, toolCalls) => .returned output toolCalls
  | .error (.usageLimitExceeded text) => .usageLimitExceeded text
  | .error (.timeoutError _) => .timeoutError
  | .error e => .raised e.text

def guarded (c : Collaborators Args) (d : AgentDefinition) (prompt : Option String) : Outcome :=
  (caught ((c.guardedSection d prompt).timeout (deadline d) (.timeoutError ""))).outcome d.limits.timeoutSeconds

/-- `deps.proposals` after the guarded section. -/
def depsProposals (c : Collaborators Args) (d : AgentDefinition) (prompt : Option String) : List (ProposedAction Args) :=
  if d.autonomy = .proposal ∧ (c.guardedSection d prompt).reached (deadline d) = true then c.proposed else []

/-- `persistence_error` after the proposals from the `k`-th on. -/
def persist (add : Nat → ProposedAction Args → Option String) : Nat → List (ProposedAction Args) → Option String → Option String
  | _, [], last => last
  | k, p :: ps, last => persist add (k + 1) ps ((add k p).or last)

def persistenceError (x : AgentRunner) (c : Collaborators Args) (d : AgentDefinition) (prompt : Option String) : Option String :=
  if d.autonomy = .proposal ∧ x.proposalSink = true then persist c.add 0 (depsProposals c d prompt) none else none

/-- From the guarded section to the report. -/
def finish (x : AgentRunner) (c : Collaborators Args) (d : AgentDefinition) (prompt : Option String) (runId : String)
    (traceId : Option String) : RunReport Args :=
  RunState.report ⟨d, runId, traceId, .agent, depsProposals c d prompt, persistenceError x c d prompt⟩ (guarded c d prompt)

/-- The report when the guidance cannot be fetched. -/
def unresolved (d : AgentDefinition) (runId text : String) : RunReport Args :=
  { runId := runId, agentId := d.id, status := .error, summary := "", toolCalls := 0, proposals := [], error := some text }

def run (x : AgentRunner) (c : Collaborators Args) (d : AgentDefinition) (prompt : Option String) (runId : String)
    (traceId : Option String) : Except Exn (RunReport Args) :=
  (c.modelFactory x.config.ollama.baseUrl (modelName x d)).bind fun _ =>
    (c.mcpServerFactory x.config.mcp.baseUrl x.config.mcp.bearerToken).bind fun _ =>
      (c.filtered (visibleToolNames d.tools d.autonomy)).bind fun _ =>
        match resolveSystemPrompt d c.guidance with
        | .error (.guidanceFetchError text) => .ok (unresolved d runId text)
        | .error e => .error e
        | .ok systemPrompt => (c.agentInit (agentSpec x d systemPrompt)).bind fun _ => .ok (finish x c d prompt runId traceId)

/-! ## The ways through `run` -/

/-- Everything up to the guarded section returns. -/
structure Prepared (x : AgentRunner) (c : Collaborators Args) (d : AgentDefinition) : Prop where
  modelFactory : c.modelFactory x.config.ollama.baseUrl (modelName x d) = .ok ()
  mcpServerFactory : c.mcpServerFactory x.config.mcp.baseUrl x.config.mcp.bearerToken = .ok ()
  filtered : c.filtered (visibleToolNames d.tools d.autonomy) = .ok ()
  agentInit : ∃ p, resolveSystemPrompt d c.guidance = .ok p ∧ c.agentInit (agentSpec x d p) = .ok ()

/-- Everything up to the guidance returns, and the guidance cannot be fetched. -/
structure Unguided (x : AgentRunner) (c : Collaborators Args) (d : AgentDefinition) (text : String) : Prop where
  modelFactory : c.modelFactory x.config.ollama.baseUrl (modelName x d) = .ok ()
  mcpServerFactory : c.mcpServerFactory x.config.mcp.baseUrl x.config.mcp.bearerToken = .ok ()
  filtered : c.filtered (visibleToolNames d.tools d.autonomy) = .ok ()
  guidance : resolveSystemPrompt d c.guidance = .error (.guidanceFetchError text)

section

variable {x : AgentRunner} {c : Collaborators Args} {d : AgentDefinition} {prompt : Option String} {runId : String}
  {traceId : Option String}

theorem run_prepared (h : Prepared x c d) : run x c d prompt runId traceId = .ok (finish x c d prompt runId traceId) := by
  obtain ⟨hm, hs, hf, p, hp, ha⟩ := h
  simp [run, hm, hs, hf, hp, ha, Except.bind]

theorem run_unguided {text : String} (h : Unguided x c d text) :
    run x c d prompt runId traceId = .ok (unresolved d runId text) := by
  obtain ⟨hm, hs, hf, hp⟩ := h
  simp [run, hm, hs, hf, hp, Except.bind]

/-- A run that returns got to the guarded section, or could not fetch the guidance. -/
theorem run_returns {report : RunReport Args} (h : run x c d prompt runId traceId = .ok report) :
    (Prepared x c d ∧ report = finish x c d prompt runId traceId) ∨ ∃ text, Unguided x c d text ∧ report = unresolved d runId text := by
  unfold run at h
  cases hm : c.modelFactory x.config.ollama.baseUrl (modelName x d) with
  | error e => simp [hm, Except.bind] at h
  | ok u =>
    cases hs : c.mcpServerFactory x.config.mcp.baseUrl x.config.mcp.bearerToken with
    | error e => simp [hm, hs, Except.bind] at h
    | ok u =>
      cases hf : c.filtered (visibleToolNames d.tools d.autonomy) with
      | error e => simp [hm, hs, hf, Except.bind] at h
      | ok u =>
        simp only [hm, hs, hf, Except.bind] at h
        split at h
        · rename_i text hp
          cases h
          exact Or.inr ⟨text, ⟨hm, hs, hf, hp⟩, rfl⟩
        · cases h
        · rename_i p hp
          cases ha : c.agentInit (agentSpec x d p) with
          | error e => simp [ha] at h
          | ok u =>
            simp only [ha] at h
            cases h
            exact Or.inl ⟨⟨hm, hs, hf, p, hp, ha⟩, rfl⟩

/-! ## The guarded section -/

@[simp] theorem finish_status : (finish x c d prompt runId traceId).status = (guarded c d prompt).status := rfl
@[simp] theorem finish_error : (finish x c d prompt runId traceId).error = (guarded c d prompt).error := rfl
@[simp] theorem finish_agentId : (finish x c d prompt runId traceId).agentId = d.id := rfl

end

theorem outcome_ok (o : AgentOutcome) (timeoutSeconds : Int) :
    (o.outcome timeoutSeconds).status = .ok ↔ (o.outcome timeoutSeconds).error = none := by
  cases o <;> simp [AgentOutcome.outcome]

theorem caught_ok (r : Except Exn (String × Nat)) (timeoutSeconds : Int) :
    ((caught r).outcome timeoutSeconds).status = .ok ↔ ∃ out, r = .ok out := by
  cases r with
  | ok out => simp [caught, AgentOutcome.outcome]
  | error e => cases e <;> simp [caught, AgentOutcome.outcome]

/-- The status is OK iff the section returned, and in time. -/
theorem guarded_ok (c : Collaborators Args) (d : AgentDefinition) (prompt : Option String) :
    (guarded c d prompt).status = .ok ↔
      ∃ t out, (c.guardedSection d prompt).alone = some (t, .ok out) ∧ InTime (deadline d) t := by
  rw [guarded, caught_ok]
  constructor
  · rintro ⟨out, h⟩
    unfold Managed.timeout at h
    split at h
    · rename_i t r hu
      subst h
      exact ⟨t, out, Managed.under_own.mp hu⟩
    · cases h
    · cases h
  · rintro ⟨t, out, h⟩
    exact ⟨out, by rw [Managed.timeout, Managed.under_own.mpr h]⟩

/-! ## `run` never raises -/

/-- Something other than an `add` raises, or the deadline does. -/
inductive Raised (x : AgentRunner) (c : Collaborators Args) (d : AgentDefinition) (prompt : Option String) : Prop
  | modelFactory (e : Exn) (h : c.modelFactory x.config.ollama.baseUrl (modelName x d) = .error e)
  | mcpServerFactory (e : Exn) (h : c.mcpServerFactory x.config.mcp.baseUrl x.config.mcp.bearerToken = .error e)
  | filtered (e : Exn) (h : c.filtered (visibleToolNames d.tools d.autonomy) = .error e)
  | guidance (e : Exn) (asked : referencedKeys (Text.ofString d.systemPrompt) ≠ []) (h : c.guidance = .error e)
  | agentInit (p : Text) (e : Exn) (hp : resolveSystemPrompt d c.guidance = .ok p) (h : c.agentInit (agentSpec x d p) = .error e)
  | enter (t : ℚ≥0) (e : Exn) (h : (c.guardedSection d prompt).enter.ends = some (t, .error e))
  | agentRun (t : ℚ≥0) (e : Exn) (h : (c.guardedSection d prompt).body.ends = some (t, .error e))
  | leave (t : ℚ≥0) (e : Exn) (h : (c.guardedSection d prompt).leave.ends = some (t, .error e))
  | deadline (y : Option Exn) (h : (c.guardedSection d prompt).under (deadline d) = .cut y)

/-- A report for the definition, with an error if anything but the sink raised. -/
def Reports (x : AgentRunner) (c : Collaborators Args) (d : AgentDefinition) (prompt : Option String) (runId : String)
    (traceId : Option String) : Prop :=
  ∃ report, run x c d prompt runId traceId = .ok report ∧ report.agentId = d.id ∧
    (Raised x c d prompt → report.status ≠ .ok ∧ report.error ≠ none)

/-- What stands outside the `try` blocks, as far as the run gets, raises nothing. -/
structure Contained (x : AgentRunner) (c : Collaborators Args) (d : AgentDefinition) : Prop where
  modelFactory : c.modelFactory x.config.ollama.baseUrl (modelName x d) = .ok ()
  mcpServerFactory : c.mcpServerFactory x.config.mcp.baseUrl x.config.mcp.bearerToken = .ok ()
  filtered : c.filtered (visibleToolNames d.tools d.autonomy) = .ok ()
  guidance : ∀ e, referencedKeys (Text.ofString d.systemPrompt) ≠ [] → c.guidance = .error e → ∃ text, e = .guidanceFetchError text
  agentInit : ∀ p, resolveSystemPrompt d c.guidance = .ok p → c.agentInit (agentSpec x d p) = .ok ()

section

variable {x : AgentRunner} {c : Collaborators Args} {d : AgentDefinition} {prompt : Option String} {runId : String}
  {traceId : Option String}

theorem resolve_error {e : Exn} : resolveSystemPrompt d c.guidance = .error e ↔
    referencedKeys (Text.ofString d.systemPrompt) ≠ [] ∧ c.guidance = .error e := by
  unfold resolveSystemPrompt
  by_cases hk : referencedKeys (Text.ofString d.systemPrompt) = []
  · simp [hk]
  · cases hg : c.guidance with
    | error e' => simp [hk, Except.map]
    | ok guidance => simp [hk, Except.map]

theorem contained_iff : Contained x c d ↔ Prepared x c d ∨ ∃ text, Unguided x c d text := by
  constructor
  · rintro ⟨hm, hs, hf, hg, ha⟩
    cases hp : resolveSystemPrompt d c.guidance with
    | ok p => exact Or.inl ⟨hm, hs, hf, p, hp, ha p hp⟩
    | error e =>
      obtain ⟨asked, he⟩ := resolve_error.mp hp
      obtain ⟨text, rfl⟩ := hg e asked he
      exact Or.inr ⟨text, hm, hs, hf, hp⟩
  · rintro (⟨hm, hs, hf, p, hp, ha⟩ | ⟨text, hm, hs, hf, hp⟩)
    · refine ⟨hm, hs, hf, fun e asked he => ?_, fun p' hp' => ?_⟩
      · rw [resolve_error.mpr ⟨asked, he⟩] at hp
        cases hp
      · rw [hp] at hp'
        cases hp'
        exact ha
    · refine ⟨hm, hs, hf, fun e asked he => ?_, fun p' hp' => ?_⟩
      · rw [resolve_error.mpr ⟨asked, he⟩] at hp
        cases hp
        exact ⟨text, rfl⟩
      · rw [hp] at hp'
        cases hp'

/-- If the run gets to the guarded section and its status is OK, nothing raised. -/
theorem quiet_of_ok (hp : Prepared x c d) (h : (guarded c d prompt).status = .ok) : ¬ Raised x c d prompt := by
  obtain ⟨hm, hs, hf, p, hr, ha⟩ := hp
  obtain ⟨t, out, halone, ht⟩ := (guarded_ok c d prompt).mp h
  obtain ⟨⟨d₁, u, h₁⟩, ⟨d₂, h₂⟩, ⟨d₃, v, h₃⟩⟩ := Managed.alone_ok halone
  intro hraised
  cases hraised with
  | modelFactory e he => rw [hm] at he; cases he
  | mcpServerFactory e he => rw [hs] at he; cases he
  | filtered e he => rw [hf] at he; cases he
  | guidance e asked he => rw [resolve_error.mpr ⟨asked, he⟩] at hr; cases hr
  | agentInit p' e hp' he =>
    rw [hr] at hp'
    cases hp'
    rw [ha] at he
    cases he
  | enter t e he => rw [h₁] at he; cases he
  | agentRun t e he => rw [h₂] at he; cases he
  | leave t e he => rw [h₃] at he; cases he
  | deadline y he => rw [Managed.under_own.mpr ⟨halone, ht⟩] at he; cases he

/-- `run` never raises, and reports what was raised, iff nothing outside its `try` blocks
    raises. -/
theorem run_reports_iff (x : AgentRunner) (c : Collaborators Args) (d : AgentDefinition) (prompt : Option String)
    (runId : String) (traceId : Option String) : Reports x c d prompt runId traceId ↔ Contained x c d := by
  rw [contained_iff]
  constructor
  · rintro ⟨report, hrun, -⟩
    rcases run_returns hrun with ⟨hp, -⟩ | ⟨text, hu, -⟩
    · exact Or.inl hp
    · exact Or.inr ⟨text, hu⟩
  · rintro (hp | ⟨text, hu⟩)
    · refine ⟨_, run_prepared hp, rfl, fun hraised => ?_⟩
      have hne : (guarded c d prompt).status ≠ .ok := fun h => quiet_of_ok hp h hraised
      exact ⟨hne, fun he => hne ((outcome_ok _ _).mpr he)⟩
    · exact ⟨_, run_unguided hu, rfl, fun _ => ⟨by simp [unresolved], by simp [unresolved]⟩⟩

end

/-! ## How a run ended -/

/-- The section would end by itself with `r`, before the deadline. -/
def Ends (c : Collaborators Args) (d : AgentDefinition) (prompt : Option String) (r : Except Exn (String × Nat)) : Prop :=
  ∃ t, (c.guardedSection d prompt).alone = some (t, r) ∧ t < deadline d

/-- The section would still be running at the deadline. -/
def Elapses (c : Collaborators Args) (d : AgentDefinition) (prompt : Option String) : Prop :=
  ∀ t r, (c.guardedSection d prompt).alone = some (t, r) → deadline d ≤ t

/-- The report says how the section ended. -/
structure Classified (c : Collaborators Args) (d : AgentDefinition) (prompt : Option String) (report : RunReport Args) : Prop where
  timeout : (report.status = .timeout ∧ report.error = some ("Run exceeded " ++ toString d.limits.timeoutSeconds ++ "s")) ↔
    Elapses c d prompt
  limitExceeded : report.status = .limitExceeded ↔ ∃ text, Ends c d prompt (.error (.usageLimitExceeded text))
  ok : report.status = .ok ↔ ∃ out, Ends c d prompt (.ok out)
  error : ∀ e, Ends c d prompt (.error e) → (∀ text, e ≠ .usageLimitExceeded text) →
    report.status = .error ∧ report.error = some e.text

/-- The section raises no `TimeoutError` of its own before the deadline, and at the
    deadline nothing but the cancellation or a `TimeoutError` leaves it. -/
structure Unambiguous (c : Collaborators Args) (d : AgentDefinition) (prompt : Option String) : Prop where
  own : ∀ text, ¬ Ends c d prompt (.error (.timeoutError text))
  cut : ∀ e, (c.guardedSection d prompt).under (deadline d) = .cut (some e) → ∃ text, e = .timeoutError text

section

variable {c : Collaborators Args} {d : AgentDefinition} {prompt : Option String}

theorem deadline_pos (hT : 0 < d.limits.timeoutSeconds) : 0 < deadline d := by
  rw [deadline, Nat.cast_pos]
  omega

theorem inTime_iff (hT : 0 < d.limits.timeoutSeconds) {t : ℚ≥0} : InTime (deadline d) t ↔ t < deadline d :=
  ⟨fun h => h.elim (fun e => e ▸ deadline_pos hT) id, Or.inr⟩

/-- The section ends in time, or it is cut. -/
theorem ends_or_cut (c : Collaborators Args) (prompt : Option String) (hT : 0 < d.limits.timeoutSeconds) :
    (∃ t r, (c.guardedSection d prompt).under (deadline d) = .own t r ∧ Ends c d prompt r) ∨
      ∃ y, (c.guardedSection d prompt).under (deadline d) = .cut y ∧ Elapses c d prompt := by
  cases hu : (c.guardedSection d prompt).under (deadline d) with
  | own t r =>
    obtain ⟨ha, ht⟩ := Managed.under_own.mp hu
    exact Or.inl ⟨t, r, rfl, t, ha, (inTime_iff hT).mp ht⟩
  | cut y =>
    refine Or.inr ⟨y, rfl, fun t r ha => not_lt.mp fun ht => ?_⟩
    exact Managed.under_cut.mp ⟨y, hu⟩ t r ha ((inTime_iff hT).mpr ht)

theorem ends_unique {r r' : Except Exn (String × Nat)} (h : Ends c d prompt r) (h' : Ends c d prompt r') : r = r' := by
  obtain ⟨t, ha, -⟩ := h
  obtain ⟨t', ha', -⟩ := h'
  rw [ha] at ha'
  cases ha'
  rfl

theorem not_elapses {r : Except Exn (String × Nat)} (h : Ends c d prompt r) : ¬ Elapses c d prompt := by
  obtain ⟨t, ha, ht⟩ := h
  exact fun he => absurd ht (not_lt.mpr (he t r ha))

/-- The outcome of a section that ended by itself, with no `TimeoutError`. -/
theorem classified_ends {r : Except Exn (String × Nat)} (h : Ends c d prompt r) (hr : ∀ text, r ≠ .error (.timeoutError text))
    {report : RunReport Args} (hs : report.status = ((caught r).outcome d.limits.timeoutSeconds).status)
    (he : report.error = ((caught r).outcome d.limits.timeoutSeconds).error) : Classified c d prompt report := by
  have hnot : ¬ Elapses c d prompt := not_elapses h
  cases r with
  | ok out =>
    refine ⟨iff_of_false (fun h' => ?_) hnot, iff_of_false (fun h' => ?_) ?_, iff_of_true hs ⟨out, h⟩, fun e h' => ?_⟩
    · rw [hs] at h'
      cases h'.1
    · rw [hs] at h'
      cases h'
    · rintro ⟨text, h'⟩
      cases ends_unique h h'
    · cases ends_unique h h'
  | error e =>
    have hok : ¬ ∃ out, Ends c d prompt (.ok out) := by
      rintro ⟨out, h'⟩
      cases ends_unique h h'
    cases e with
    | timeoutError text => exact absurd rfl (hr text)
    | usageLimitExceeded text =>
      refine ⟨iff_of_false (fun h' => ?_) hnot, iff_of_true hs ⟨text, h⟩, iff_of_false (fun h' => ?_) hok, fun e h' hne => ?_⟩
      · rw [hs] at h'
        cases h'.1
      · rw [hs] at h'
        cases h'
      · cases ends_unique h h'
        exact absurd rfl (hne text)
    | guidanceFetchError text | other text =>
      refine ⟨iff_of_false (fun h' => ?_) hnot, iff_of_false (fun h' => ?_) ?_, iff_of_false (fun h' => ?_) hok, fun e h' _ => ?_⟩
      · rw [hs] at h'
        cases h'.1
      · rw [hs] at h'
        cases h'
      · rintro ⟨text', h'⟩
        cases ends_unique h h'
      · rw [hs] at h'
        cases h'
      · cases ends_unique h h'
        exact ⟨hs, he⟩

/-- The outcome of a section that the deadline ended. -/
theorem classified_elapses (h : Elapses c d prompt) {report : RunReport Args} (hs : report.status = .timeout)
    (he : report.error = some ("Run exceeded " ++ toString d.limits.timeoutSeconds ++ "s")) : Classified c d prompt report := by
  refine ⟨iff_of_true ⟨hs, he⟩ h, iff_of_false (fun h' => ?_) ?_, iff_of_false (fun h' => ?_) ?_, fun e h' => ?_⟩
  · rw [hs] at h'
    cases h'
  · rintro ⟨text, h'⟩
    exact not_elapses h' h
  · rw [hs] at h'
    cases h'
  · rintro ⟨out, h'⟩
    exact not_elapses h' h
  · exact absurd h (not_elapses h')

end

theorem guarded_own {c : Collaborators Args} {d : AgentDefinition} {prompt : Option String} {t : ℚ≥0}
    {r : Except Exn (String × Nat)} (h : (c.guardedSection d prompt).under (deadline d) = .own t r) :
    guarded c d prompt = (caught r).outcome d.limits.timeoutSeconds := by
  rw [guarded, Managed.timeout, h]

theorem guarded_cut {c : Collaborators Args} {d : AgentDefinition} {prompt : Option String} {y : Option Exn}
    (h : (c.guardedSection d prompt).under (deadline d) = .cut y) :
    guarded c d prompt = (caught (.error (y.getD (.timeoutError "")))).outcome d.limits.timeoutSeconds := by
  cases y <;> rw [guarded, Managed.timeout, h] <;> rfl

/-- A run that gets to its guarded section reports how that ended iff the section is
    unambiguous. -/
theorem classified_iff (x : AgentRunner) (c : Collaborators Args) (d : AgentDefinition) (prompt : Option String) (runId : String)
    (traceId : Option String) (hT : 0 < d.limits.timeoutSeconds) (hp : Prepared x c d) :
    ∃ report, run x c d prompt runId traceId = .ok report ∧ (Classified c d prompt report ↔ Unambiguous c d prompt) := by
  refine ⟨_, run_prepared hp, ?_⟩
  rcases ends_or_cut c prompt hT with ⟨t, r, hu, h⟩ | ⟨y, hu, h⟩
  · have hg := guarded_own hu
    by_cases hr : ∃ text, r = .error (.timeoutError text)
    · obtain ⟨text, rfl⟩ := hr
      refine iff_of_false (fun hc => ?_) fun hq => hq.own text h
      have := (hc.error _ h (fun _ e => by cases e)).1
      rw [finish_status, hg] at this
      cases this
    · have hr : ∀ text, r ≠ .error (.timeoutError text) := fun text e => hr ⟨text, e⟩
      refine iff_of_true (classified_ends h hr (by rw [finish_status, hg]) (by rw [finish_error, hg])) ⟨fun text h' => ?_, fun e h' => ?_⟩
      · exact hr text (ends_unique h h')
      · rw [hu] at h'
        cases h'
  · have hg := guarded_cut hu
    have hown : ∀ text, ¬ Ends c d prompt (.error (.timeoutError text)) := fun text h' => not_elapses h' h
    by_cases hy : ∃ text, y.getD (.timeoutError "") = .timeoutError text
    · obtain ⟨text, hy⟩ := hy
      rw [hy] at hg
      refine iff_of_true (classified_elapses h (by rw [finish_status, hg]; rfl) (by rw [finish_error, hg]; rfl)) ⟨hown, fun e h' => ?_⟩
      rw [hu] at h'
      cases h'
      exact ⟨text, hy⟩
    · refine iff_of_false (fun hc => ?_) fun hq => hy ?_
      · have := (hc.timeout.mpr h).1
        rw [finish_status, hg] at this
        cases he : y.getD (.timeoutError "") with
        | timeoutError text => exact hy ⟨text, he⟩
        | _ => rw [he] at this; cases this
      · cases y with
        | none => exact ⟨"", rfl⟩
        | some e => exact hq.cut e hu

/-! ## Failed `add`s -/

theorem persist_none {add : Nat → ProposedAction Args → Option String} (ps : List (ProposedAction Args)) (k : Nat)
    (last : Option String) :
    persist add k ps last = none ↔ last = none ∧ ∀ j p, ps[j]? = some p → add (k + j) p = none := by
  induction ps generalizing k last with
  | nil => simp [persist]
  | cons p ps ih =>
    rw [persist, ih, Option.or_eq_none_iff]
    constructor
    · rintro ⟨⟨hp, hl⟩, hps⟩
      refine ⟨hl, fun j q hj => ?_⟩
      cases j with
      | zero => cases hj; exact hp
      | succ j =>
        have := hps j q hj
        rwa [Nat.add_right_comm, Nat.add_assoc] at this
    · rintro ⟨hl, hps⟩
      refine ⟨⟨hps 0 p rfl, hl⟩, fun j q hj => ?_⟩
      have := hps (j + 1) q hj
      rwa [← Nat.add_assoc, Nat.add_right_comm] at this

/-- The sink whose `add` never fails. -/
def neverFails (c : Collaborators Args) : Collaborators Args := { c with add := fun _ _ => none }

/-- The sink is given a proposal on which its `add` raises. -/
def AddRaised (x : AgentRunner) (c : Collaborators Args) (d : AgentDefinition) (prompt : Option String) : Prop :=
  Prepared x c d ∧ ∃ k p, (depsProposals c d prompt)[k]? = some p ∧ c.add k p ≠ none

/-- The reports with this sink and with one that never fails differ iff an `add` raised. -/
def Discloses (x : AgentRunner) (c : Collaborators Args) (d : AgentDefinition) (prompt : Option String) (runId : String)
    (traceId : Option String) : Prop :=
  (AddRaised x c d prompt → run x c d prompt runId traceId ≠ run x (neverFails c) d prompt runId traceId) ∧
    (¬ AddRaised x c d prompt → run x c d prompt runId traceId = run x (neverFails c) d prompt runId traceId)

section

variable {x : AgentRunner} {c : Collaborators Args} {d : AgentDefinition} {prompt : Option String} {runId : String}
  {traceId : Option String}

theorem persistenceError_none (hd : d.autonomy = .proposal) (hs : x.proposalSink = true) (hp : Prepared x c d) :
    persistenceError x c d prompt = none ↔ ¬ AddRaised x c d prompt := by
  rw [persistenceError, if_pos ⟨hd, hs⟩, persist_none]
  constructor
  · rintro ⟨-, h⟩ ⟨-, k, p, hk, hne⟩
    exact hne (by simpa using h k p hk)
  · intro h
    refine ⟨rfl, fun j p hj => ?_⟩
    rw [Nat.zero_add]
    by_contra hne
    exact h ⟨hp, j, p, hj, hne⟩

theorem persistenceError_neverFails : persistenceError x (neverFails c) d prompt = none := by
  unfold persistenceError
  split
  · exact (persist_none _ 0 none).mpr ⟨rfl, fun _ _ _ => rfl⟩
  · rfl

/-- The report of a run with no failed `add`. -/
theorem finish_quiet (h : persistenceError x c d prompt = none) :
    finish x c d prompt runId traceId = finish x (neverFails c) d prompt runId traceId := by
  have h' : persistenceError x (neverFails c) d prompt = none := persistenceError_neverFails
  simp only [finish, h, h']
  rfl

/-- A run that does not get to the guarded section never calls `add`. -/
theorem run_neverFails (h : ¬ Prepared x c d) : run x c d prompt runId traceId = run x (neverFails c) d prompt runId traceId := by
  unfold run
  cases hm : c.modelFactory x.config.ollama.baseUrl (modelName x d) with
  | error e => simp [neverFails, hm, Except.bind]
  | ok u =>
    cases hs : c.mcpServerFactory x.config.mcp.baseUrl x.config.mcp.bearerToken with
    | error e => simp [neverFails, hm, hs, Except.bind]
    | ok u =>
      cases hf : c.filtered (visibleToolNames d.tools d.autonomy) with
      | error e => simp [neverFails, hm, hs, hf, Except.bind]
      | ok u =>
        cases hp : resolveSystemPrompt d c.guidance with
        | error e => cases e <;> simp [neverFails, hm, hs, hf, hp, Except.bind]
        | ok p =>
          cases ha : c.agentInit (agentSpec x d p) with
          | error e => simp [neverFails, hm, hs, hf, hp, ha, Except.bind]
          | ok u => exact absurd ⟨hm, hs, hf, p, hp, ha⟩ h

theorem prepared_neverFails (h : Prepared x c d) : Prepared x (neverFails c) d :=
  ⟨h.modelFactory, h.mcpServerFactory, h.filtered, h.agentInit⟩

/-- With a failed `add` the report differs iff its status is OK. -/
theorem finish_degraded (runId : String) (traceId : Option String) {e : String} (he : persistenceError x c d prompt = some e) :
    finish x c d prompt runId traceId = finish x (neverFails c) d prompt runId traceId ↔ (guarded c d prompt).status ≠ .ok := by
  have hnone : persistenceError x (neverFails c) d prompt = none := persistenceError_neverFails
  have hsame : guarded (neverFails c) d prompt = guarded c d prompt := rfl
  constructor
  · intro h hok
    have hsum := congrArg (fun r => r.summary.length) h
    simp only [finish, RunState.report, he, hnone, hsame, hok, if_true, String.length_append] at hsum
    have : 0 < "]".length := by decide
    omega
  · intro hne
    simp only [finish, RunState.report, he, hnone, hsame, if_neg hne]
    rfl

/-- Failed `add`s show in the report iff there are none, or `agent.run` returned in time. -/
theorem discloses_iff (x : AgentRunner) (c : Collaborators Args) (d : AgentDefinition) (prompt : Option String) (runId : String)
    (traceId : Option String) (hd : d.autonomy = .proposal) (hs : x.proposalSink = true) :
    Discloses x c d prompt runId traceId ↔
      (AddRaised x c d prompt → ∃ t out, (c.guardedSection d prompt).alone = some (t, .ok out) ∧ InTime (deadline d) t) := by
  rw [← guarded_ok]
  by_cases hr : AddRaised x c d prompt
  · obtain ⟨hp, hadd⟩ := hr
    have hr : AddRaised x c d prompt := ⟨hp, hadd⟩
    obtain ⟨e, he⟩ : ∃ e, persistenceError x c d prompt = some e :=
      Option.ne_none_iff_exists'.mp fun h => (persistenceError_none hd hs hp).mp h hr
    rw [Discloses, run_prepared hp, run_prepared (prepared_neverFails hp), Ne, Except.ok.injEq,
      finish_degraded runId traceId he, not_ne_iff]
    exact ⟨fun h hr => h.1 hr, fun h => ⟨h, fun hn => absurd hr hn⟩⟩
  · refine iff_of_true ⟨fun h => absurd h hr, fun _ => ?_⟩ fun h => absurd h hr
    by_cases hp : Prepared x c d
    · rw [run_prepared hp, run_prepared (prepared_neverFails hp), finish_quiet ((persistenceError_none hd hs hp).mpr hr)]
    · exact run_neverFails hp

end

/-! ## As moves of the run -/

section

variable {x : AgentRunner} {c : Collaborators Args} {d : AgentDefinition}

theorem propose_all (r : RunState Args) (hp : r.pc = .agent) (hd : r.definition.autonomy = .proposal)
    (ps : List (ProposedAction Args)) :
    Run (Runner.advance x) (fun _ _ => True) r { r with proposals := r.proposals ++ ps } := by
  induction ps generalizing r with
  | nil => rw [List.append_nil]; exact .refl r
  | cons p ps ih =>
    have hstep : Runner.advance x r (.propose p.action p.arguments p.rationale) = some { r with proposals := r.proposals ++ [p] } := by
      simp [Runner.advance, hp, hd]
    have := ih { r with proposals := r.proposals ++ [p] } hp hd
    rw [List.append_assoc] at this
    exact (Run.single _ trivial hstep).trans this

theorem persistFrom_to (r : RunState Args) (pc : Runner.Pc Args) (o : Outcome) (k : Nat) :
    (r.to pc).persistFrom x o k = r.persistFrom x o k := rfl

/-- The sink is given the proposals from the `k`-th on, and the run reports. -/
theorem persist_all (o : Outcome) (add : Nat → ProposedAction Args → Option String) (r : RunState Args)
    (hd : r.definition.autonomy = .proposal) (hs : x.proposalSink = true) (pre ps : List (ProposedAction Args))
    (hps : r.proposals = pre ++ ps) :
    Run (Runner.advance x) (fun _ _ => True) (r.persistFrom x o pre.length)
      ({ r with persistenceError := persist add pre.length ps r.persistenceError }.to
        (.ended ({ r with persistenceError := persist add pre.length ps r.persistenceError }.report o))) := by
  induction ps generalizing r pre with
  | nil =>
    have hlen : ¬ pre.length < r.proposals.length := by simp [hps]
    rw [RunState.persistFrom, if_neg fun h => hlen h.2.2]
    exact .refl _
  | cons p ps ih =>
    have hlen : pre.length < r.proposals.length := by simp [hps]
    have hcons : r.proposals = (pre ++ [p]) ++ ps := by simp [hps]
    have hk : (pre ++ [p]).length = pre.length + 1 := by simp
    rw [RunState.persistFrom, if_pos ⟨hd, hs, hlen⟩]
    cases ha : add pre.length p with
    | none =>
      have hstep : Runner.advance x (r.to (.persisting o pre.length)) .added = some (r.persistFrom x o (pre.length + 1)) :=
        congrArg some (persistFrom_to r _ o _)
      have := ih r hd (pre ++ [p]) hcons
      rw [hk] at this
      rw [persist, ha, Option.none_or]
      exact (Run.single _ trivial hstep).trans this
    | some e =>
      have hstep : Runner.advance x (r.to (.persisting o pre.length)) (.addFails e) =
          some ({ r with persistenceError := some e }.persistFrom x o (pre.length + 1)) :=
        congrArg some (persistFrom_to { r with persistenceError := some e } _ o _)
      have := ih { r with persistenceError := some e } hd (pre ++ [p]) hcons
      rw [hk] at this
      rw [persist, ha, Option.some_or]
      exact (Run.single _ trivial hstep).trans this

/-- From the guarded section to the report. -/
theorem finish_advances (prompt : Option String) (runId : String) (traceId : Option String) :
    ∃ t, Run (Runner.advance x) (fun _ _ => True) (Runner.begin d runId traceId) t ∧
      t.pc = .ended (finish x c d prompt runId traceId) := by
  let r : RunState Args := (Runner.begin d runId traceId).to .agent
  let q : RunState Args := { r with proposals := depsProposals c d prompt }
  have hresolved : Run (Runner.advance x) (fun _ _ => True) (Runner.begin d runId traceId) r := Run.single .resolved trivial rfl
  have hproposed : Run (Runner.advance x) (fun _ _ => True) r q := by
    by_cases hd : d.autonomy = .proposal
    · exact propose_all r rfl hd (depsProposals c d prompt)
    · have hnil : depsProposals c d prompt = [] := if_neg fun h => hd h.1
      have : q = r := by simp [q, hnil, r, Runner.begin, RunState.to]
      rw [this]
      exact .refl r
  let ending := caught ((c.guardedSection d prompt).timeout (deadline d) (.timeoutError ""))
  have hends : Runner.advance x q (.agentEnds ending) = some (q.persistFrom x (guarded c d prompt) 0) := rfl
  have hagent := (hresolved.trans hproposed).trans (Run.single _ trivial hends)
  by_cases h : d.autonomy = .proposal ∧ x.proposalSink = true
  · have hpersist := persist_all (guarded c d prompt) c.add q h.1 h.2 [] (depsProposals c d prompt) rfl
    refine ⟨_, hagent.trans hpersist, ?_⟩
    simp only [finish, persistenceError, if_pos h]
    rfl
  · refine ⟨_, hagent, ?_⟩
    have hnot : ¬ (q.definition.autonomy = .proposal ∧ x.proposalSink = true ∧ 0 < q.proposals.length) := fun h' => h ⟨h'.1, h'.2.1⟩
    rw [RunState.persistFrom, if_neg hnot]
    simp only [finish, persistenceError, if_neg h]
    rfl

/-- `run` goes through the moves of a run: to its report, or to an exception. -/
theorem run_advances (x : AgentRunner) (c : Collaborators Args) (d : AgentDefinition) (prompt : Option String) (runId : String)
    (traceId : Option String) :
    ∃ t, Run (Runner.advance x) (fun _ _ => True) (Runner.begin d runId traceId) t ∧
      match run x c d prompt runId traceId with
      | .ok report => t.pc = .ended report
      | .error _ => t.pc = .raised := by
  cases h : run x c d prompt runId traceId with
  | error e => exact ⟨_, Run.single .raises trivial rfl, rfl⟩
  | ok report =>
    rcases run_returns h with ⟨-, rfl⟩ | ⟨text, -, rfl⟩
    · exact finish_advances prompt runId traceId
    · exact ⟨_, Run.single (.guidanceFails text) trivial rfl, rfl⟩

end

/-! ## Runs -/

def demoConfig : Config.GlobalConfig :=
  { mcp := ⟨"http://mcp", "t"⟩, ollama := ⟨"http://ollama", "qwen"⟩, redis := ⟨"redis://", "events"⟩ }

def demoRunner : AgentRunner := ⟨demoConfig, true⟩

/-- An agent whose prompt refers to no guidance, and which may run for 900 seconds. -/
def demoAgent : AgentDefinition := { id := "a" }

/-- The agent proposes one action and returns after a second. -/
def demoCollaborators : Collaborators Unit where
  modelFactory _ _ := .ok ()
  mcpServerFactory _ _ := .ok ()
  filtered _ := .ok ()
  guidance := .ok []
  agentInit _ := .ok ()
  enter := ⟨some (0, .ok ()), none⟩
  agentRun _ _ := ⟨some (1, .ok ("done", 2)), none⟩
  leave := ⟨some (0, .ok ()), none⟩
  leaveCut := none
  proposed := [⟨"retag", (), "why"⟩]
  add _ _ := none

theorem demo_prepared : Prepared demoRunner demoCollaborators demoAgent :=
  ⟨rfl, rfl, rfl, [], rfl, rfl⟩

def failingFactory : Collaborators Unit := { demoCollaborators with modelFactory := fun _ _ => .error (.other "no such model") }

/-- The model factory raises, and so does the run. -/
theorem factory_raises :
    run demoRunner failingFactory demoAgent none "r" none = .error (.other "no such model") ∧
      ¬ Reports demoRunner failingFactory demoAgent none "r" none := by
  have hrun : run demoRunner failingFactory demoAgent none "r" none = .error (.other "no such model") := rfl
  refine ⟨hrun, ?_⟩
  rintro ⟨report, h, -⟩
  rw [hrun] at h
  cases h

theorem demo_classified :
    ∃ report, run demoRunner demoCollaborators demoAgent none "r" none = .ok report ∧
      (Classified demoCollaborators demoAgent none report ↔ Unambiguous demoCollaborators demoAgent none) :=
  classified_iff demoRunner demoCollaborators demoAgent none "r" none (by decide) demo_prepared

/-- A tool's connection times out after a second. -/
def ownTimeout : Collaborators Unit :=
  { demoCollaborators with agentRun := fun _ _ => ⟨some (1, .error (.timeoutError "connect timed out")), none⟩ }

/-- The report says that the run exceeded its 900 seconds. -/
theorem own_timeout_misreported :
    ∃ report, run demoRunner ownTimeout demoAgent none "r" none = .ok report ∧ report.status = .timeout ∧
      report.error = some "Run exceeded 900s" ∧ Ends ownTimeout demoAgent none (.error (.timeoutError "connect timed out")) ∧
      ¬ Classified ownTimeout demoAgent none report := by
  have hp : Prepared demoRunner ownTimeout demoAgent := ⟨rfl, rfl, rfl, [], rfl, rfl⟩
  have hlt : (0 + 1 + 0 : ℚ≥0) < deadline demoAgent := by decide +kernel
  have hends : Ends ownTimeout demoAgent none (.error (.timeoutError "connect timed out")) := ⟨0 + 1 + 0, rfl, hlt⟩
  have hg : guarded ownTimeout demoAgent none = (⟨.timeout, "", 0, some "Run exceeded 900s"⟩ : Outcome) := by decide +kernel
  refine ⟨_, run_prepared hp, by rw [finish_status, hg], by rw [finish_error, hg], hends, fun h => ?_⟩
  have := (h.error _ hends fun _ e => by cases e).1
  rw [finish_status, hg] at this
  cases this

/-- The sink fails for every proposal. -/
def failingSink : Collaborators Unit := { demoCollaborators with add := fun _ _ => some "disk full" }

theorem demo_discloses :
    Discloses demoRunner failingSink demoAgent none "r" none ↔
      (AddRaised demoRunner failingSink demoAgent none →
        ∃ t out, (failingSink.guardedSection demoAgent none).alone = some (t, .ok out) ∧ InTime (deadline demoAgent) t) :=
  discloses_iff demoRunner failingSink demoAgent none "r" none rfl rfl

/-- The run exceeds its usage limit after it has proposed an action. -/
def limited : Collaborators Unit :=
  { failingSink with agentRun := fun _ _ => ⟨some (1, .error (.usageLimitExceeded "request limit")), none⟩ }

/-- The proposal is in the report and not in the store, and the report does not say so. -/
theorem limited_hides_failed_add :
    AddRaised demoRunner limited demoAgent none ∧
      run demoRunner limited demoAgent none "r" none = run demoRunner (neverFails limited) demoAgent none "r" none ∧
      ¬ Discloses demoRunner limited demoAgent none "r" none := by
  have hp : Prepared demoRunner limited demoAgent := ⟨rfl, rfl, rfl, [], rfl, rfl⟩
  have hadd : AddRaised demoRunner limited demoAgent none := ⟨hp, 0, ⟨"retag", (), "why"⟩, by decide +kernel, by decide⟩
  have hsame : run demoRunner limited demoAgent none "r" none = run demoRunner (neverFails limited) demoAgent none "r" none := by
    rw [run_prepared hp, run_prepared (prepared_neverFails hp)]
    decide +kernel
  exact ⟨hadd, hsame, fun h => h.1 hadd hsame⟩

end SagaAgents.Runtime.Outcomes
