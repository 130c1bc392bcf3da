/-
  SagaAgents.Runtime.HandOver — what the runs of one `AgentRunner` hand to its sink.

  Any number of runs, of any agents, take turns at every await. `proposed` records the
  `propose` calls, and `adds` the calls of `sink.add`: a run makes one when it starts to
  persist a proposal, and goes on when that call has returned or raised. Nothing is
  proposed once the agent has ended. Run ids are drawn by `uuid4`: a run starts with one
  that no earlier run has (`Fresh`).

  Proved, over every run of the system:
  - `handed_over_once`: when a proposal-mode run has returned its report, the calls of
    `sink.add` with its id are its `propose` calls, in order, with its agent's id, and so are
    the proposals of the report; an autonomous run makes none.
-/

import SagaAgents.Lib.Machine
import SagaAgents.Lib.Tasks
import SagaAgents.Runtime.Runner

namespace SagaAgents.Runtime.HandOver

open Lib
open Config (AgentDefinition)
open Runner (AgentRunner RunState ProposedAction Move Pc Advance Outcome advance)

variable {Args : Type}

/-- A call of the `propose` tool. -/
structure Propose (Args : Type) where
  runId : String
  proposed : ProposedAction Args
  deriving DecidableEq, Repr

/-- A call of `sink.add`. -/
structure Add (Args : Type) where
  agentId : String
  runId : String
  action : String
  arguments : Args
  rationale : String
  deriving DecidableEq, Repr

structure St (Args : Type) where
  runs : List (RunState Args)
  proposed : List (Propose Args)
  adds : List (Add Args)

def init : St Args := ⟨[], [], []⟩

inductive Ev (Args : Type) where
  | start (d : AgentDefinition) (runId : String) (traceId : Option String)
  | run (i : Nat) (m : Move Args)

def proposeCall (r : RunState Args) : Move Args → List (Propose Args)
  | .propose action arguments rationale => [⟨r.runId, ⟨action, arguments, rationale⟩⟩]
  | _ => []

def addOf (r : RunState Args) (p : ProposedAction Args) : Add Args :=
  ⟨r.definition.id, r.runId, p.action, p.arguments, p.rationale⟩

/-- The call a run makes when it starts to persist its next proposal. -/
def addCall (r : RunState Args) : List (Add Args) :=
  match r.pc with
  | .persisting _ k => (r.proposals[k]?).toList.map (addOf r)
  | _ => []

def step (x : AgentRunner) (s : St Args) : Ev Args → Option (St Args)
  | .start d runId traceId => some { s with runs := s.runs ++ [Runner.begin d runId traceId] }
  | .run i m =>
    s.runs[i]?.bind fun r => (advance x r m).map fun r' =>
      { runs := s.runs.set i r', proposed := s.proposed ++ proposeCall r m, adds := s.adds ++ addCall r' }

/-- A run starts with an id of its own. -/
def Fresh (s : St Args) : Ev Args → Prop
  | .start _ runId _ => ∀ r ∈ s.runs, r.runId ≠ runId
  | .run _ _ => True

instance (s : St Args) : (e : Ev Args) → Decidable (Fresh s e)
  | .start _ runId _ => inferInstanceAs (Decidable (∀ r ∈ s.runs, r.runId ≠ runId))
  | .run _ _ => inferInstanceAs (Decidable True)

def proposedBy (proposed : List (Propose Args)) (runId : String) : List (ProposedAction Args) :=
  (proposed.filter (·.runId == runId)).map (·.proposed)

def addsOf (adds : List (Add Args)) (runId : String) : List (Add Args) := adds.filter (·.runId == runId)

/-! ## One run -/

/-- What a run has done with the first `n` of its proposals: it has handed them over. -/
def Stage (x : AgentRunner) (r : RunState Args) (n : Nat) : Prop :=
  match r.pc with
  | .resolving | .raised => r.proposals = [] ∧ n = 0
  | .agent => n = 0
  | .persisting _ k => n = k + 1
  | .ended report => report.proposals = r.proposals ∧
      (x.proposalSink = true → r.definition.autonomy = .proposal → n = r.proposals.length)
  | .cancelled => True

/-- The run's part of the two logs. -/
structure Handed (x : AgentRunner) (proposed : List (Propose Args)) (adds : List (Add Args)) (r : RunState Args) (n : Nat) :
    Prop where
  proposed : proposedBy proposed r.runId = r.proposals
  adds : addsOf adds r.runId = (r.proposals.take n).map (addOf r)
  le : n ≤ r.proposals.length
  mode : r.proposals ≠ [] → r.definition.autonomy = .proposal
  stage : Stage x r n

theorem proposedBy_append (l l' : List (Propose Args)) (runId : String) :
    proposedBy (l ++ l') runId = proposedBy l runId ++ proposedBy l' runId := by
  simp [proposedBy]

theorem addsOf_append (l l' : List (Add Args)) (runId : String) : addsOf (l ++ l') runId = addsOf l runId ++ addsOf l' runId :=
  List.filter_append l l'

theorem addCall_run {r : RunState Args} {a : Add Args} (h : a ∈ addCall r) :
    a.runId = r.runId ∧ a.agentId = r.definition.id := by
  unfold addCall at h
  split at h
  · obtain ⟨p, -, e⟩ := List.mem_map.mp h
    subst e
    exact ⟨rfl, rfl⟩
  · cases h

theorem proposeCall_run {r : RunState Args} {m : Move Args} {c : Propose Args} (h : c ∈ proposeCall r m) : c.runId = r.runId := by
  unfold proposeCall at h
  split at h
  · rw [List.mem_singleton.mp h]
  · cases h

variable {x : AgentRunner} {proposed : List (Propose Args)} {adds : List (Add Args)} {r r' : RunState Args} {n : Nat}

/-- The calls of another run are not in its part of the logs. -/
theorem proposedBy_other (proposed : List (Propose Args)) {q : RunState Args} {id : String} (hq : q.runId ≠ id) (m : Move Args) :
    proposedBy (proposed ++ proposeCall q m) id = proposedBy proposed id := by
  have hp : proposedBy (proposeCall q m) id = [] := by
    rw [proposedBy, Tasks.filter_other fun c hc => (proposeCall_run hc).trans_ne hq, List.map_nil]
  rw [proposedBy_append, hp, List.append_nil]

theorem addsOf_other (adds : List (Add Args)) {q : RunState Args} {id : String} (hq : q.runId ≠ id) :
    addsOf (adds ++ addCall q) id = addsOf adds id := by
  have ha : addsOf (addCall q) id = [] := Tasks.filter_other fun a ha => (addCall_run ha).1.trans_ne hq
  rw [addsOf_append, ha, List.append_nil]

theorem handed_other (h : Handed x proposed adds r n) {q q' : RunState Args} {m : Move Args} (hq : q.runId ≠ r.runId)
    (hq' : q'.runId = q.runId) : Handed x (proposed ++ proposeCall q m) (adds ++ addCall q') r n :=
  ⟨by rw [proposedBy_other proposed hq, h.proposed], by rw [addsOf_other adds (hq' ▸ hq), h.adds], h.le, h.mode, h.stage⟩

/-- The first `n` proposals are handed over, and the run goes on with the next one. -/
theorem handed_persistFrom (hp : proposedBy proposed r.runId = r.proposals)
    (ha : addsOf adds r.runId = (r.proposals.take n).map (addOf r)) (hle : n ≤ r.proposals.length)
    (hm : r.proposals ≠ [] → r.definition.autonomy = .proposal) (o : Outcome) :
    ∃ n', Handed x proposed (adds ++ addCall (r.persistFrom x o n)) (r.persistFrom x o n) n' := by
  by_cases hc : r.definition.autonomy = .proposal ∧ x.proposalSink = true ∧ n < r.proposals.length
  · have hr : r.persistFrom x o n = r.to (.persisting o n) := if_pos hc
    have hget : r.proposals[n]? = some r.proposals[n] := List.getElem?_eq_getElem hc.2.2
    have hcall : addCall (r.to (.persisting o n)) = [addOf r r.proposals[n]] := by
      show (r.proposals[n]?).toList.map _ = _
      rw [hget]
      rfl
    rw [hr, hcall]
    refine ⟨n + 1, hp, ?_, hc.2.2, hm, rfl⟩
    have hown : addsOf [addOf r r.proposals[n]] r.runId = [addOf r r.proposals[n]] := by simp [addsOf, addOf]
    show addsOf (adds ++ [addOf r r.proposals[n]]) r.runId = (r.proposals.take (n + 1)).map (addOf r)
    rw [addsOf_append, ha, hown, List.take_add_one, hget, List.map_append]
    rfl
  · have hr : r.persistFrom x o n = r.to (.ended (r.report o)) := if_neg hc
    have hcall : addCall (r.to (.ended (r.report o))) = [] := rfl
    rw [hr, hcall, List.append_nil]
    refine ⟨n, hp, ha, hle, hm, rfl, fun hsink hmode => ?_⟩
    show n = r.proposals.length
    have hnot : ¬ n < r.proposals.length := fun hlt => hc ⟨hmode, hsink, hlt⟩
    omega

/-- A run that neither proposes nor persists keeps its part of the logs. -/
theorem handed_to (h : Handed x proposed adds r n) {pc : Pc Args} (hcall : addCall (r.to pc) = [])
    (hstage : Stage x (r.to pc) n) : Handed x (proposed ++ []) (adds ++ addCall (r.to pc)) (r.to pc) n := by
  rw [hcall, List.append_nil, List.append_nil]
  exact ⟨h.proposed, h.adds, h.le, h.mode, hstage⟩

/-- What a move of the run does to its part of the logs. -/
theorem handed_move (h : Handed x proposed adds r n) {m : Move Args} (ha : Advance x r m r') :
    ∃ n', Handed x (proposed ++ proposeCall r m) (adds ++ addCall r') r' n' := by
  have hstage := h.stage
  cases ha with
  | resolved hp =>
    simp only [Stage, hp] at hstage
    exact ⟨n, handed_to h rfl hstage.2⟩
  | guidanceFails text hp =>
    simp only [Stage, hp] at hstage
    refine ⟨n, handed_to h rfl ⟨hstage.1.symm, fun _ _ => ?_⟩⟩
    show n = r.proposals.length
    rw [hstage.1, hstage.2]
    rfl
  | raises hp =>
    simp only [Stage, hp] at hstage
    exact ⟨n, handed_to h rfl hstage⟩
  | toolCall tool arguments hp ha =>
    have hcall : addCall r = [] := by simp [addCall, hp]
    rw [hcall, List.append_nil]
    exact ⟨n, by rw [show proposeCall r (.toolCall tool arguments) = [] from rfl, List.append_nil]; exact h⟩
  | propose action arguments rationale hp hd =>
    simp only [Stage, hp] at hstage
    subst hstage
    have hcall : addCall { r with proposals := r.proposals ++ [⟨action, arguments, rationale⟩] } = [] := by simp [addCall, hp]
    rw [hcall, List.append_nil]
    refine ⟨0, ?_, h.adds, Nat.zero_le _, fun _ => hd, by simp [Stage, hp]⟩
    have hown : proposedBy (proposeCall r (.propose action arguments rationale)) r.runId = [⟨action, arguments, rationale⟩] := by
      simp [proposedBy, proposeCall]
    show proposedBy _ r.runId = r.proposals ++ _
    rw [proposedBy_append, hown, h.proposed]
  | agentEnds o hp =>
    simp only [Stage, hp] at hstage
    subst hstage
    rw [show proposeCall r (.agentEnds o) = [] from rfl, List.append_nil]
    exact handed_persistFrom h.proposed h.adds h.le h.mode _
  | added o k hp =>
    simp only [Stage, hp] at hstage
    subst hstage
    rw [show proposeCall r (.added) = [] from rfl, List.append_nil]
    exact handed_persistFrom h.proposed h.adds h.le h.mode o
  | addFails text o k hp =>
    simp only [Stage, hp] at hstage
    subst hstage
    rw [show proposeCall r (.addFails text) = [] from rfl, List.append_nil]
    exact handed_persistFrom (r := { r with persistenceError := some text }) h.proposed h.adds h.le h.mode o
  | cancel hp => exact ⟨n, handed_to h rfl trivial⟩

/-! ## All runs -/

structure Inv (x : AgentRunner) (s : St Args) : Prop where
  ids : (s.runs.map (·.runId)).Nodup
  handed : ∀ r ∈ s.runs, ∃ n, Handed x s.proposed s.adds r n
  proposed : ∀ c ∈ s.proposed, ∃ r ∈ s.runs, r.runId = c.runId
  adds : ∀ a ∈ s.adds, ∃ r ∈ s.runs, r.runId = a.runId ∧ r.definition.id = a.agentId

theorem inv_init (x : AgentRunner) : Inv x (init : St Args) :=
  ⟨List.nodup_nil, fun _ h => (by cases h), fun _ h => (by cases h), fun _ h => (by cases h)⟩

variable {s t : St Args}

theorem step_cases {e : Ev Args} (h : step x s e = some t) :
    (∃ d runId traceId, e = .start d runId traceId ∧ t = { s with runs := s.runs ++ [Runner.begin d runId traceId] }) ∨
    ∃ i m r r', e = .run i m ∧ s.runs[i]? = some r ∧ Advance x r m r' ∧
      t = { runs := s.runs.set i r', proposed := s.proposed ++ proposeCall r m, adds := s.adds ++ addCall r' } := by
  cases e with
  | start d runId traceId => cases h; exact Or.inl ⟨d, runId, traceId, rfl, rfl⟩
  | run i m =>
    obtain ⟨r, hr, h⟩ := Option.bind_eq_some_iff.mp h
    obtain ⟨r', hr', e⟩ := Option.map_eq_some_iff.mp h
    exact Or.inr ⟨i, m, r, r', rfl, hr, Runner.advance_cases hr', e.symm⟩

theorem Advance.grows {m : Move Args} (h : Advance x r m r') : r'.definition = r.definition ∧ r'.runId = r.runId := by
  cases h <;> simp [RunState.to]

/-- Every run of the list but the `i`-th has another id. -/
theorem other_id (hids : (s.runs.map (·.runId)).Nodup) {i j : Nat} {q : RunState Args} (hr : s.runs[i]? = some r)
    (hq : s.runs[j]? = some q) (hne : j ≠ i) : q.runId ≠ r.runId := by
  intro e
  have hj : (s.runs.map (·.runId))[j]? = some r.runId := by rw [List.getElem?_map, hq, ← e]; rfl
  have hi : (s.runs.map (·.runId))[i]? = some r.runId := by rw [List.getElem?_map, hr]; rfl
  have hlt : j < (s.runs.map (·.runId)).length := (List.getElem?_eq_some_iff.mp hj).1
  exact hne ((List.getElem?_inj hlt hids).mp (hj.trans hi.symm))

theorem inv_start (h : Inv x s) (d : AgentDefinition) {runId : String} (traceId : Option String)
    (hfresh : ∀ r ∈ s.runs, r.runId ≠ runId) : Inv x { s with runs := s.runs ++ [Runner.begin d runId traceId] } := by
  have hp : proposedBy s.proposed runId = [] := by
    rw [proposedBy, Tasks.filter_other, List.map_nil]
    intro c hc e
    obtain ⟨r, hr, hid⟩ := h.proposed c hc
    exact hfresh r hr (hid.trans e)
  have ha : addsOf s.adds runId = [] := by
    refine Tasks.filter_other fun a ha e => ?_
    obtain ⟨r, hr, hid, -⟩ := h.adds a ha
    exact hfresh r hr (hid.trans e)
  refine ⟨?_, fun r hr => ?_, fun c hc => ?_, fun a ha => ?_⟩
  · rw [List.map_append]
    refine Tasks.nodup_start h.ids fun hid => ?_
    obtain ⟨r, hr, e⟩ := List.mem_map.mp hid
    exact hfresh r hr e
  · rcases List.mem_append.mp hr with hr | hr
    · exact h.handed r hr
    · rw [List.mem_singleton.mp hr]
      exact ⟨0, hp, ha, Nat.le_refl 0, fun hne => absurd rfl hne, rfl, rfl⟩
  · obtain ⟨r, hr, hid⟩ := h.proposed c hc
    exact ⟨r, List.mem_append_left _ hr, hid⟩
  · obtain ⟨r, hr, hid⟩ := h.adds a ha
    exact ⟨r, List.mem_append_left _ hr, hid⟩

theorem inv_move (h : Inv x s) {i : Nat} (hr : s.runs[i]? = some r) {m : Move Args} (ha : Advance x r m r') :
    Inv x { runs := s.runs.set i r', proposed := s.proposed ++ proposeCall r m, adds := s.adds ++ addCall r' } := by
  obtain ⟨hdef, hid⟩ := Advance.grows ha
  have hmem : r ∈ s.runs := List.mem_of_getElem? hr
  have hin : r' ∈ s.runs.set i r' := List.mem_of_getElem? (Tasks.get_moved hr)
  -- a run of the list is still there, or it is the one that moved
  have hkept (q : RunState Args) (hq : q ∈ s.runs) :
      ∃ q' ∈ s.runs.set i r', q'.runId = q.runId ∧ q'.definition = q.definition := by
    obtain ⟨j, hj⟩ := List.mem_iff_getElem?.mp hq
    by_cases e : j = i
    · subst e
      cases hr.symm.trans hj
      exact ⟨r', hin, hid, hdef⟩
    · exact ⟨q, List.mem_of_getElem? (Tasks.get_other hj e), rfl, rfl⟩
  have hids : (s.runs.set i r').map (·.runId) = s.runs.map (·.runId) := Tasks.map_move hr hid
  refine ⟨by rw [hids]; exact h.ids, fun q hq => ?_, fun c hc => ?_, fun a ha => ?_⟩
  · rcases Tasks.mem_move hq with e | ⟨j, hne, hj⟩
    · subst e
      obtain ⟨n, hn⟩ := h.handed r hmem
      exact handed_move hn ha
    · obtain ⟨n, hn⟩ := h.handed q (List.mem_of_getElem? hj)
      exact ⟨n, handed_other hn (other_id h.ids hr hj hne).symm hid⟩
  · rcases List.mem_append.mp hc with hc | hc
    · obtain ⟨q, hq, e⟩ := h.proposed c hc
      obtain ⟨q', hq', hid', -⟩ := hkept q hq
      exact ⟨q', hq', hid'.trans e⟩
    · exact ⟨r', hin, hid.trans (proposeCall_run hc).symm⟩
  · rcases List.mem_append.mp ha with ha | ha
    · obtain ⟨q, hq, e, hagent⟩ := h.adds a ha
      obtain ⟨q', hq', hid', hdef'⟩ := hkept q hq
      exact ⟨q', hq', hid'.trans e, by rw [hdef']; exact hagent⟩
    · obtain ⟨e1, e2⟩ := addCall_run ha
      exact ⟨r', hin, e1.symm, e2.symm⟩

theorem inv_step (s : St Args) (e : Ev Args) (t : St Args) (h : Inv x s) (hf : Fresh s e) (hst : step x s e = some t) :
    Inv x t := by
  rcases step_cases hst with ⟨d, runId, traceId, e1, e2⟩ | ⟨i, m, r, r', e1, hr, ha, e2⟩
  · subst e1 e2
    exact inv_start h d traceId hf
  · subst e1 e2
    exact inv_move h hr ha

/-- Every proposal of a proposal-mode run that reports has been handed to the sink exactly
    once, in order, and no autonomous run has handed it anything. -/
theorem handed_over_once (x : AgentRunner) (hsink : x.proposalSink = true) {s : St Args} (h : Run (step x) Fresh init s) :
    (∀ r ∈ s.runs, r.definition.autonomy = .proposal → ∀ report, r.pc = .ended report →
      addsOf s.adds r.runId = ((proposedBy s.proposed r.runId).map fun p =>
        { agentId := r.definition.id, runId := r.runId, action := p.action, arguments := p.arguments, rationale := p.rationale }) ∧
      report.proposals = proposedBy s.proposed r.runId) ∧
    (∀ r ∈ s.runs, r.definition.autonomy = .autonomous → addsOf s.adds r.runId = []) ∧
    ∀ a ∈ s.adds, ∃ r ∈ s.runs, r.runId = a.runId ∧ r.definition.id = a.agentId := by
  have hinv : Inv x s := h.invariant inv_step (inv_init x)
  refine ⟨fun r hr hmode report hp => ?_, fun r hr hmode => ?_, hinv.adds⟩
  · obtain ⟨n, hn⟩ := hinv.handed r hr
    have hstage := hn.stage
    simp only [Stage, hp] at hstage
    obtain ⟨hreport, hall⟩ := hstage
    have hlen := hall hsink hmode
    rw [hn.adds, hn.proposed, hlen, List.take_length]
    exact ⟨rfl, hreport⟩
  · obtain ⟨n, hn⟩ := hinv.handed r hr
    have hnone : r.proposals = [] := by
      by_contra hne
      rw [hn.mode hne] at hmode
      cases hmode
    rw [hn.adds, hnone, List.take_nil, List.map_nil]

/-! Two runs that take turns: a deduplicator proposes two merges, and the sink fails on the
    first one while an autonomous run goes on. -/

def runner : AgentRunner := ⟨{ mcp := ⟨"", ""⟩, ollama := ⟨"", ""⟩, redis := ⟨"", ""⟩ }, true⟩

def turns : List (Ev Unit) :=
  [.start { id := "event-deduplicator" } "r1" none, .start { id := "re-categorizer", autonomy := .autonomous } "r2" none,
    .run 0 .resolved, .run 1 .resolved, .run 0 (.propose "merge_events" () "same event"), .run 1 (.agentEnds (.returned "done" 0)),
    .run 0 (.propose "merge_events" () "same event again"), .run 0 (.agentEnds .timeoutError), .run 0 (.addFails "locked"),
    .run 0 .added]

def bothReport (s : St Unit) : Bool :=
  s.runs.map (·.pc) == [.ended ⟨"r1", "event-deduplicator", .timeout, "", 0, proposedBy s.proposed "r1", some "Run exceeded 900s", none⟩,
    .ended ⟨"r2", "re-categorizer", .ok, "done", 0, [], none, none⟩] && s.adds.length == 2

theorem handed_over_once_turns :
    ∃ s : St Unit, bothReport s = true ∧
      (∀ r ∈ s.runs, r.definition.autonomy = .proposal → ∀ report, r.pc = .ended report →
        addsOf s.adds r.runId = ((proposedBy s.proposed r.runId).map fun p =>
          { agentId := r.definition.id, runId := r.runId, action := p.action, arguments := p.arguments, rationale := p.rationale }) ∧
        report.proposals = proposedBy s.proposed r.runId) ∧
      (∀ r ∈ s.runs, r.definition.autonomy = .autonomous → addsOf s.adds r.runId = []) ∧
      ∀ a ∈ s.adds, ∃ r ∈ s.runs, r.runId = a.runId ∧ r.definition.id = a.agentId := by
  obtain ⟨s, hr, hs⟩ := Run.exists_of_exec (step runner) Fresh init turns bothReport (by decide)
  exact ⟨s, hs, handed_over_once runner rfl hr⟩

end SagaAgents.Runtime.HandOver
