/-
  SagaAgents.Running — the wired service, all its parts at once.

  What `build_service` returns is started (`run_service`): the listener, the scheduler's
  jobs and `POST /triggers/{agent_id}` submit their requests to the one executor; a submit
  that gets its permits and the lock enters a run; the runs invoke tools, propose and store
  proposals; and the approve and reject handlers decide these. Every part takes its steps
  as its own module has them, in any order:

  - `source`: a step of the listener, the scheduler or the trigger endpoint. A request it
    makes is submitted at once. The tick loop waits for its submit to end before it goes on.
  - `executor`: a submit goes on. If it enters its run, the run begins.
  - `system`: a step of a run, the table or a handler. When a run ends, its submit goes on.

  Proved, over every run of the service:
  - `invoked_for_request`: an MCP tool is invoked by a run that a submit has entered for a
    request with a declared source, and its toolset admits the tool; or by an authorised
    approve handler for what a `propose` call of such a run, of a proposal-mode agent, was
    given. There are no other MCP calls.
  - `runs_within_limits`: the runs under way are within the limits of the executor.
-/

import SagaAgents.Runnable
import SagaAgents.Runtime.Shutdown
import SagaAgents.Sources
import SagaAgents.Triggers.Permits

namespace SagaAgents.Running

open Lib
open App (Service Deps buildService)
open Config (AgentDefinition GlobalConfig)
open Runtime.Runner (RunState)
open Runtime.Shutdown (endOf left)
open Sources (Source Sourced)
open SagaAgents.System (Invokes)
open Triggers
open Triggers.Executor (RunExecutor RunRequest RunEnd Sub)

variable {Args Val Out C T : Type}

structure St (Args Val Out T : Type) where
  sources : Sources.St T
  executor : Executor.St
  /-- The submit that the tick loop waits for, or last waited for. -/
  awaited : Option Nat
  system : System.St Args Val Out
  /-- The submit of each run. -/
  submitOf : List Nat

/-- Where a step may begin a run, it has this id. -/
inductive Ev (Args Val T : Type) where
  | source (e : Sources.Ev T) (runId : String) (traceId : Option String)
  | executor (e : Executor.Ev) (runId : String) (traceId : Option String)
  | system (e : System.Ev Args Val)

def init (svc : Service Args Val Out C T) (now : T) : St Args Val Out T :=
  ⟨Sources.init svc now, Executor.init svc.executor, none, System.init, []⟩

/-! ## The parts together -/

/-- The request that a step of the sources has made. -/
def requestOf (s t : Sources.St T) : Option RunRequest :=
  (t.listener.bind fun l => (l.subs[s.listener.elim 0 (·.subs.length)]?).map (·.request)).or t.direct[s.direct.length]?

/-- The tick loop goes on when the submit it waits for has. -/
def answers (s : St Args Val Out T) : Sources.Ev T → Bool
  | .listener .enters => (s.awaited.bind fun i => s.executor.subs[i]?).any (·.entered)
  | .listener (.ends e) => (s.awaited.bind fun i => s.executor.subs[i]?).any (·.pc == .ended e)
  | _ => true

def ofListener : Sources.Ev T → Bool
  | .listener _ => true
  | _ => false

/-- If submit `i` is in its run, that run begins. -/
def enterRun (svc : Service Args Val Out C T) (i : Nat) (runId : String) (traceId : Option String) (s : St Args Val Out T) :
    St Args Val Out T :=
  match s.executor.subs[i]?.bind fun u =>
      if u.pc = .running then System.step svc.wiring s.system (.start u.req.agentId runId traceId) else none with
  | some system => { s with system := system, submitOf := s.submitOf ++ [i] }
  | none => s

/-- A request is submitted; `waits`: by the tick loop. -/
def submit (svc : Service Args Val Out C T) (r : RunRequest) (waits : Bool) (runId : String) (traceId : Option String)
    (s : St Args Val Out T) : St Args Val Out T :=
  let i := s.executor.subs.length
  enterRun svc i runId traceId
    { s with executor := Executor.submit svc.executor r s.executor, awaited := if waits then some i else s.awaited }

/-- The run a step is about. -/
def ran : System.Ev Args Val → Option Nat
  | .run k _ => some k
  | .add k _ _ _ => some k
  | .start _ _ _ | .api _ => none

/-- The system after its step `e` is `t`. A run's end is the end its submit waits for. -/
def proceed (svc : Service Args Val Out C T) (s : St Args Val Out T) (e : System.Ev Args Val) (t : System.St Args Val Out) :
    Option (St Args Val Out T) :=
  match (ran e).bind fun k => (t.runs[k]?.bind endOf).map fun r => (k, r) with
  | none => some { s with system := t }
  | some (k, r) =>
    s.submitOf[k]?.bind fun i => (Executor.step svc.executor s.executor (.runEnd i r)).map fun ex =>
      { s with executor := ex, system := t }

def step [CommRing T] [LinearOrder T] (svc : Service Args Val Out C T) (s : St Args Val Out T) :
    Ev Args Val T → Option (St Args Val Out T)
  | .source e runId traceId =>
    if answers s e then
      (Sources.step svc s.sources e).map fun t =>
        match requestOf s.sources t with
        | none => { s with sources := t }
        | some r => submit svc r (ofListener e) runId traceId { s with sources := t }
    else none
  | .executor (.submit _) _ _ | .executor (.runEnd _ _) _ _ => none
  | .executor e runId traceId =>
    (Executor.step svc.executor s.executor e).map fun t =>
      enterRun svc (e.index.getD s.executor.subs.length) runId traceId { s with executor := t }
  | .system (.start _ _ _) => none
  | .system e => (System.step svc.wiring s.system e).bind (proceed svc s e)

/-! ## The submits and their runs -/

/-- Each run has its own submit, for its agent, which is in it as long as it goes on. -/
structure Linked (subs : List Sub) (runs : List (RunState Args)) (submitOf : List Nat) : Prop where
  length : submitOf.length = runs.length
  nodup : submitOf.Nodup
  link : ∀ (k i : Nat) (r : RunState Args), submitOf[k]? = some i → runs[k]? = some r →
    ∃ u, subs[i]? = some u ∧ u.req.agentId = r.definition.id ∧ u.entered = true ∧
      (u.pc = .running ∨ (left u.pc = true ∧ endOf r ≠ none))

variable {x : RunExecutor} {subs subs' : List Sub} {runs : List (RunState Args)} {submitOf : List Nat} {u v : Sub}
  {e : Executor.Ev} {i k : Nat} {r r' : RunState Args}

theorem moves_entered (hm : Executor.Moves x u e v) : (u.entered = true → v.entered = true) ∧
    (v.pc = .running → v.entered = true) ∧ v.req = u.req := by
  cases hm with
  | start | locked => exact ⟨fun _ => rfl, fun _ => rfl, rfl⟩
  | _ => exact ⟨id, fun h => (by cases h), rfl⟩

theorem linked_append (h : Linked subs runs submitOf) (v : Sub) : Linked (subs ++ [v]) runs submitOf := by
  refine ⟨h.length, h.nodup, fun k i r hk hr => ?_⟩
  obtain ⟨u, hu, hlink⟩ := h.link k i r hk hr
  exact ⟨u, Tasks.get_kept hu, hlink⟩

/-- A submit that goes on is in its run, or out of it, as before. -/
theorem linked_move (h : Linked subs runs submitOf) {j : Nat} (hu : subs[j]? = some u) (hm : Executor.Moves x u e v)
    (he : ∀ i r, e ≠ .runEnd i r) : Linked (subs.set j v) runs submitOf := by
  refine ⟨h.length, h.nodup, fun k i r hk hr => ?_⟩
  obtain ⟨w, hw, hid, hin, hlink⟩ := h.link k i r hk hr
  by_cases e : i = j
  · subst e
    cases hu.symm.trans hw
    obtain ⟨hnot, hleft⟩ := Runtime.Shutdown.moves_left hm he
    obtain ⟨hl, hend⟩ := hlink.resolve_left hnot
    obtain ⟨hkeep, -, hreq⟩ := moves_entered hm
    exact ⟨v, Tasks.get_moved hu, by rw [hreq]; exact hid, hkeep hin, Or.inr ⟨(hleft hl).1, hend⟩⟩
  · exact ⟨w, Tasks.get_other hw e, hid, hin, hlink⟩

/-- A submit that has just entered its run has none yet. -/
theorem enters_first (h : Linked subs runs submitOf) {j : Nat} (hu : subs[j]? = some u) (hm : Executor.Moves x u e v)
    (he : ∀ i r, e ≠ .runEnd i r) (hv : v.pc = .running) : j ∉ submitOf := by
  intro hmem
  obtain ⟨k, hk⟩ := List.mem_iff_getElem?.mp hmem
  obtain ⟨r, hr⟩ : ∃ r, runs[k]? = some r :=
    ⟨_, List.getElem?_eq_getElem (h.length ▸ (List.getElem?_eq_some_iff.mp hk).1)⟩
  obtain ⟨w, hw, -, -, hlink⟩ := h.link k j r hk hr
  cases hu.symm.trans hw
  obtain ⟨hnot, hleft⟩ := Runtime.Shutdown.moves_left hm he
  exact (hleft (hlink.resolve_left hnot).1).2 hv

/-- Its run begins. -/
theorem linked_begin (h : Linked subs runs submitOf) (hi : i ∉ submitOf) (hu : subs[i]? = some u) (hp : u.pc = .running)
    (hin : u.entered = true) (hid : u.req.agentId = r.definition.id) : Linked subs (runs ++ [r]) (submitOf ++ [i]) := by
  refine ⟨by simp [h.length], Tasks.nodup_start h.nodup hi, fun k j q hk hq => ?_⟩
  rcases Tasks.get_start.mp hk with hk | ⟨e₁, e₂⟩
  · have hlt : k < runs.length := h.length ▸ (List.getElem?_eq_some_iff.mp hk).1
    rw [List.getElem?_append_left hlt] at hq
    exact h.link k j q hk hq
  · subst e₂
    rcases Tasks.get_start.mp hq with hq | ⟨-, e⟩
    · have hlt := (List.getElem?_eq_some_iff.mp hq).1
      have hlen := h.length
      omega
    · subst e
      exact ⟨u, hu, hid, hin, Or.inl hp⟩

/-- A run that goes on keeps its submit in it. -/
theorem linked_goes (h : Linked subs runs submitOf) (hr : runs[k]? = some r) (hd : r'.definition = r.definition)
    (hgoes : endOf r = none) : Linked subs (runs.set k r') submitOf := by
  refine ⟨by rw [List.length_set]; exact h.length, h.nodup, fun j i q hj hq => ?_⟩
  rcases (Tasks.get_move hr).mp hq with ⟨e₁, e₂⟩ | ⟨-, hq⟩
  · subst e₁ e₂
    obtain ⟨u, hu, hid, hin, hlink⟩ := h.link j i r hj hr
    exact ⟨u, hu, by rw [hd]; exact hid, hin, Or.inl (hlink.resolve_right fun hl => hl.2 hgoes)⟩
  · exact h.link j i q hj hq

/-- One that ends lets it out. -/
theorem linked_ends (h : Linked subs runs submitOf) (hr : runs[k]? = some r) (hd : r'.definition = r.definition)
    (hgoes : endOf r = none) (hover : endOf r' ≠ none) (hi : submitOf[k]? = some i) (hu : subs[i]? = some u) {end' : RunEnd}
    (hm : Executor.Moves x u (.runEnd i end') v) : Linked (subs.set i v) (runs.set k r') submitOf := by
  obtain ⟨w, hw, hid, hin, hlink⟩ := h.link k i r hi hr
  cases hu.symm.trans hw
  have hp : u.pc = .running := hlink.resolve_right fun hl => hl.2 hgoes
  obtain ⟨hkeep, -, hreq⟩ := moves_entered hm
  refine ⟨by rw [List.length_set]; exact h.length, h.nodup, fun j i' q hj hq => ?_⟩
  rcases (Tasks.get_move hr).mp hq with ⟨e₁, e₂⟩ | ⟨hne, hq⟩
  · subst e₁ e₂
    cases hi.symm.trans hj
    refine ⟨v, Tasks.get_moved hu, by rw [hreq, hd]; exact hid, hkeep hin, Or.inr ⟨?_, hover⟩⟩
    exact Runtime.Shutdown.moves_out hm hp
  · have hother : i' ≠ i := by
      intro e
      subst e
      exact hne ((List.getElem?_inj (List.getElem?_eq_some_iff.mp hj).1 h.nodup).mp (hj.trans hi.symm))
    obtain ⟨w', hw', hlink'⟩ := h.link j i' q hj hq
    exact ⟨w', Tasks.get_other hw' hother, hlink'⟩

/-! ## The steps of the parts -/

section

variable [CommRing T] [LinearOrder T] {svc : Service Args Val Out C T} {s t : St Args Val Out T}

theorem step_executor {e : Executor.Ev} (hsub : ∀ r, e ≠ .submit r) (hend : ∀ i r, e ≠ .runEnd i r) (runId : String)
    (traceId : Option String) : step svc s (.executor e runId traceId) = (Executor.step svc.executor s.executor e).map fun t =>
      enterRun svc (e.index.getD s.executor.subs.length) runId traceId { s with executor := t } := by
  cases e with
  | submit r => exact absurd rfl (hsub r)
  | runEnd i r => exact absurd rfl (hend i r)
  | _ => rfl

theorem step_system {e : System.Ev Args Val} (he : ∀ a b c, e ≠ .start a b c) :
    step svc s (.system e) = (System.step svc.wiring s.system e).bind (proceed svc s e) := by
  cases e with
  | start a b c => exact absurd rfl (he a b c)
  | _ => rfl

/-- What a step of the system does to the runs. -/
theorem system_runs {w : System.Wiring Args Val Out} {s t : System.St Args Val Out} {e : System.Ev Args Val}
    (h : System.step w s e = some t) (he : ∀ a b c, e ≠ .start a b c) :
    (ran e = none ∧ t.runs = s.runs) ∨ ∃ k r r' m, ran e = some k ∧ s.runs[k]? = some r ∧
      Runtime.Runner.advance w.runner r m = some r' ∧ t.runs = s.runs.set k r' := by
  cases e with
  | start a b c => exact absurd rfl (he a b c)
  | run k m =>
    right
    cases m with
    | added => cases h
    | _ =>
      obtain ⟨r, hr, h⟩ := Option.bind_eq_some_iff.mp h
      obtain ⟨r', ha, e⟩ := Option.map_eq_some_iff.mp h
      subst e
      exact ⟨k, r, r', _, rfl, hr, ha, rfl⟩
  | add k id now m =>
    right
    simp only [System.step] at h
    split at h
    · obtain ⟨r, hr, h⟩ := Option.bind_eq_some_iff.mp h
      obtain ⟨r', ha, h⟩ := Option.bind_eq_some_iff.mp h
      refine ⟨k, r, r', m, rfl, hr, ha, ?_⟩
      unfold System.addNext at h
      split at h
      · obtain ⟨p, -, h⟩ := Option.bind_eq_some_iff.mp h
        obtain ⟨a, -, e⟩ := Option.map_eq_some_iff.mp h
        subst e
        rfl
      · cases h
    · cases h
  | api e =>
    obtain ⟨api, -, e⟩ := Option.map_eq_some_iff.mp h
    subst e
    exact Or.inl ⟨rfl, rfl⟩

/-- The submits, the requests they are for, and the runs they are in. -/
structure Inv (svc : Service Args Val Out C T) (definitions : List AgentDefinition) (start : T) (s : St Args Val Out T) : Prop where
  sources : Sourced svc definitions start s.sources
  requests : ∀ u ∈ s.executor.subs, Source svc definitions s.sources.posts u.req
  executor : Executor.Inv svc.executor s.executor
  system : System.Inv svc.wiring s.system
  linked : Linked s.executor.subs s.system.runs s.submitOf

variable {definitions : List AgentDefinition} {start : T}

/-- Where a submit that is in its run has none, this run begins. -/
theorem inv_enter (h : Inv svc definitions start s) {i : Nat} (hi : i ∉ s.submitOf)
    (hin : ∀ u, s.executor.subs[i]? = some u → u.pc = .running → u.entered = true) (runId : String) (traceId : Option String) :
    Inv svc definitions start (enterRun svc i runId traceId s) := by
  unfold enterRun
  split
  · rename_i system hs
    obtain ⟨u, hu, hs⟩ := Option.bind_eq_some_iff.mp hs
    by_cases hp : u.pc = .running
    · rw [if_pos hp] at hs
      have hsys := System.inv_step _ _ _ h.system hs
      obtain ⟨d, hd, e⟩ := Option.map_eq_some_iff.mp hs
      subst e
      exact ⟨h.sources, h.requests, h.executor, hsys,
        linked_begin h.linked hi hu hp (hin u hu hp) (Keyed.get_some hd).2.symm⟩
    · rw [if_neg hp] at hs
      cases hs
  · exact h

/-- A submit goes on, or a new one is there, without the end of a run. -/
theorem inv_executor (h : Inv svc definitions start s) {e : Executor.Ev} (he : ∀ i r, e ≠ .runEnd i r) {ex : Executor.St}
    (hst : Executor.step svc.executor s.executor e = some ex)
    (hreq : ∀ r, e = .submit r → Source svc definitions s.sources.posts r) (runId : String) (traceId : Option String)
    (awaited : Option Nat) :
    Inv svc definitions start
      (enterRun svc (e.index.getD s.executor.subs.length) runId traceId { s with executor := ex, awaited := awaited }) := by
  rcases Executor.step_subs hst with ⟨r, v, e', hm, hsubs⟩ | ⟨j, u, v, hj, hu, hm, hsubs⟩
  · subst e'
    have hv : ex.subs[s.executor.subs.length]? = some v := by
      rw [hsubs]
      exact Tasks.get_start.mpr (Or.inr ⟨rfl, rfl⟩)
    have hnew : s.executor.subs.length ∉ s.submitOf := by
      intro hmem
      obtain ⟨k, hk⟩ := List.mem_iff_getElem?.mp hmem
      have hlt : k < s.system.runs.length := h.linked.length ▸ (List.getElem?_eq_some_iff.mp hk).1
      obtain ⟨w, hw, -⟩ := h.linked.link k _ _ hk (List.getElem?_eq_getElem hlt)
      exact absurd (List.getElem?_eq_some_iff.mp hw).1 (Nat.lt_irrefl _)
    have hinv : Inv svc definitions start { s with executor := ex, awaited := awaited } := by
      refine ⟨h.sources, fun w hw => ?_, Executor.inv_step _ _ _ h.executor hst, h.system, by rw [hsubs]; exact linked_append h.linked v⟩
      have hw : w ∈ ex.subs := hw
      rw [hsubs] at hw
      rcases List.mem_append.mp hw with hw | hw
      · exact h.requests w hw
      · rw [List.mem_singleton.mp hw, (moves_entered hm).2.2]
        exact hreq r rfl
    refine inv_enter hinv hnew (fun w hw hp => ?_) runId traceId
    cases hv.symm.trans hw
    exact (moves_entered hm).2.1 hp
  · rw [hj, Option.getD_some]
    have hinv : Inv svc definitions start { s with executor := ex, awaited := awaited } := by
      refine ⟨h.sources, fun w hw => ?_, Executor.inv_step _ _ _ h.executor hst, h.system,
        by rw [hsubs]; exact linked_move h.linked hu hm he⟩
      have hw : w ∈ ex.subs := hw
      rw [hsubs] at hw
      rcases List.mem_or_eq_of_mem_set hw with hw | e'
      · exact h.requests w hw
      · rw [e', (moves_entered hm).2.2]
        exact h.requests u (List.mem_of_getElem? hu)
    have hv : ex.subs[j]? = some v := by
      rw [hsubs]
      exact Tasks.get_moved hu
    by_cases hp : v.pc = .running
    · refine inv_enter hinv (enters_first h.linked hu hm he hp) (fun w hw _ => ?_) runId traceId
      cases hv.symm.trans hw
      exact (moves_entered hm).2.1 hp
    · have hsame : enterRun svc j runId traceId { s with executor := ex, awaited := awaited } =
          { s with executor := ex, awaited := awaited } := by
        simp [enterRun, hv, hp]
      rw [hsame]
      exact hinv

variable {env : Deps Args Val Out C} {config : GlobalConfig}

/-- The requests that have been made have their source. -/
theorem sourced_submitted {q : Sources.St T} (hs : Sourced svc definitions start q) {r : RunRequest} (hr : r ∈ q.submitted) :
    Source svc definitions q.posts r := by
  rcases List.mem_append.mp hr with hr | hr
  · cases hl : q.listener with
    | none =>
      rw [hl] at hr
      cases hr
    | some l =>
      rw [hl] at hr
      obtain ⟨u, hu, e⟩ := List.mem_map.mp hr
      subst e
      exact Sources.event_source (hs.listener l hl) hu q.posts
  · exact hs.direct r hr

omit [CommRing T] [LinearOrder T] in
theorem requestOf_submitted {q q' : Sources.St T} {r : RunRequest} (h : requestOf q q' = some r) : r ∈ q'.submitted := by
  rcases Option.or_eq_some_iff.mp h with h | ⟨-, h⟩
  · obtain ⟨l, hl, h⟩ := Option.bind_eq_some_iff.mp h
    obtain ⟨u, hu, e⟩ := Option.map_eq_some_iff.mp h
    subst e
    refine List.mem_append_left _ ?_
    rw [hl]
    exact List.mem_map_of_mem (List.mem_of_getElem? hu)
  · exact List.mem_append_right _ (List.mem_of_getElem? h)

theorem posts_step {q q' : Sources.St T} {e : Sources.Ev T} (h : Sources.step svc q e = some q') :
    q'.posts = q.posts ∨ ∃ p, q'.posts = q.posts ++ [p] := by
  cases e with
  | listener e =>
    obtain ⟨l, -, h⟩ := Option.bind_eq_some_iff.mp h
    obtain ⟨l', -, e⟩ := Option.map_eq_some_iff.mp h
    subst e
    exact Or.inl rfl
  | fires i =>
    obtain ⟨r, -, e⟩ := Option.map_eq_some_iff.mp h
    subst e
    exact Or.inl rfl
  | post agentId authorization =>
    simp only [Sources.step] at h
    split at h
    · cases h
      exact Or.inr ⟨_, rfl⟩
    · cases h
      exact Or.inr ⟨_, rfl⟩

theorem inv_source (hb : buildService env config definitions = .ok svc) (h : Inv svc definitions start s) {e : Sources.Ev T}
    {runId : String} {traceId : Option String} (hst : step svc s (.source e runId traceId) = some t) :
    Inv svc definitions start t := by
  simp only [step] at hst
  split at hst
  case isFalse => cases hst
  obtain ⟨q, hq, e'⟩ := Option.map_eq_some_iff.mp hst
  subst e'
  have hsrc := Sources.sourced_step hb _ _ _ h.sources hq
  have hinv : Inv svc definitions start { s with sources := q } := by
    refine ⟨hsrc, fun u hu => ?_, h.executor, h.system, h.linked⟩
    rcases posts_step hq with e' | ⟨p, e'⟩
    · show Source svc definitions q.posts u.req
      rw [e']
      exact h.requests u hu
    · show Source svc definitions q.posts u.req
      rw [e']
      exact (h.requests u hu).later p
  cases hr : requestOf s.sources q with
  | none => exact hinv
  | some r =>
    refine inv_executor hinv (e := .submit r) (fun _ _ e' => (by cases e')) rfl (fun r' e' => ?_) runId traceId _
    cases e'
    exact sourced_submitted hsrc (requestOf_submitted hr)

theorem inv_system (h : Inv svc definitions start s) {e : System.Ev Args Val} (hst : step svc s (.system e) = some t) :
    Inv svc definitions start t := by
  by_cases he : ∃ a b c, e = .start a b c
  · obtain ⟨a, b, c, e'⟩ := he
    subst e'
    cases hst
  · have he : ∀ a b c, e ≠ .start a b c := fun a b c e' => he ⟨a, b, c, e'⟩
    rw [step_system he] at hst
    obtain ⟨q, hq, hst⟩ := Option.bind_eq_some_iff.mp hst
    unfold proceed at hst
    have hsys := System.inv_step _ _ _ h.system hq
    rcases system_runs hq he with ⟨hran, hruns⟩ | ⟨k, r, r', m, hran, hr, ha, hruns⟩
    · simp only [hran, Option.bind_none] at hst
      cases hst
      exact ⟨h.sources, h.requests, h.executor, hsys, by show Linked _ q.runs _; rw [hruns]; exact h.linked⟩
    · have hself : q.runs[k]? = some r' := by
        rw [hruns]
        exact Tasks.get_moved hr
      have hgoes : endOf r = none := Runtime.Shutdown.Advance.not_over (Runtime.Runner.advance_cases ha)
      have hd : r'.definition = r.definition := (Runtime.Runner.advance_grows ha).definition
      cases hover : endOf r' with
      | none =>
        simp only [hran, hself, hover, Option.bind_some, Option.map_none] at hst
        cases hst
        exact ⟨h.sources, h.requests, h.executor, hsys, by show Linked _ q.runs _; rw [hruns]; exact linked_goes h.linked hr hd hgoes⟩
      | some end' =>
        simp only [hran, hself, hover, Option.bind_some, Option.map_some] at hst
        obtain ⟨i, hi, hst⟩ := Option.bind_eq_some_iff.mp hst
        obtain ⟨ex, hex, e'⟩ := Option.map_eq_some_iff.mp hst
        subst e'
        rcases Executor.step_subs hex with ⟨_, _, e', -, -⟩ | ⟨j, u, v, hj, hu, hm, hsubs⟩
        · cases e'
        · cases hj
          have hlinked : Linked ex.subs q.runs s.submitOf := by
            rw [hsubs, hruns]
            exact linked_ends h.linked hr hd hgoes (by rw [hover]; exact Option.some_ne_none _) hi hu hm
          refine ⟨h.sources, fun w hw => ?_, Executor.inv_step _ _ _ h.executor hex, hsys, hlinked⟩
          have hw : w ∈ ex.subs := hw
          rw [hsubs] at hw
          rcases List.mem_or_eq_of_mem_set hw with hw | e'
          · exact h.requests w hw
          · rw [e', (moves_entered hm).2.2]
            exact h.requests u (List.mem_of_getElem? hu)

theorem inv_step (hb : buildService env config definitions = .ok svc) (s : St Args Val Out T) (e : Ev Args Val T)
    (t : St Args Val Out T) (h : Inv svc definitions start s) (_ : True) (hst : step svc s e = some t) :
    Inv svc definitions start t := by
  cases e with
  | source e runId traceId => exact inv_source hb h hst
  | executor e runId traceId =>
    have hne : ∀ i r, e ≠ .runEnd i r := by
      intro i r e'
      subst e'
      cases hst
    have hsub : ∀ r, e ≠ .submit r := by
      intro r e'
      subst e'
      cases hst
    rw [step_executor hsub hne] at hst
    obtain ⟨ex, hex, e'⟩ := Option.map_eq_some_iff.mp hst
    subst e'
    exact inv_executor h hne hex (fun r e' => absurd e' (hsub r)) runId traceId s.awaited
  | system e => exact inv_system h hst

theorem inv_init (hb : buildService env config definitions = .ok svc) (start : T) :
    Inv svc definitions start (init svc start) :=
  ⟨Sources.sourced_init hb start, fun _ hu => (by cases hu), Executor.inv_init _, System.inv_init,
    ⟨rfl, List.nodup_nil, fun _ _ _ hk => (by cases hk)⟩⟩

theorem inv_run (hb : buildService env config definitions = .ok svc)
    (h : Run (step svc) (fun _ _ => True) (init svc start) s) : Inv svc definitions start s :=
  h.invariant (inv_step hb) (inv_init hb start)

/-! ## Why a tool is invoked -/

/-- Run `k` is of an enabled agent, and its submit entered it for a request with a declared
    source. -/
structure Requested (svc : Service Args Val Out C T) (definitions : List AgentDefinition) (s : St Args Val Out T) (k : Nat)
    (r : RunState Args) : Prop where
  run : s.system.runs[k]? = some r
  enabled : r.definition ∈ definitions ∧ r.definition.enabled = true
  request : ∃ i u, s.submitOf[k]? = some i ∧ s.executor.subs[i]? = some u ∧ u.entered = true ∧
    u.req.agentId = r.definition.id ∧ Source svc definitions s.sources.posts u.req

theorem requested (hb : buildService env config definitions = .ok svc) (h : Inv svc definitions start s) {k : Nat}
    {r : RunState Args} (hr : s.system.runs[k]? = some r) : Requested svc definitions s k r := by
  have hlt : k < s.submitOf.length := h.linked.length ▸ (List.getElem?_eq_some_iff.mp hr).1
  have hk : s.submitOf[k]? = some s.submitOf[k] := List.getElem?_eq_getElem hlt
  obtain ⟨u, hu, hid, hin, -⟩ := h.linked.link k _ r hk hr
  have hdef := (h.system.runs r (List.mem_of_getElem? hr)).1
  have hrow : r.definition ∈ (App.definitionsById definitions).rows := by
    rw [← App.built_executor hb]
    exact (Keyed.get_some hdef).1
  exact ⟨hr, Sources.mem_byId hrow, s.submitOf[k], u, hk, hu, hin, hid, h.requests u (List.mem_of_getElem? hu)⟩

/-- In every run of the service an MCP tool is invoked on behalf of an agent only by or for
    a run of it that was entered for a request with a declared source. The run itself
    invokes what its toolset admits. An approve handler invokes what a `propose` call of a
    proposal-mode run was given, if the request has the token and the record is pending.
    Every MCP call is such an invocation. -/
theorem invoked_for_request (hb : buildService env config definitions = .ok svc)
    (h : Run (step svc) (fun _ _ => True) (init svc start) s) :
    (∀ b agentId tool arguments, Invokes s.system b agentId tool arguments →
      ∃ k r, Requested svc definitions s k r ∧ r.definition.id = agentId ∧
        match b with
        | .run k' => k' = k ∧ tool ∈ r.definition.tools.allow ∧ (r.definition.autonomy = .proposal → tool ∉ r.definition.tools.write)
        | .handler j => r.definition.autonomy = .proposal ∧
            (∃ p ∈ r.proposals, p.action = tool ∧ ⟨k, p.action, p.arguments, p.rationale⟩ ∈ s.system.proposeCalls) ∧
            ∃ hd record, s.system.api.handlers[j]? = some hd ∧ hd.req.endpoint = .approve ∧
              Triggers.Api.verifyToken svc.api hd.req.authorization = true ∧ hd.fetched = some record ∧ record.status = .pending ∧
              record.agentId = agentId ∧ record.action = tool ∧ record.arguments = arguments) ∧
      (∀ c ∈ s.system.toolCalls, ∃ agentId, Invokes s.system (.run c.run) agentId c.tool c.arguments) ∧
      ∀ c ∈ s.system.api.calls, ∃ agentId, Invokes s.system (.handler c.handler) agentId c.action c.arguments := by
  have hinv := inv_run hb h
  refine ⟨fun b agentId tool arguments hi => ?_, System.calls_attributed hinv.system⟩
  cases hi with
  | @direct c hc r hr =>
    obtain ⟨r', hr', hadm⟩ := hinv.system.tools c hc
    cases hr.symm.trans hr'
    exact ⟨c.run, r, requested hb hinv hr, rfl, rfl, Runtime.Runner.admits_allowed hadm,
      fun hmode => Runtime.Runner.admits_not_write hmode hadm⟩
  | @approved c hc o ho hp r hr =>
    obtain ⟨haction, hd, record, hh, happ, hf, hst, hag, hac, har⟩ := System.call_record hinv.system hc ho hp hr
    obtain ⟨r', hr', hmode, hprop⟩ := hinv.system.origins o ho
    cases hr.symm.trans hr'
    have hgiven := hinv.system.given o.run r hr o.proposed hprop
    exact ⟨o.run, r, requested hb hinv hr, rfl, hmode, ⟨o.proposed, hprop, haction, hgiven⟩, hd, record, hh, happ.endpoint,
      happ.token, hf, hst, hag, hac, har⟩

/-! ## How many runs are under way -/

def underWay (r : RunState Args) : Bool := (endOf r).isNone

/-- A run that is under way has its submit in it. -/
theorem underWay_running (h : Inv svc definitions start s) {k i : Nat} {r : RunState Args} (hk : s.submitOf[k]? = some i)
    (hr : s.system.runs[k]? = some r) (hw : underWay r = true) :
    ∃ u, s.executor.subs[i]? = some u ∧ Executor.isRunning u = true ∧ u.req.agentId = r.definition.id := by
  obtain ⟨u, hu, hid, -, hlink⟩ := h.linked.link k i r hk hr
  have hp : u.pc = .running := hlink.resolve_right fun hl => hl.2 (Option.isNone_iff_eq_none.mp hw)
  exact ⟨u, hu, by simp [Executor.isRunning, hp], hid⟩

end

/-! An event's message submits a proposal-mode agent; its run proposes an action, which is
    then approved. -/

def proposer : AgentDefinition := { System.deduplicator with triggers := [.event { topics := ["document.ingested"] }] }

def deps : Deps Unit Unit Unit String :=
  { App.deps with redis := true, proposalStore := true, mcpCall := true, externalToken := some "t" }

def ingested : List (Ev Unit Unit Int) :=
  [.source (.listener (.message "document.ingested")) "" none, .source (.listener (.clock 2)) "" none,
    .source (.listener .wake) "" none, .source (.listener .check) "r" none, .executor (.setReply 0 .truthy) "r" none,
    .source (.listener .enters) "" none, .system (.run 0 .resolved), .system (.run 0 (.toolCall "hybrid_search" ())),
    .system (.run 0 (.propose "merge_events" () "same event"))]

def mergeApproved : List (Ev Unit Unit Int) :=
  ingested ++ [.system (.run 0 (.agentEnds (.returned "done" 1))), .system (.add 0 "p" 0 .added), .executor (.evalReply 0 false) "" none,
    .source (.listener (.ends (.completed true))) "" none, .system (.api (Triggers.Api.authorised .approve)),
    .system (.api (.move 0 .read)), .system (.api (.move 0 .resume))]

theorem invoked_for_request_merge :
    ∃ (svc : Service Unit Unit Unit String Int) (s : St Unit Unit Unit Int), buildService deps App.demoConfig [proposer] = .ok svc ∧
      Run (step svc) (fun _ _ => True) (init svc 0) s ∧
      Invokes s.system (.handler 0) "event-deduplicator" "merge_events" () ∧
      ∃ k r, Requested svc [proposer] s k r ∧ r.definition.autonomy = .proposal ∧
        ∃ p ∈ r.proposals, p.action = "merge_events" ∧ ⟨k, p.action, p.arguments, p.rationale⟩ ∈ s.system.proposeCalls := by
  obtain ⟨svc, h, hc⟩ : ∃ svc : Service Unit Unit Unit String Int, buildService deps App.demoConfig [proposer] = .ok svc ∧
      (exec (step svc) (fun _ _ => True) (init svc 0) mergeApproved).any
        (fun s => System.approvedCall "merge_events" s.system) = true :=
    ⟨_, rfl, by decide⟩
  obtain ⟨s, hr, hs⟩ := Run.exists_of_exec (step svc) (fun _ _ => True) (init svc 0) mergeApproved
    (fun s => System.approvedCall "merge_events" s.system) hc
  have hi := System.invokes_of_approvedCall hs
  obtain ⟨k, r, hreq, -, hmode, hproposed, -⟩ := (invoked_for_request h hr).1 _ _ _ _ hi
  exact ⟨svc, s, h, hr, hi, k, r, hreq, hmode, hproposed⟩

end SagaAgents.Running
