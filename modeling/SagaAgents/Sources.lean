/-
  SagaAgents.Sources — where the requests of the wired service come from.

  The parts that `build_service` wires run side by side: the listener, the started
  scheduler's jobs, and `POST /triggers/{agent_id}` of the API (`trigger_agent`). Each of
  them submits requests to the one executor. `posts` are the HTTP requests received.

  Proved: `submitted_declared`. Over every run, each submitted request is for an enabled
  agent; a scheduled one has a schedule trigger, and one for an event has an event trigger
  with its topic. For an external one the endpoint asks for the token and a known agent,
  not for an external trigger: `external_without_trigger`.
-/

import SagaAgents.App
import SagaAgents.Triggers.Debounce

namespace SagaAgents.Sources

open Lib
open App (Service Deps buildService definitionsById)
open Config (AgentDefinition Definitions GlobalConfig Trigger)
open Triggers
open Triggers.Api (verifyToken)
open Triggers.Executor (RunRequest)
open Triggers.RedisListener (TriggerState triggerStates)
open Triggers.Scheduler (Job fire)

variable {Args Val Out C T : Type}

/-! ## The API's trigger endpoint -/

structure HttpException where
  statusCode : Nat
  detail : String
  deriving DecidableEq, Repr

/-- `trigger_agent`, to the submit. When that returns, the answer is 202. -/
def triggerAgent (api : Api.App Args Val Out) (definitions : Definitions) (agentId : String) (authorization : Option String) :
    Except HttpException RunRequest :=
  if !verifyToken api authorization then .error ⟨403, "Invalid or missing token"⟩
  else if (definitions.get agentId).isNone then .error ⟨404, "Unknown agent: " ++ agentId⟩
  else .ok ⟨agentId, "external"⟩

theorem triggerAgent_ok {api : Api.App Args Val Out} {definitions : Definitions} {agentId : String}
    {authorization : Option String} {r : RunRequest} (h : triggerAgent api definitions agentId authorization = .ok r) :
    r = ⟨agentId, "external"⟩ ∧ verifyToken api authorization = true ∧
      ∃ d ∈ definitions.rows, d.id = agentId := by
  unfold triggerAgent at h
  split at h
  · cases h
  · rename_i hv
    split at h
    · cases h
    · rename_i hk
      cases h
      obtain ⟨d, hd⟩ := Option.ne_none_iff_exists'.mp (by simpa using hk)
      exact ⟨rfl, by simpa using hv, d, Keyed.get_some hd⟩

/-! ## The running service -/

structure St (T : Type) where
  listener : Option (RedisListener.St T)
  /-- The HTTP requests to trigger an agent. -/
  posts : List (String × Option String)
  /-- What the scheduler and the API have submitted. -/
  direct : List RunRequest

/-- `fires i`: the scheduler's clock reaches the next time of job `i`. -/
inductive Ev (T : Type) where
  | listener (e : RedisListener.Ev T)
  | fires (i : Nat)
  | post (agentId : String) (authorization : Option String)
  deriving DecidableEq, Repr

/-- The requests submitted to the executor. -/
def St.submitted (s : St T) : List RunRequest := (s.listener.elim [] fun l => l.subs.map (·.request)) ++ s.direct

def init (svc : Service Args Val Out C T) (now : T) : St T :=
  ⟨svc.listener.map fun l => ⟨l.states, .sleeping, [], now⟩, [], []⟩

def request : Executor.Ev → Option RunRequest
  | .submit r => some r
  | _ => none

section

variable [CommRing T] [LinearOrder T]

def step (svc : Service Args Val Out C T) (s : St T) : Ev T → Option (St T)
  | .listener e => s.listener.bind fun l => (RedisListener.step l e).map fun l' => { s with listener := some l' }
  | .fires i =>
    (svc.scheduler.start.scheduler.jobs.rows[i]?.bind fun j => request (fire j)).map fun r => { s with direct := s.direct ++ [r] }
  | .post agentId authorization =>
    match triggerAgent svc.api svc.executor.definitions agentId authorization with
    | .error _ => some { s with posts := s.posts ++ [(agentId, authorization)] }
    | .ok r => some { s with posts := s.posts ++ [(agentId, authorization)], direct := s.direct ++ [r] }

end

/-! ## Where a request comes from -/

/-- What has led to a request: a schedule or an event trigger of an enabled agent, or an
    authorised HTTP request that names one. -/
inductive Source (svc : Service Args Val Out C T) (definitions : List AgentDefinition) (posts : List (String × Option String)) :
    RunRequest → Prop
  | schedule (d : AgentDefinition) (hd : d ∈ definitions) (he : d.enabled = true) (ht : d.scheduleTriggers ≠ []) :
      Source svc definitions posts ⟨d.id, "schedule"⟩
  | event (d : AgentDefinition) (hd : d ∈ definitions) (he : d.enabled = true) (t : Config.EventTrigger)
      (ht : t ∈ d.eventTriggers) (topic : String) (h : topic ∈ t.topics) :
      Source svc definitions posts ⟨d.id, "event:" ++ topic⟩
  | external (d : AgentDefinition) (hd : d ∈ definitions) (he : d.enabled = true) (authorization : Option String)
      (hp : (d.id, authorization) ∈ posts) (hv : verifyToken svc.api authorization = true) :
      Source svc definitions posts ⟨d.id, "external"⟩

theorem Source.later {svc : Service Args Val Out C T} {definitions : List AgentDefinition} {posts : List (String × Option String)}
    {r : RunRequest} (h : Source svc definitions posts r) (p : String × Option String) :
    Source svc definitions (posts ++ [p]) r := by
  cases h with
  | schedule d hd he ht => exact .schedule d hd he ht
  | event d hd he e ht topic h => exact .event d hd he e ht topic h
  | external d hd he authorization hin hv => exact .external d hd he authorization (List.mem_append_left _ hin) hv

theorem Source.enabled {svc : Service Args Val Out C T} {definitions : List AgentDefinition} {posts : List (String × Option String)}
    {r : RunRequest} (h : Source svc definitions posts r) : ∃ d ∈ definitions, d.enabled = true ∧ d.id = r.agentId := by
  cases h with
  | schedule d hd he => exact ⟨d, hd, he, rfl⟩
  | event d hd he => exact ⟨d, hd, he, rfl⟩
  | external d hd he => exact ⟨d, hd, he, rfl⟩

theorem mem_byId {definitions : List AgentDefinition} {d : AgentDefinition} (h : d ∈ (definitionsById definitions).rows) :
    d ∈ definitions ∧ d.enabled = true := List.mem_filter.mp (Keyed.mem_ofList h)

section

variable [CommRing T] [LinearOrder T] {env : Deps Args Val Out C} {config : GlobalConfig}
  {definitions : List AgentDefinition} {svc : Service Args Val Out C T}

theorem mem_triggerStates {byId : Definitions} {c : TriggerState T} (h : c ∈ triggerStates byId) :
    ∃ d ∈ byId.rows, c.agentId = d.id ∧ ∃ t ∈ d.eventTriggers, c.topics = t.topics := by
  simp only [triggerStates, List.mem_flatMap, List.mem_map] at h
  obtain ⟨d, hd, t, ht, e⟩ := h
  subst e
  exact ⟨d, (List.mem_filter.mp hd).1, rfl, t, ht, rfl⟩

/-- Each job is of an agent with a schedule trigger. -/
theorem job_source (h : buildService env config definitions = .ok svc) {j : Job C}
    (hj : j ∈ svc.scheduler.start.scheduler.jobs.rows) (posts : List (String × Option String)) :
    Source svc definitions posts ⟨j.aid, "schedule"⟩ := by
  obtain ⟨-, hs, -⟩ := App.buildService_ok h
  rw [App.registerAll_rows] at hs
  obtain ⟨js, hm, ht⟩ := Scheduler.foldlM_add rfl hs
  have hjobs : svc.scheduler.start.scheduler.jobs = Keyed.ofList Job.id js := by
    simp only [Scheduler.CronScheduler.start, ht]
    rfl
  rw [hjobs] at hj
  have hagent : j.aid ∈ js.map Job.aid := List.mem_map_of_mem (Keyed.mem_ofList hj)
  rw [hm.agents] at hagent
  simp only [List.mem_map, List.mem_flatMap] at hagent
  obtain ⟨p, ⟨d, hd, t, ht, e⟩, hp⟩ := hagent
  subst e
  obtain ⟨hin, hen⟩ := mem_byId hd
  rw [← hp]
  exact .schedule d hin hen (List.ne_nil_of_mem ht)

/-- Each request of the listener is for an event trigger's topic. -/
theorem event_source {start : T} {l : RedisListener.St T}
    (hr : Run RedisListener.step (fun _ _ => True) (RedisListener.init (definitionsById definitions) start) l)
    {u : RedisListener.Submission T} (hu : u ∈ l.subs) (posts : List (String × Option String)) :
    Source svc definitions posts u.request := by
  obtain ⟨d, hd, hm⟩ := Debounce.listener_run hr
  have htracks : Debounce.Tracks (triggerStates (definitionsById definitions)) d :=
    hd.invariant (fun s e t hs _ h => Debounce.tracks_step s e t hs h) (Debounce.tracks_init _ _)
  have hissued : Debounce.issued u ∈ l.subs.map Debounce.issued := List.mem_map_of_mem hu
  rw [← hm.submissions, List.mem_filterMap] at hissued
  obtain ⟨e, he, hsub⟩ := hissued
  cases e with
  | message => cases hsub
  | submit i time r =>
    cases hsub
    obtain ⟨c, hc, topic, htopic, e⟩ := Debounce.justified_topic htracks.justified (List.mem_reverse.mp he)
    obtain ⟨definition, hdef, hid, t, ht, htopics⟩ := mem_triggerStates hc
    obtain ⟨hin, hen⟩ := mem_byId hdef
    rw [e, hid]
    exact .event definition hin hen t ht topic (htopics ▸ htopic)

/-- The listener runs on the enabled definitions, and every other request has its source. -/
structure Sourced (svc : Service Args Val Out C T) (definitions : List AgentDefinition) (start : T) (s : St T) : Prop where
  listener : ∀ l, s.listener = some l →
    Run RedisListener.step (fun _ _ => True) (RedisListener.init (definitionsById definitions) start) l
  direct : ∀ r ∈ s.direct, Source svc definitions s.posts r

theorem sourced_init (h : buildService env config definitions = .ok svc) (start : T) :
    Sourced svc definitions start (init svc start) := by
  obtain ⟨-, -, hl⟩ := App.buildService_ok h
  refine ⟨fun l e => ?_, fun r hr => (by cases hr)⟩
  obtain ⟨l', hl', e⟩ := Option.map_eq_some_iff.mp e
  rw [hl', Option.map_some] at hl
  split at hl
  · have hstates : l'.states = triggerStates (definitionsById definitions) := Option.some.inj hl
    rw [← e, hstates]
    exact .refl _
  · cases hl

theorem sourced_step (h : buildService env config definitions = .ok svc) {start : T} (s : St T) (e : Ev T) (t : St T)
    (hs : Sourced svc definitions start s) (hst : step svc s e = some t) : Sourced svc definitions start t := by
  cases e with
  | listener e =>
    obtain ⟨l, hl, hst⟩ := Option.bind_eq_some_iff.mp hst
    obtain ⟨l', hl', e⟩ := Option.map_eq_some_iff.mp hst
    subst e
    refine ⟨fun _ e => ?_, hs.direct⟩
    cases e
    exact (hs.listener l hl).tail _ trivial hl'
  | fires i =>
    obtain ⟨r, hr, e⟩ := Option.map_eq_some_iff.mp hst
    obtain ⟨j, hj, hr⟩ := Option.bind_eq_some_iff.mp hr
    cases hr
    subst e
    refine ⟨hs.listener, fun r hr => ?_⟩
    rcases List.mem_append.mp hr with hr | hr
    · exact hs.direct r hr
    · rw [List.mem_singleton.mp hr]
      exact job_source h (List.mem_of_getElem? hj) _
  | post agentId authorization =>
    simp only [step] at hst
    split at hst
    · cases hst
      exact ⟨hs.listener, fun r hr => (hs.direct r hr).later _⟩
    · rename_i r hr
      cases hst
      refine ⟨hs.listener, fun r' hr' => ?_⟩
      rcases List.mem_append.mp hr' with hr' | hr'
      · exact (hs.direct r' hr').later _
      · obtain ⟨e, hv, d, hd, hid⟩ := triggerAgent_ok hr
        rw [App.built_executor h] at hd
        obtain ⟨hin, hen⟩ := mem_byId hd
        rw [List.mem_singleton.mp hr', e, ← hid]
        exact .external d hin hen authorization (by simp [hid]) hv

theorem sourced_run (h : buildService env config definitions = .ok svc) {start : T} {s : St T}
    (hr : Run (step svc) (fun _ _ => True) (init svc start) s) : ∀ r ∈ s.submitted, Source svc definitions s.posts r := by
  have hs : Sourced svc definitions start s :=
    hr.invariant (fun s e t hs _ hst => sourced_step h s e t hs hst) (sourced_init h start)
  intro r hin
  rcases List.mem_append.mp hin with hin | hin
  · cases hl : s.listener with
    | none =>
      rw [hl] at hin
      cases hin
    | some l =>
      rw [hl] at hin
      obtain ⟨u, hu, e⟩ := List.mem_map.mp hin
      subst e
      exact event_source (hs.listener l hl) hu s.posts
  · exact hs.direct r hin

/-! ## The reason of a request -/

theorem event_ne_schedule (topic : String) : "event:" ++ topic ≠ "schedule" := by
  intro e
  have := congrArg String.toList e
  simp at this

theorem schedule_ne_external : "schedule" ≠ "external" := by decide

theorem event_ne_external (topic : String) : "event:" ++ topic ≠ "external" := by
  intro e
  have := congrArg String.toList e
  simp at this

/-- Each request the service submits is for an enabled agent. One with reason `schedule` is
    for an agent with a schedule trigger, one with reason `event:t` for an agent with an
    event trigger on `t`; one with reason `external` was asked for with the token. -/
theorem submitted_declared (h : buildService env config definitions = .ok svc) {start : T} {s : St T}
    (hr : Run (step svc) (fun _ _ => True) (init svc start) s) :
    ∀ r ∈ s.submitted, ∃ d ∈ definitions, d.enabled = true ∧ d.id = r.agentId ∧
      (r.reason = "schedule" ∨ (∃ topic, r.reason = "event:" ++ topic) ∨ r.reason = "external") ∧
      (r.reason = "schedule" → d.scheduleTriggers ≠ []) ∧
      (∀ topic, r.reason = "event:" ++ topic → ∃ t ∈ d.eventTriggers, topic ∈ t.topics) ∧
      (r.reason = "external" → ∃ authorization, (d.id, authorization) ∈ s.posts ∧ verifyToken svc.api authorization = true) := by
  intro r hin
  cases sourced_run h hr r hin with
  | schedule d hd he ht =>
    exact ⟨d, hd, he, rfl, Or.inl rfl, fun _ => ht, fun topic e => absurd e.symm (event_ne_schedule topic),
      fun e => absurd e schedule_ne_external⟩
  | event d hd he t ht topic hmem =>
    refine ⟨d, hd, he, rfl, Or.inr (Or.inl ⟨topic, rfl⟩), fun e => absurd e (event_ne_schedule topic), fun topic' e => ?_,
      fun e => absurd e (event_ne_external topic)⟩
    rw [← (String.append_right_inj "event:").mp e]
    exact ⟨t, ht, hmem⟩
  | external d hd he authorization hp hv =>
    exact ⟨d, hd, he, rfl, Or.inr (Or.inr rfl), fun e => absurd e.symm schedule_ne_external,
      fun topic e => absurd e.symm (event_ne_external topic), fun _ => ⟨authorization, hp, hv⟩⟩

end

/-! An agent with an event trigger and a schedule trigger, and none for HTTP requests: its
    event's message, its job and an HTTP request each submit it. -/

def deduplicator : AgentDefinition :=
  { id := "event-deduplicator", triggers := [.event { topics := ["document.ingested"] }, .schedule ⟨"0 3 * * *"⟩] }

def withRedis : Deps Unit Unit Unit String := { App.deps with redis := true }

def threeSources : List (Ev Int) :=
  [.listener (.message "document.ingested"), .listener (.clock 2), .listener .wake, .listener .check, .fires 0,
    .post "event-deduplicator" (some "Bearer changeme")]

def allThree : List RunRequest :=
  [⟨"event-deduplicator", "event:document.ingested"⟩, ⟨"event-deduplicator", "schedule"⟩, ⟨"event-deduplicator", "external"⟩]

theorem deduplicator_submitted :
    ∃ (svc : Service Unit Unit Unit String Int) (s : St Int), buildService withRedis App.demoConfig [deduplicator] = .ok svc ∧
      Run (step svc) (fun _ _ => True) (init svc 0) s ∧ s.submitted = allThree := by
  obtain ⟨svc, h, hc⟩ : ∃ svc : Service Unit Unit Unit String Int, buildService withRedis App.demoConfig [deduplicator] = .ok svc ∧
      (exec (step svc) (fun _ _ => True) (init svc 0) threeSources).any (·.submitted == allThree) = true :=
    ⟨_, rfl, by decide⟩
  obtain ⟨s, hr, hs⟩ := Run.exists_of_exec (step svc) (fun _ _ => True) (init svc 0) threeSources (·.submitted == allThree) hc
  exact ⟨svc, s, h, hr, by simpa using hs⟩

theorem submitted_declared_deduplicator :
    ∃ (svc : Service Unit Unit Unit String Int) (s : St Int), buildService withRedis App.demoConfig [deduplicator] = .ok svc ∧
      s.submitted = allThree ∧
      ∀ r ∈ s.submitted, ∃ d ∈ [deduplicator], d.enabled = true ∧ d.id = r.agentId ∧
        (r.reason = "schedule" ∨ (∃ topic, r.reason = "event:" ++ topic) ∨ r.reason = "external") ∧
        (r.reason = "schedule" → d.scheduleTriggers ≠ []) ∧
        (∀ topic, r.reason = "event:" ++ topic → ∃ t ∈ d.eventTriggers, topic ∈ t.topics) ∧
        (r.reason = "external" → ∃ authorization, (d.id, authorization) ∈ s.posts ∧ verifyToken svc.api authorization = true) := by
  obtain ⟨svc, s, h, hr, hs⟩ := deduplicator_submitted
  exact ⟨svc, s, h, hs, submitted_declared h hr⟩

/-- The agent declares no external trigger, and is submitted for an HTTP request. -/
theorem external_without_trigger :
    ∃ (svc : Service Unit Unit Unit String Int) (s : St Int), buildService withRedis App.demoConfig [deduplicator] = .ok svc ∧
      Run (step svc) (fun _ _ => True) (init svc 0) s ∧ (⟨"event-deduplicator", "external"⟩ : RunRequest) ∈ s.submitted ∧
      ∀ d ∈ [deduplicator], Trigger.external ∉ d.triggers := by
  obtain ⟨svc, s, h, hr, hs⟩ := deduplicator_submitted
  exact ⟨svc, s, h, hr, by rw [hs]; decide, by decide⟩

end SagaAgents.Sources
