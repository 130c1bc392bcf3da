/-
  SagaAgents.App — how the service is wired (`app.py`).

  `build_service` keeps the enabled definitions by id, builds the executor over them,
  registers a job for each schedule trigger, builds the listener if there is a Redis
  client, and the API. It raises what the executor's semaphores or a cron expression raise,
  and where an integer of the configuration is too large for a float.

  Proved:
  - `built_definitions`: what runs, proposals and events are about are the enabled
    definitions.
  - `schedules_live_iff`: after `scheduler.start()` each schedule trigger of each enabled
    agent has its own job exactly if no enabled agent has two of them: jobs are named
    after their agent alone. `second_schedule_lost` is the other case.
-/

import SagaAgents.Lib.Raises
import SagaAgents.System
import SagaAgents.Triggers.RedisListener
import SagaAgents.Triggers.Scheduler

namespace SagaAgents.App

open Lib
open Config (AgentDefinition Definitions GlobalConfig ScheduleTrigger Trigger)
open Proposals (Codec)
open Runtime.Runner (AgentRunner)
open Triggers
open Triggers.Api (App Wire)
open Triggers.Executor (RunExecutor)
open Triggers.RedisListener (TriggerState triggerStates)
open Triggers.Scheduler (CronScheduler Job)

variable {Args Val Out C T : Type}

/-- `2^1024 - 2^970`, the least integer that rounds past the largest finite double. -/
def floatBound : Nat := (2 ^ 54 - 1) <<< 970

/-- `float(n)`, which raises `OverflowError`. -/
def toFloat (n : Int) : Except String Unit :=
  if n.natAbs < floatBound then .ok () else .error "int too large to convert to float"

structure RedisListener (T : Type) where
  channel : String
  states : List (TriggerState T)
  executor : RunExecutor

/-- `RedisListener(redis, channel, definitions, executor)`: each `debounce_minutes` is
    multiplied by a float. -/
def RedisListener.build [CommRing T] [LinearOrder T] (channel : String) (definitions : Definitions) (executor : RunExecutor) :
    Except String (RedisListener T) :=
  (((definitions.rows.filter (·.enabled)).flatMap (·.eventTriggers)).forM fun t => toFloat t.debounceMinutes).map fun _ =>
    ⟨channel, triggerStates definitions, executor⟩

/-- Only when Redis is available. -/
def buildListener [CommRing T] [LinearOrder T] (redis : Bool) (config : GlobalConfig) (definitions : Definitions)
    (executor : RunExecutor) : Except String (Option (RedisListener T)) :=
  if redis then (RedisListener.build config.redis.eventChannel definitions executor).map some else .ok none

structure Service (Args Val Out C T : Type) where
  runner : AgentRunner
  executor : RunExecutor
  scheduler : CronScheduler C
  listener : Option (RedisListener T)
  api : App Args Val Out

/-- The optional arguments of `build_service`, the environment variable it reads
    (`AGENTS_EXTERNAL_TOKEN`), and the parts it takes from libraries. -/
structure Deps (Args Val Out C : Type) where
  redis : Bool := false
  proposalStore : Bool := false
  mcpCall : Bool := false
  externalToken : Option String := none
  fromCrontab : String → Except String C
  codec : Codec Args
  wire : Wire Val Out

/-- The enabled definitions by id. -/
def definitionsById (definitions : List AgentDefinition) : Definitions :=
  Keyed.ofList AgentDefinition.id (definitions.filter (·.enabled))

def register (fromCrontab : String → Except String C) (agentId : String) (s : CronScheduler C) :
    Trigger → Except String (CronScheduler C)
  | .schedule t => s.add fromCrontab agentId t.cron
  | .event _ | .external => .ok s

/-- Register all schedule triggers. -/
def registerAll (fromCrontab : String → Except String C) (byId : Definitions) (s : CronScheduler C) :
    Except String (CronScheduler C) :=
  byId.rows.foldlM (fun s d => d.triggers.foldlM (register fromCrontab d.id) s) s

def buildService [CommRing T] [LinearOrder T] (env : Deps Args Val Out C) (config : GlobalConfig)
    (definitions : List AgentDefinition) : Except String (Service Args Val Out C T) := do
  let byId := definitionsById definitions
  let executor ← RunExecutor.build byId config.runtime.maxConcurrentRunsGlobal env.redis
  -- `AGENT_CONCURRENCY_LIMIT.set`
  toFloat config.runtime.maxConcurrentRunsGlobal
  let scheduler ← registerAll env.fromCrontab byId (.new executor)
  let listener ← buildListener env.redis config byId executor
  pure {
    runner := { config := config, proposalSink := env.proposalStore }
    executor := executor
    scheduler := scheduler
    listener := listener
    api := { expectedToken := env.externalToken.getD "changeme", proposalStore := env.proposalStore, mcpCall := env.mcpCall,
             codec := env.codec, wire := env.wire } }

/-- The service as runs and proposals see it. -/
def Service.wiring (svc : Service Args Val Out C T) : System.Wiring Args Val Out :=
  ⟨svc.executor.definitions, svc.runner, svc.api⟩

/-! ## What is built -/

variable [CommRing T] [LinearOrder T] {env : Deps Args Val Out C} {config : GlobalConfig}
  {definitions : List AgentDefinition} {svc : Service Args Val Out C T}

/-- The service is built where each of its parts is. -/
theorem buildService_parts : buildService env config definitions = .ok svc ↔
    RunExecutor.build (definitionsById definitions) config.runtime.maxConcurrentRunsGlobal env.redis = .ok svc.executor ∧
      toFloat config.runtime.maxConcurrentRunsGlobal = .ok () ∧
      registerAll env.fromCrontab (definitionsById definitions) (.new svc.executor) = .ok svc.scheduler ∧
      buildListener env.redis config (definitionsById definitions) svc.executor = .ok svc.listener ∧
      svc.runner = { config := config, proposalSink := env.proposalStore } ∧
      svc.api = { expectedToken := env.externalToken.getD "changeme", proposalStore := env.proposalStore,
                  mcpCall := env.mcpCall, codec := env.codec, wire := env.wire } := by
  constructor
  · intro h
    obtain ⟨executor, hx, h⟩ := bind_ok.mp h
    obtain ⟨u, hf, h⟩ := bind_ok.mp h
    obtain ⟨scheduler, hs, h⟩ := bind_ok.mp h
    obtain ⟨listener, hl, h⟩ := bind_ok.mp h
    cases h
    exact ⟨hx, hf, hs, hl, rfl, rfl⟩
  · obtain ⟨runner, executor, scheduler, listener, api⟩ := svc
    rintro ⟨hx, hf, hs, hl, rfl, rfl⟩
    refine bind_ok.mpr ⟨executor, hx, ?_⟩
    refine bind_ok.mpr ⟨(), hf, ?_⟩
    refine bind_ok.mpr ⟨scheduler, hs, ?_⟩
    exact bind_ok.mpr ⟨listener, hl, rfl⟩

theorem buildService_ok (h : buildService env config definitions = .ok svc) :
    RunExecutor.build (definitionsById definitions) config.runtime.maxConcurrentRunsGlobal env.redis = .ok svc.executor ∧
      registerAll env.fromCrontab (definitionsById definitions) (.new svc.executor) = .ok svc.scheduler ∧
      svc.listener.map (·.states) = if env.redis then some (triggerStates (definitionsById definitions)) else none := by
  obtain ⟨hx, -, hs, hl, -⟩ := buildService_parts.mp h
  refine ⟨hx, hs, ?_⟩
  unfold buildListener at hl
  split at hl
  · rename_i hr
    rw [RedisListener.build] at hl
    rw [if_pos hr]
    cases hf : (((definitionsById definitions).rows.filter (·.enabled)).flatMap (·.eventTriggers)).forM
        fun t => toFloat t.debounceMinutes with
    | error e =>
      rw [hf] at hl
      cases hl
    | ok u =>
      rw [hf] at hl
      injection hl with hl
      rw [← hl]
      rfl
  · rename_i hr
    injection hl with hl
    rw [← hl, if_neg hr]
    rfl

theorem definitionsById_rows (hids : (definitions.map AgentDefinition.id).Nodup) :
    (definitionsById definitions).rows = definitions.filter (·.enabled) :=
  Keyed.ofList_rows (hids.sublist (List.filter_sublist.map _))

theorem built_executor (h : buildService env config definitions = .ok svc) :
    svc.executor.definitions = definitionsById definitions := by
  obtain ⟨hx, -⟩ := buildService_ok h
  unfold RunExecutor.build at hx
  split at hx
  · injection hx with hx
    rw [← hx]
  · cases hx

/-- What runs, proposals and events are about are the enabled definitions. -/
theorem built_definitions (hids : (definitions.map AgentDefinition.id).Nodup)
    (h : buildService env config definitions = .ok svc) :
    svc.wiring.definitions.rows = definitions.filter (·.enabled) := by
  show svc.executor.definitions.rows = _
  rw [built_executor h]
  exact definitionsById_rows hids

/-! ## Schedules -/

/-- The pairs of an enabled agent and one of its schedule triggers. -/
def scheduled (definitions : List AgentDefinition) : List (AgentDefinition × ScheduleTrigger) :=
  (definitions.filter (·.enabled)).flatMap fun d => d.scheduleTriggers.map fun t => (d, t)

/-- The jobs correspond one to one to these pairs: each pair has its own job, with the
    trigger's cron expression, that submits a run of the agent. -/
def SchedulesLive (fromCrontab : String → Except String C) (definitions : List AgentDefinition) (jobs : List (Job C)) : Prop :=
  (jobs.map fun j => (Except.ok j.trigger, Scheduler.fire j)).Perm
    ((scheduled definitions).map fun p => (fromCrontab p.2.cron, Executor.Ev.submit ⟨p.1.id, "schedule"⟩))

def registrations (definitions : List AgentDefinition) : List (String × String) :=
  (scheduled definitions).map fun p => (p.1.id, p.2.cron)

theorem register_triggers (fromCrontab : String → Except String C) (d : AgentDefinition) (s : CronScheduler C) :
    d.triggers.foldlM (register fromCrontab d.id) s =
      d.scheduleTriggers.foldlM (fun s t => s.add fromCrontab d.id t.cron) s := by
  rw [AgentDefinition.scheduleTriggers, List.foldlM_filterMap]
  congr 1
  funext s t
  cases t <;> rfl

/-- The two loops register each agent with each of its cron expressions, in order. -/
theorem registerAll_rows (fromCrontab : String → Except String C) (byId : Definitions) (s : CronScheduler C) :
    registerAll fromCrontab byId s =
      (byId.rows.flatMap fun d => d.scheduleTriggers.map fun t => (d.id, t.cron)).foldlM
        (fun s p => s.add fromCrontab p.1 p.2) s := by
  rw [registerAll]
  induction byId.rows generalizing s with
  | nil => rfl
  | cons d ds ih =>
    rw [List.foldlM_cons, List.flatMap_cons, List.foldlM_append, List.foldlM_map, register_triggers]
    exact congrArg _ (funext ih)

theorem registerAll_eq (fromCrontab : String → Except String C) (hids : (definitions.map AgentDefinition.id).Nodup)
    (s : CronScheduler C) :
    registerAll fromCrontab (definitionsById definitions) s =
      (registrations definitions).foldlM (fun s p => s.add fromCrontab p.1 p.2) s := by
  have e : registrations definitions =
      (definitions.filter (·.enabled)).flatMap fun d => d.scheduleTriggers.map fun t => (d.id, t.cron) := by
    simp only [registrations, scheduled, List.map_flatMap, List.map_map]
    rfl
  rw [registerAll_rows, definitionsById_rows hids, e]

/-- No agent is registered twice exactly if no enabled agent has two schedule triggers. -/
theorem registrations_nodup (hids : (definitions.map AgentDefinition.id).Nodup) :
    ((registrations definitions).map Prod.fst).Nodup ↔
      ∀ d ∈ definitions, d.enabled = true → d.scheduleTriggers.length ≤ 1 := by
  have e : (registrations definitions).map Prod.fst =
      (definitions.filter (·.enabled)).flatMap fun d => List.replicate d.scheduleTriggers.length d.id := by
    simp only [registrations, scheduled, List.map_map, List.map_flatMap]
    congr 1
    funext d
    show d.scheduleTriggers.map (fun _ => d.id) = _
    exact List.map_const'
  rw [e, List.nodup_flatMap]
  constructor
  · intro h d hd hen
    exact List.nodup_replicate.mp (h.1 d (List.mem_filter.mpr ⟨hd, hen⟩))
  · intro h
    refine ⟨fun d hd => List.nodup_replicate.mpr (h d (List.mem_filter.mp hd).1 (List.mem_filter.mp hd).2), ?_⟩
    refine (List.pairwise_map.mp hids).filter _ |>.imp fun {a b} hne id ha hb => ?_
    exact hne ((List.eq_of_mem_replicate ha).symm.trans (List.eq_of_mem_replicate hb))

/-- Each schedule trigger of each enabled agent has its own job, and there is no other
    job, exactly if no enabled agent has two of them. -/
theorem schedules_live_iff (hids : (definitions.map AgentDefinition.id).Nodup)
    (h : buildService env config definitions = .ok svc) :
    SchedulesLive env.fromCrontab definitions svc.scheduler.start.scheduler.jobs.rows ↔
      ∀ d ∈ definitions, d.enabled = true → d.scheduleTriggers.length ≤ 1 := by
  obtain ⟨-, hs, -⟩ := buildService_ok h
  rw [registerAll_eq env.fromCrontab hids] at hs
  obtain ⟨js, hm, ht⟩ := Scheduler.foldlM_add rfl hs
  have hjobs : svc.scheduler.start.scheduler.jobs = Keyed.ofList Job.id js := by
    simp only [CronScheduler.start, ht]
    rfl
  have hpairs : (scheduled definitions).map (fun p => (env.fromCrontab p.2.cron, Executor.Ev.submit ⟨p.1.id, "schedule"⟩)) =
      js.map fun j => (Except.ok j.trigger, Scheduler.fire j) := by
    rw [hm.fires, registrations, List.map_map]
    rfl
  rw [hjobs, SchedulesLive, hpairs, ← registrations_nodup hids]
  constructor
  · intro hp
    have hl := hp.length_eq
    rw [List.length_map, List.length_map, hm.length] at hl
    exact (Scheduler.start_length hm).mp hl
  · intro hn
    rw [Scheduler.start_rows hm hn]

/-! The two reference agents; and one agent with both of their schedules. -/

def deps : Deps Unit Unit Unit String where
  fromCrontab := .ok
  codec := Proposals.emptyArgs
  wire := { jsonableEncoder := some, str := id, renders := fun _ => true }

def demoConfig : GlobalConfig := { mcp := ⟨"", ""⟩, ollama := ⟨"", ""⟩, redis := ⟨"", ""⟩ }

def agent (id : String) (crons : List String) : AgentDefinition :=
  { id := id, triggers := crons.map fun cron => .schedule ⟨cron⟩ }

def referenceAgents : List AgentDefinition := [agent "event-deduplicator" ["0 3 * * *"], agent "re-categorizer" ["0 4 * * *"]]

def nightly : List AgentDefinition := [agent "event-deduplicator" ["0 3 * * *", "0 4 * * *"]]

theorem schedules_live_iff_reference :
    ∃ svc : Service Unit Unit Unit String Int, buildService deps demoConfig referenceAgents = .ok svc ∧
      (SchedulesLive deps.fromCrontab referenceAgents svc.scheduler.start.scheduler.jobs.rows ↔
        ∀ d ∈ referenceAgents, d.enabled = true → d.scheduleTriggers.length ≤ 1) ∧
      ∀ d ∈ referenceAgents, d.enabled = true → d.scheduleTriggers.length ≤ 1 := by
  obtain ⟨svc, h⟩ : ∃ svc : Service Unit Unit Unit String Int, buildService deps demoConfig referenceAgents = .ok svc :=
    ⟨_, rfl⟩
  exact ⟨svc, h, schedules_live_iff (by decide) h, by decide⟩

/-- The second schedule of the agent takes the place of the first. -/
theorem second_schedule_lost :
    ∃ svc : Service Unit Unit Unit String Int, buildService deps demoConfig nightly = .ok svc ∧
      (nightly.map AgentDefinition.id).Nodup ∧
      svc.scheduler.start.scheduler.jobs.rows = [⟨"cron:event-deduplicator", "0 4 * * *", "event-deduplicator"⟩] ∧
      ¬ SchedulesLive deps.fromCrontab nightly svc.scheduler.start.scheduler.jobs.rows := by
  refine ⟨_, rfl, by decide, by rfl, fun h => ?_⟩
  exact absurd h.length_eq (by decide)

end SagaAgents.App
