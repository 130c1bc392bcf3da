/-
  SagaAgents.Runnable — which configurations give a service that runs its agents.

  The models accept every integer and every string: for the limits (`config/models.py`),
  the debounce times and the cron expressions. The service built from them hands them to
  semaphores, to floats, to the cron parser, and as the expiry of a lock to Redis, and
  each of these takes only some.

  Proved:
  - `runnable_iff`: the service is built, a submit alone gets to its run, and no submit
    waits for ever, however many more are made, iff the configuration is `Sensible`.
  - `no_permit_never_runs`: without a permit for it no run of an agent ever starts.
  `zero_limit_blocks` is a configuration that is built and blocks.
-/

import SagaAgents.App
import SagaAgents.Triggers.Waiting

namespace SagaAgents.Runnable

open Lib
open App (Deps RedisListener Service buildListener buildService definitionsById register registerAll toFloat)
open Config (AgentDefinition Definitions GlobalConfig Trigger)
open Triggers
open Triggers.Executor (CanGoOn Pc Reply RunExecutor RunRequest St Sub Timed Within init step submit)
open Triggers.Scheduler (CronScheduler)

/-! ## A submit alone -/

/-- A healthy Redis answers `SET .. NX EX` on a free key: the expiry is one it takes, or
    the command raises. -/
def setAnswer (expires : Int → Bool) (d : AgentDefinition) : Reply :=
  if expires d.limits.timeoutSeconds then .truthy else .raised

/-- A submit while nothing else goes on, up to its run or to where it waits. -/
def alone (expires : Int → Bool) (x : RunExecutor) (req : RunRequest) (s : St) : St :=
  let t := submit x req s
  match t.subs[s.subs.length]?.map Sub.pc, x.runnable req with
  | some .locking, some d => (step x t (.setReply s.subs.length (setAnswer expires d))).getD t
  | _, _ => t

/-- It reaches `runner.run`. -/
def Reaches (expires : Int → Bool) (x : RunExecutor) (req : RunRequest) (s : St) : Prop :=
  (alone expires x req s).subs[s.subs.length]?.map Sub.pc = some .running

/-- While a submit has not ended some submit can go on, and when those that can go on all
    end. -/
def Progresses (x : RunExecutor) : Prop :=
  ∀ s, Run (step x) (fun _ _ => True) (init x) s → ¬ s.idle →
    (∃ i u, s.subs[i]? = some u ∧ CanGoOn s i u) ∧ ∃ t, Run (step x) (fun _ e => e.goesOn = true) s t ∧ t.idle

/-- However many submits are made, where none has both its permits for longer than `d` each
    gets them in `d` for every submit that it found under way and every other global
    permit. -/
def ServesEach (x : RunExecutor) : Prop :=
  ∀ d s, Run (Timed.step x) (Within d) (Timed.init x) s → ∀ i, s.waited i ≤ d * (s.ahead i + (x.globalLimit - 1))

theorem acquire_init (n : Nat) (i : Nat) : ((Semaphore.init n).acquire i).1 = !(n == 0) := by
  cases n <;> rfl

/-- Where a submit gets at once in an idle executor with Redis. -/
theorem submit_idle {x : RunExecutor} {s : St} {req : RunRequest} {d : AgentDefinition} (hr : x.redis = true)
    (hg : s.globalSem = Semaphore.init x.globalLimit) (ha : ∀ id, s.agentSems id = Semaphore.init (x.permits id))
    (hd : x.runnable req = some d) :
    (submit x req s).subs[s.subs.length]?.map Sub.pc =
      some (if x.globalLimit = 0 then .waitGlobal else if x.permits req.agentId = 0 then .waitAgent else .locking) := by
  have hid : (Executor.fresh req).req.agentId = req.agentId := rfl
  simp only [submit, hd, Executor.acquireGlobal, hg, acquire_init]
  by_cases h₁ : x.globalLimit = 0
  · simp [h₁]
  · simp only [Executor.acquireAgent, hid, ha, acquire_init]
    by_cases h₂ : x.permits req.agentId = 0
    · simp [h₁, h₂]
    · simp [h₁, h₂, Executor.enterBody, hr]

/-- It reaches its run iff there is a permit for it and Redis takes its expiry. -/
theorem reaches_iff {expires : Int → Bool} {x : RunExecutor} {s : St} {req : RunRequest} {d : AgentDefinition}
    (hr : x.redis = true) (hg : s.globalSem = Semaphore.init x.globalLimit)
    (ha : ∀ id, s.agentSems id = Semaphore.init (x.permits id)) (hd : x.runnable req = some d) :
    Reaches expires x req s ↔ 1 ≤ x.globalLimit ∧ 1 ≤ x.permits req.agentId ∧ expires d.limits.timeoutSeconds = true := by
  have hpc := submit_idle hr hg ha hd
  unfold Reaches
  by_cases h₁ : x.globalLimit = 0
  · rw [if_pos h₁] at hpc
    simp [alone, hpc, hd, h₁]
  · by_cases h₂ : x.permits req.agentId = 0
    · rw [if_neg h₁, if_pos h₂] at hpc
      simp [alone, hpc, hd, h₂]
    · rw [if_neg h₁, if_neg h₂] at hpc
      obtain ⟨u, hu, hp⟩ := Option.map_eq_some_iff.mp hpc
      have hlt : s.subs.length < (submit x req s).subs.length := (List.getElem?_eq_some_iff.mp hu).1
      have h₁' : 1 ≤ x.globalLimit := by omega
      have h₂' : 1 ≤ x.permits req.agentId := by omega
      have halone : alone expires x req s = Executor.afterSet s.subs.length u (setAnswer expires d) (submit x req s) := by
        simp only [alone, hd, step, Executor.Ev.index, Option.bind_some, Option.map_some, hu, Executor.move, hp, if_true,
          Option.getD_some]
      rw [halone]
      cases he : expires d.limits.timeoutSeconds with
      | true => simp [setAnswer, he, Executor.afterSet, Executor.startRun, hlt, h₁', h₂']
      | false => simp [setAnswer, he, Executor.afterSet, Executor.releaseBoth, Executor.releaseGlobal, hlt]

/-- Without a permit for it no run of an agent ever starts. -/
theorem no_permit_never_runs {x : RunExecutor} {ok : St → Executor.Ev → Prop} {s : St} (h : Run (step x) ok (init x) s)
    {id : String} (hp : x.globalLimit = 0 ∨ x.permits id = 0) :
    ∀ u ∈ s.subs, u.req.agentId = id → Executor.isRunning u = false := by
  intro u hu e
  obtain ⟨hglobal, hagent⟩ := (Executor.inv_run h (Executor.inv_init x)).caps
  cases hr : Executor.isRunning u with
  | false => rfl
  | true =>
    rcases hp with hp | hp
    · have : 0 < s.subs.countP Executor.isRunning := List.countP_pos_iff.mpr ⟨u, hu, hr⟩
      omega
    · have hin : 0 < s.inside id := List.countP_pos_iff.mpr ⟨u, hu, by simp [hr, e]⟩
      have := hagent id
      omega

/-! ## Configurations -/

variable {Args Val Out C T : Type}

/-- The values of an enabled agent are values that their consumers take. -/
structure SensibleAgent (expires : Int → Bool) (fromCrontab : String → Except String C) (globalLimit : Int)
    (d : AgentDefinition) : Prop where
  globalLimit : 1 ≤ globalLimit
  maxConcurrentRuns : 1 ≤ d.limits.maxConcurrentRuns
  timeoutSeconds : expires d.limits.timeoutSeconds = true
  cron : ∀ t ∈ d.scheduleTriggers, ∃ c, fromCrontab t.cron = .ok c
  debounceMinutes : ∀ t ∈ d.eventTriggers, toFloat t.debounceMinutes = .ok ()

structure Sensible (expires : Int → Bool) (fromCrontab : String → Except String C) (config : GlobalConfig)
    (definitions : List AgentDefinition) : Prop where
  nonneg : 0 ≤ config.runtime.maxConcurrentRunsGlobal
  gauge : toFloat config.runtime.maxConcurrentRunsGlobal = .ok ()
  agents : ∀ d ∈ definitions, d.enabled = true → SensibleAgent expires fromCrontab config.runtime.maxConcurrentRunsGlobal d

/-- The service is built; a submit alone of each enabled agent gets to its run whenever no
    submit is in progress; and no submit waits for ever, whatever else is submitted. -/
def RunnableService [CommRing T] [LinearOrder T] (expires : Int → Bool) (env : Deps Args Val Out C) (config : GlobalConfig)
    (definitions : List AgentDefinition) : Prop :=
  ∃ svc : Service Args Val Out C T, buildService env config definitions = .ok svc ∧
    (∀ d ∈ definitions, d.enabled = true → ∀ s, Run (step svc.executor) (fun _ _ => True) (init svc.executor) s → s.idle →
      ∀ reason, Reaches expires svc.executor ⟨d.id, reason⟩ s) ∧
    Progresses svc.executor ∧ ServesEach svc.executor

theorem forM_ok {α : Type} {f : α → Except String Unit} {l : List α} : l.forM f = .ok () ↔ ∀ a ∈ l, f a = .ok () := by
  induction l with
  | nil => exact ⟨fun _ _ h => (by cases h), fun _ => rfl⟩
  | cons a l ih =>
    rw [show (a :: l).forM f = (f a).bind fun _ => l.forM f from rfl, bind_ok, List.forall_mem_cons]
    exact ⟨fun ⟨_, h, h'⟩ => ⟨h, ih.mp h'⟩, fun ⟨h, h'⟩ => ⟨(), h, ih.mpr h'⟩⟩

theorem executor_ok {definitions : Definitions} {globalLimit : Int} {redis : Bool} {x : RunExecutor}
    (h : RunExecutor.build definitions globalLimit redis = .ok x) :
    0 ≤ globalLimit ∧ x.definitions = definitions ∧ x.globalLimit = globalLimit.toNat ∧ x.redis = redis := by
  unfold RunExecutor.build at h
  split at h
  · rename_i hn
    cases h
    exact ⟨hn.1, rfl, rfl, rfl⟩
  · cases h

theorem listener_ok [CommRing T] [LinearOrder T] (config : GlobalConfig) (definitions : Definitions) (x : RunExecutor) :
    (∃ l : Option (RedisListener T), buildListener true config definitions x = .ok l) ↔
      ∀ d ∈ definitions.rows, d.enabled = true → ∀ t ∈ d.eventTriggers, toFloat t.debounceMinutes = .ok () := by
  have hforM : (∃ l : Option (RedisListener T), buildListener true config definitions x = .ok l) ↔
      ((definitions.rows.filter (·.enabled)).flatMap (·.eventTriggers)).forM (fun t => toFloat t.debounceMinutes) = .ok () := by
    unfold buildListener RedisListener.build
    cases ((definitions.rows.filter (·.enabled)).flatMap (·.eventTriggers)).forM fun t => toFloat t.debounceMinutes with
    | error e => simp [Except.map]
    | ok u => simp [Except.map]
  rw [hforM, forM_ok]
  simp only [List.mem_flatMap, List.mem_filter]
  constructor
  · exact fun h d hd hen t ht => h t ⟨d, ⟨hd, hen⟩, ht⟩
  · rintro h t ⟨d, ⟨hd, hen⟩, ht⟩
    exact h d hd hen t ht

theorem made_parses {fromCrontab : String → Except String C} {ps : List (String × String)} {js : List (Scheduler.Job C)}
    (h : Scheduler.Made fromCrontab ps js) : ∀ p ∈ ps, ∃ c, fromCrontab p.2 = .ok c := by
  induction h with
  | nil => exact fun p hp => (by cases hp)
  | cons hc h ih =>
    intro p hp
    rcases List.mem_cons.mp hp with e | hp
    · subst e
      exact ⟨_, hc⟩
    · exact ih p hp

theorem foldlM_parses {fromCrontab : String → Except String C} {ps : List (String × String)}
    (h : ∀ p ∈ ps, ∃ c, fromCrontab p.2 = .ok c) (s : CronScheduler C) :
    ∃ t, ps.foldlM (fun s p => s.add fromCrontab p.1 p.2) s = .ok t := by
  induction ps generalizing s with
  | nil => exact ⟨s, rfl⟩
  | cons p ps ih =>
    obtain ⟨c, hc⟩ := h p List.mem_cons_self
    obtain ⟨t, ht⟩ := ih (fun q hq => h q (List.mem_cons_of_mem _ hq))
      { s with scheduler := s.scheduler.addJob ⟨Scheduler.jobId p.1, c, p.1⟩ }
    refine ⟨t, ?_⟩
    rw [List.foldlM_cons, CronScheduler.add, hc]
    exact ht

section

variable {definitions : List AgentDefinition}

/-- The cron expressions are registered iff each of them parses. -/
theorem registered_iff (fromCrontab : String → Except String C) (hids : (definitions.map AgentDefinition.id).Nodup)
    (x : RunExecutor) :
    (∃ t, registerAll fromCrontab (definitionsById definitions) (.new x) = .ok t) ↔
      ∀ d ∈ definitions, d.enabled = true → ∀ t ∈ d.scheduleTriggers, ∃ c, fromCrontab t.cron = .ok c := by
  rw [App.registerAll_eq fromCrontab hids]
  have hmem (d : AgentDefinition) (t : Config.ScheduleTrigger) (hd : d ∈ definitions) (hen : d.enabled = true)
      (ht : t ∈ d.scheduleTriggers) : (d.id, t.cron) ∈ App.registrations definitions :=
    List.mem_map.mpr ⟨(d, t), List.mem_flatMap.mpr ⟨d, List.mem_filter.mpr ⟨hd, hen⟩, List.mem_map_of_mem ht⟩, rfl⟩
  constructor
  · rintro ⟨s, hs⟩ d hd hen t ht
    obtain ⟨js, hm, -⟩ := Scheduler.foldlM_add rfl hs
    exact made_parses hm _ (hmem d t hd hen ht)
  · intro h
    refine foldlM_parses (fun p hp => ?_) _
    obtain ⟨q, hq, e⟩ := List.mem_map.mp hp
    obtain ⟨d, hd, hq⟩ := List.mem_flatMap.mp hq
    obtain ⟨t, ht, e'⟩ := List.mem_map.mp hq
    subst e e'
    exact h d (List.mem_filter.mp hd).1 (List.mem_filter.mp hd).2 t ht

/-- The executor has the enabled definitions, under their ids. -/
theorem runnable_enabled (hids : (definitions.map AgentDefinition.id).Nodup) {x : RunExecutor}
    (hx : x.definitions = definitionsById definitions) {d : AgentDefinition} (hd : d ∈ definitions) (hen : d.enabled = true)
    (reason : String) :
    d ∈ x.definitions.rows ∧ x.runnable ⟨d.id, reason⟩ = some d ∧ x.permits d.id = d.limits.maxConcurrentRuns.toNat := by
  have hrow : d ∈ x.definitions.rows := by
    rw [hx, App.definitionsById_rows hids]
    exact List.mem_filter.mpr ⟨hd, hen⟩
  have hget : x.definitions.get d.id = some d := Keyed.get_of_mem hrow
  exact ⟨hrow, by simp [RunExecutor.runnable, hget, hen], by simp [RunExecutor.permits, hget]⟩

/-- Each agent of the executor has a permit, of its own and of all of them. -/
def Permitted (x : RunExecutor) : Prop :=
  ∀ d ∈ x.definitions.rows, 1 ≤ x.globalLimit ∧ 1 ≤ d.limits.maxConcurrentRuns

theorem progresses {x : RunExecutor} (h : Permitted x) : Progresses x := by
  intro s hs hidle
  cases hrows : x.definitions.rows with
  | nil =>
    -- without agents every submit is turned away
    refine absurd (fun u hu => ?_) hidle
    rcases Executor.known_run hs u hu with hp | hk
    · simp [Executor.hasEnded, hp]
    · obtain ⟨d, hd⟩ := Option.isSome_iff_exists.mp hk
      have := (Keyed.get_some (Option.filter_eq_some_iff.mp hd).1).1
      rw [hrows] at this
      cases this
  | cons d ds =>
    have hglobal : 1 ≤ x.globalLimit := (h d (by rw [hrows]; exact List.mem_cons_self)).1
    have hagents : ∀ d ∈ x.definitions.rows, 1 ≤ d.limits.maxConcurrentRuns := fun d hd => (h d hd).2
    exact ⟨Executor.some_canGoOn hglobal hagents hs hidle, Executor.all_end hglobal hagents hs⟩

theorem serves_each {x : RunExecutor} (h : Permitted x) : ServesEach x :=
  fun _ _ hs i => (Executor.bounded_run h hs).waited_le i

/-- In an executor at rest an agent with permits gets to its run. -/
theorem reaches_permitted (hids : (definitions.map AgentDefinition.id).Nodup) {expires : Int → Bool} {x : RunExecutor}
    (hx : x.definitions = definitionsById definitions) (hr : x.redis = true) (hp : Permitted x) {d : AgentDefinition}
    (hd : d ∈ definitions) (hen : d.enabled = true) (htimeout : expires d.limits.timeoutSeconds = true) {s : St}
    (hs : Run (step x) (fun _ _ => True) (init x) s) (hidle : s.idle) (reason : String) : Reaches expires x ⟨d.id, reason⟩ s := by
  obtain ⟨hg, ha, -⟩ := (Executor.inv_run hs (Executor.inv_init x)).idle hidle
  obtain ⟨hrow, hrunnable, hpermits⟩ := runnable_enabled hids hx hd hen reason
  obtain ⟨hglobal, hagent⟩ := hp d hrow
  refine (reaches_iff hr hg ha hrunnable).mpr ⟨hglobal, ?_, htimeout⟩
  show 1 ≤ x.permits d.id
  omega

/-- What a service that is built and lets a submit alone run has in its configuration. -/
theorem sensible_of_runnable [CommRing T] [LinearOrder T] {expires : Int → Bool} {env : Deps Args Val Out C} {config : GlobalConfig}
    (hids : (definitions.map AgentDefinition.id).Nodup) (hredis : env.redis = true)
    (h : RunnableService (T := T) expires env config definitions) : Sensible expires env.fromCrontab config definitions := by
  obtain ⟨svc, hsvc, hreach, -⟩ := h
  obtain ⟨hx, hgauge, hs, hl, -⟩ := App.buildService_parts.mp hsvc
  obtain ⟨hnonneg, hdefs, hglobal, hr⟩ := executor_ok hx
  have hcron := (registered_iff env.fromCrontab hids svc.executor).mp ⟨_, hs⟩
  rw [hredis] at hl hr
  have hdeb := (listener_ok config (definitionsById definitions) svc.executor).mp ⟨_, hl⟩
  refine ⟨hnonneg, hgauge, fun d hd hen => ?_⟩
  obtain ⟨hrow, hrun, hpermits⟩ := runnable_enabled hids hdefs hd hen ""
  rw [hdefs] at hrow
  have hreaches := hreach d hd hen (init svc.executor) (.refl _) (fun u hu => (by cases hu)) ""
  obtain ⟨h₁, h₂, h₃⟩ := (reaches_iff hr rfl (fun _ => rfl) hrun).mp hreaches
  have hagent : 1 ≤ d.limits.maxConcurrentRuns := by
    simp only at h₂
    omega
  exact ⟨by omega, hagent, h₃, hcron d hd hen, hdeb d hrow hen⟩

/-- The executor of a sensible configuration is built. -/
theorem sensible_executor (hids : (definitions.map AgentDefinition.id).Nodup) {expires : Int → Bool}
    {fromCrontab : String → Except String C} {config : GlobalConfig} (h : Sensible expires fromCrontab config definitions)
    (redis : Bool) :
    ∃ x, RunExecutor.build (definitionsById definitions) config.runtime.maxConcurrentRunsGlobal redis = .ok x ∧ Permitted x := by
  have hagent : ∀ d ∈ (definitionsById definitions).rows,
      1 ≤ config.runtime.maxConcurrentRunsGlobal ∧ 1 ≤ d.limits.maxConcurrentRuns := by
    intro d hd
    rw [App.definitionsById_rows hids] at hd
    obtain ⟨hd, hen⟩ := List.mem_filter.mp hd
    have hsensible := h.agents d hd hen
    exact ⟨hsensible.globalLimit, hsensible.maxConcurrentRuns⟩
  have hn : ∀ d ∈ (definitionsById definitions).rows, 0 ≤ d.limits.maxConcurrentRuns := fun d hd => by
    have := (hagent d hd).2
    omega
  refine ⟨⟨definitionsById definitions, config.runtime.maxConcurrentRunsGlobal.toNat, redis, hn⟩, dif_pos ⟨h.nonneg, hn⟩, ?_⟩
  intro d hd
  obtain ⟨hglobal, hagent⟩ := hagent d hd
  refine ⟨?_, hagent⟩
  show 1 ≤ config.runtime.maxConcurrentRunsGlobal.toNat
  omega

/-- Accepted configurations are runnable iff they are sensible. -/
theorem runnable_iff [CommRing T] [LinearOrder T] (expires : Int → Bool) (env : Deps Args Val Out C) (config : GlobalConfig)
    (hids : (definitions.map AgentDefinition.id).Nodup) (hredis : env.redis = true) :
    RunnableService (T := T) expires env config definitions ↔ Sensible expires env.fromCrontab config definitions := by
  refine ⟨sensible_of_runnable hids hredis, fun h => ?_⟩
  obtain ⟨x, hx, hpermits⟩ := sensible_executor hids h env.redis
  obtain ⟨-, hdefs, -, hr⟩ := executor_ok hx
  obtain ⟨scheduler, hs⟩ := (registered_iff env.fromCrontab hids x).mpr fun d hd hen => (h.agents d hd hen).cron
  obtain ⟨listener, hl⟩ := (listener_ok (T := T) config (definitionsById definitions) x).mpr fun d hd hen => by
    rw [App.definitionsById_rows hids] at hd
    exact (h.agents d (List.mem_filter.mp hd).1 hen).debounceMinutes
  rw [← hredis] at hl
  refine ⟨⟨_, x, scheduler, listener, _⟩, App.buildService_parts.mpr ⟨hx, h.gauge, hs, hl, rfl, rfl⟩, ?_, progresses hpermits,
    serves_each hpermits⟩
  intro d hd hen s hrun hidle reason
  exact reaches_permitted hids hdefs (hr.trans hredis) hpermits hd hen (h.agents d hd hen).timeoutSeconds hrun hidle reason

end

/-! ## Two configurations -/

def withRedis : Deps Unit Unit Unit String := { App.deps with redis := true }

/-- Redis takes positive expiries. -/
def positive (n : Int) : Bool := decide (0 < n)

def summarizer : AgentDefinition := { id := "summarizer", triggers := [.event ⟨["document.created"], 5⟩, .schedule ⟨"0 3 * * *"⟩] }

theorem runnable_iff_summarizer : RunnableService (T := Int) positive withRedis App.demoConfig [summarizer] := by
  refine (runnable_iff positive withRedis App.demoConfig (by decide) rfl).mpr ⟨by decide, rfl, fun d hd _ => ?_⟩
  rw [List.mem_singleton.mp hd]
  refine ⟨by decide, by decide, rfl, fun t _ => ⟨t.cron, rfl⟩, fun t ht => ?_⟩
  rw [List.mem_singleton.mp (show t ∈ [⟨["document.created"], 5⟩] from ht)]
  rfl

def zeroLimit : GlobalConfig := { App.demoConfig with runtime := { maxConcurrentRunsGlobal := 0 } }

/-- With a global limit of 0 the service is built, and the first submit waits in the
    queue of the global semaphore. -/
theorem zero_limit_blocks :
    (∃ svc : Service Unit Unit Unit String Int, buildService withRedis zeroLimit [summarizer] = .ok svc ∧
      ((alone positive svc.executor ⟨"summarizer", "external"⟩ (init svc.executor)).subs.map Sub.pc) = [.waitGlobal]) ∧
      ¬ RunnableService (T := Int) positive withRedis zeroLimit [summarizer] := by
  refine ⟨⟨_, rfl, by decide⟩, ?_⟩
  rintro ⟨svc, hsvc, hreach, -⟩
  cases hsvc
  have := hreach summarizer List.mem_cons_self rfl _ (.refl _) (fun u hu => (by cases hu)) "external"
  revert this
  unfold Reaches
  decide

end SagaAgents.Runnable
