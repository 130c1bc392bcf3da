/-
  SagaAgents.Triggers.Scheduler — scheduled runs (`triggers/scheduler.py`), over an
  APScheduler `AsyncIOScheduler` with one job store.

  A job added before the scheduler starts is queued; on start the queued jobs are stored,
  in order, and from then on new ones are stored at once. The store is keyed by job id,
  and every job is added with `replace_existing=True`, so a later job with the id of an
  earlier one takes its place. A job's function is the closure `_fire`, which keeps the
  agent's id; its trigger is what `CronTrigger.from_crontab` makes of the expression, or
  that raises (`C` stands for the triggers).

  Proved: `add` names a job after its agent alone, so the jobs that run after `start` are
  as many as were added exactly if no agent was added twice (`start_length`); then they
  are the jobs added, in order (`start_rows`).
-/

import SagaAgents.Triggers.Executor

namespace SagaAgents.Triggers.Scheduler

open Lib
open Executor (RunExecutor RunRequest)

variable {C : Type}

/-! ## APScheduler -/

structure Job (C : Type) where
  id : String
  trigger : C
  aid : String
  deriving DecidableEq, Repr

structure AsyncIOScheduler (C : Type) where
  pendingJobs : List (Job C)
  jobs : Keyed (Job.id (C := C))
  running : Bool

/-- `AsyncIOScheduler()`. -/
def AsyncIOScheduler.new : AsyncIOScheduler C := ⟨[], Keyed.empty Job.id, false⟩

def AsyncIOScheduler.addJob (a : AsyncIOScheduler C) (j : Job C) : AsyncIOScheduler C :=
  if a.running then { a with jobs := a.jobs.set j } else { a with pendingJobs := a.pendingJobs ++ [j] }

def AsyncIOScheduler.start (a : AsyncIOScheduler C) : AsyncIOScheduler C :=
  ⟨[], a.pendingJobs.foldl Keyed.set a.jobs, true⟩

/-! ## CronScheduler -/

structure CronScheduler (C : Type) where
  executor : RunExecutor
  scheduler : AsyncIOScheduler C
  started : Bool

/-- `CronScheduler(executor)`. -/
def CronScheduler.new (executor : RunExecutor) : CronScheduler C := ⟨executor, .new, false⟩

def jobId (agentId : String) : String := "cron:" ++ agentId

def CronScheduler.add (fromCrontab : String → Except String C) (s : CronScheduler C) (agentId cron : String) :
    Except String (CronScheduler C) :=
  (fromCrontab cron).map fun trigger => { s with scheduler := s.scheduler.addJob ⟨jobId agentId, trigger, agentId⟩ }

def CronScheduler.start (s : CronScheduler C) : CronScheduler C :=
  { s with scheduler := s.scheduler.start, started := true }

/-- What a firing of the job does: the request it submits to the executor. -/
def fire (j : Job C) : Executor.Ev := .submit ⟨j.aid, "schedule"⟩

/-! ## Registration -/

theorem jobId_inj {a b : String} (h : jobId a = jobId b) : a = b := (String.append_right_inj "cron:").mp h

/-- The jobs a sequence of registrations makes, one for each. -/
inductive Made (fromCrontab : String → Except String C) : List (String × String) → List (Job C) → Prop
  | nil : Made fromCrontab [] []
  | cons {agentId cron : String} {trigger : C} {ps : List (String × String)} {js : List (Job C)}
      (hc : fromCrontab cron = .ok trigger) (h : Made fromCrontab ps js) :
      Made fromCrontab ((agentId, cron) :: ps) (⟨jobId agentId, trigger, agentId⟩ :: js)

variable {fromCrontab : String → Except String C} {ps : List (String × String)} {js : List (Job C)}

theorem Made.ids (h : Made fromCrontab ps js) : js.map Job.id = ps.map fun p => jobId p.1 := by
  induction h with
  | nil => rfl
  | cons hc h ih => rw [List.map_cons, List.map_cons, ih]

theorem Made.length (h : Made fromCrontab ps js) : js.length = ps.length := by
  induction h with
  | nil => rfl
  | cons hc h ih => rw [List.length_cons, List.length_cons, ih]

theorem Made.agents (h : Made fromCrontab ps js) : js.map Job.aid = ps.map Prod.fst := by
  induction h with
  | nil => rfl
  | cons hc h ih => rw [List.map_cons, List.map_cons, ih]

/-- Each job has its registration's trigger, and submits a run of its agent. -/
theorem Made.fires (h : Made fromCrontab ps js) :
    (js.map fun j => (Except.ok j.trigger, fire j)) =
      ps.map fun p => (fromCrontab p.2, Executor.Ev.submit ⟨p.1, "schedule"⟩) := by
  induction h with
  | nil => rfl
  | cons hc h ih =>
    rw [List.map_cons, List.map_cons, ih, hc]
    rfl

/-- Registrations before the start are all queued. -/
theorem foldlM_add {s t : CronScheduler C} (hr : s.scheduler.running = false)
    (h : ps.foldlM (fun s p => s.add fromCrontab p.1 p.2) s = .ok t) :
    ∃ js, Made fromCrontab ps js ∧ t.scheduler = { s.scheduler with pendingJobs := s.scheduler.pendingJobs ++ js } := by
  induction ps generalizing s with
  | nil =>
    cases h
    exact ⟨[], .nil, by rw [List.append_nil]⟩
  | cons p ps ih =>
    rw [List.foldlM_cons] at h
    unfold CronScheduler.add at h
    cases hc : fromCrontab p.2 with
    | error e =>
      rw [hc] at h
      cases h
    | ok trigger =>
      rw [hc] at h
      obtain ⟨js, hm, ht⟩ := ih (s := { s with scheduler := s.scheduler.addJob ⟨jobId p.1, trigger, p.1⟩ })
        (by simp [AsyncIOScheduler.addJob, hr]) h
      refine ⟨⟨jobId p.1, trigger, p.1⟩ :: js, .cons hc hm, ?_⟩
      rw [ht]
      simp [AsyncIOScheduler.addJob, hr]

theorem ids_nodup (h : Made fromCrontab ps js) : (js.map Job.id).Nodup ↔ (ps.map Prod.fst).Nodup := by
  have e : (ps.map fun p => jobId p.1) = (ps.map Prod.fst).map jobId := by rw [List.map_map]; rfl
  rw [h.ids, e]
  exact List.nodup_map_iff fun a b => jobId_inj

/-- After the start there are as many jobs as registrations exactly if no agent was
    registered twice. -/
theorem start_length (h : Made fromCrontab ps js) :
    (Keyed.ofList Job.id js).rows.length = ps.length ↔ (ps.map Prod.fst).Nodup := by
  rw [← h.length, Keyed.ofList_length, ids_nodup h]

theorem start_rows (h : Made fromCrontab ps js) (hn : (ps.map Prod.fst).Nodup) : (Keyed.ofList Job.id js).rows = js :=
  Keyed.ofList_rows ((ids_nodup h).mpr hn)

end SagaAgents.Triggers.Scheduler
