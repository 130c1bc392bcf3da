/-
  SagaAgents.Triggers.Executor — one `RunExecutor` (`triggers/executor.py`).

  Every `submit` is a task, and its number is its place in `subs`. It takes the global
  permit, then its agent's permit, and holds both to its end. With a Redis client it then
  waits for the reply to `SET .. NX EX` (`locking`), and at the end of its run for the
  reply to the script that gives the lock back (`releasing`). What the environment does
  is an event: the replies, the end of `runner.run`, the cancellation of a task that
  waits, and when the event loop runs a task whose permit was handed over (`resume`).
  Between two awaits a task is `active`, and no other task runs.

  A submit remembers what it has had: its permits (`granted`), the reply to its SET, and
  whether it has entered `runner.run`. `inflight` and `agentRuns` are the metrics.

  Proved, over every run: the two levels of semaphores serve the submits (`inv_run`),
  and a submit only makes the moves of `Moves` (`step_subs`).
-/

import Mathlib.Logic.Function.Basic
import SagaAgents.Config.Models
import SagaAgents.Lib.Machine
import SagaAgents.Lib.Semaphore

namespace SagaAgents.Triggers.Executor

open Lib Lib.Semaphore
open Config (AgentDefinition Definitions)

structure RunRequest where
  agentId : String
  reason : String
  deriving DecidableEq, Repr

structure RunExecutor where
  definitions : Definitions
  globalLimit : Nat
  redis : Bool
  nonneg : ∀ d ∈ definitions.rows, 0 ≤ d.limits.maxConcurrentRuns

/-- `asyncio.Semaphore` raises `ValueError` for a negative value. -/
def RunExecutor.build (definitions : Definitions) (globalLimit : Int) (redis : Bool) : Except String RunExecutor :=
  if h : 0 ≤ globalLimit ∧ ∀ d ∈ definitions.rows, 0 ≤ d.limits.maxConcurrentRuns then
    .ok ⟨definitions, globalLimit.toNat, redis, h.2⟩
  else .error "Semaphore initial value must be >= 0"

def RunExecutor.permits (x : RunExecutor) (agentId : String) : Nat :=
  (x.definitions.get agentId).elim 0 (·.limits.maxConcurrentRuns.toNat)

/-- The definition a request is for, if it is known and enabled. -/
def RunExecutor.runnable (x : RunExecutor) (req : RunRequest) : Option AgentDefinition :=
  (x.definitions.get req.agentId).filter (·.enabled)

/-! ## A submit -/

/-- What `SET .. NX EX` comes back with. -/
inductive Reply where
  | truthy
  | falsy
  | raised
  deriving DecidableEq, Repr

/-- How `runner.run` ends: with a report (OK or not), an exception, or cancelled. -/
inductive RunEnd where
  | report (ok : Bool)
  | raised
  | cancelled
  deriving DecidableEq, Repr

/-- How `submit` ends. `error`: an exception leaves it. -/
inductive Ending where
  | skipped
  | lockHeld
  | completed (ok : Bool)
  | runFailed
  | error
  | cancelled
  deriving DecidableEq, Repr

/-- The permits a task has while it runs. -/
inductive Permits where
  | neither
  | globalOnly
  | both
  deriving DecidableEq, Repr

inductive Pc where
  | active (p : Permits)
  | waitGlobal
  | waitAgent
  | locking
  | running
  | releasing (e : Ending)
  | ended (e : Ending)
  deriving DecidableEq, Repr

structure Sub where
  req : RunRequest
  pc : Pc
  granted : Bool
  setReply : Option Reply
  entered : Bool
  deriving DecidableEq, Repr

def fresh (req : RunRequest) : Sub := ⟨req, .active .neither, false, none, false⟩

def Sub.to (u : Sub) (pc : Pc) : Sub := { u with pc := pc }

structure RunLabel where
  agentId : String
  trigger : String
  result : String
  deriving DecidableEq, Repr

structure St where
  globalSem : Semaphore Nat
  agentSems : String → Semaphore Nat
  subs : List Sub
  inflight : Int
  agentRuns : List RunLabel

def init (x : RunExecutor) : St :=
  ⟨Semaphore.init x.globalLimit, fun id => Semaphore.init (x.permits id), [], 0, []⟩

/-! ## From one await to the next -/

def St.put (s : St) (i : Nat) (u : Sub) : St := { s with subs := s.subs.set i u }

def startRun (i : Nat) (u : Sub) (s : St) : St :=
  { s.put i { u with pc := .running, entered := true } with inflight := s.inflight + 1 }

/-- The body of the `async with`. -/
def enterBody (x : RunExecutor) (i : Nat) (u : Sub) (s : St) : St :=
  if x.redis then s.put i { u with pc := .locking, granted := true } else startRun i { u with granted := true } s

def acquireAgent (x : RunExecutor) (i : Nat) (u : Sub) (s : St) : St :=
  let a := (s.agentSems u.req.agentId).acquire i
  let s := { s with agentSems := Function.update s.agentSems u.req.agentId a.2 }
  if a.1 then enterBody x i u s else s.put i (u.to .waitAgent)

def acquireGlobal (x : RunExecutor) (i : Nat) (u : Sub) (s : St) : St :=
  let a := s.globalSem.acquire i
  let s := { s with globalSem := a.2 }
  if a.1 then acquireAgent x i u s else s.put i (u.to .waitGlobal)

def submit (x : RunExecutor) (req : RunRequest) (s : St) : St :=
  let i := s.subs.length
  let s := { s with subs := s.subs ++ [fresh req] }
  match x.runnable req with
  | none => s.put i ((fresh req).to (.ended .skipped))
  | some _ => acquireGlobal x i (fresh req) s

def releaseGlobal (i : Nat) (u : Sub) (e : Ending) (s : St) : St :=
  { s.put i (u.to (.ended e)) with globalSem := s.globalSem.release }

/-- Leave the `async with`. -/
def releaseBoth (i : Nat) (u : Sub) (e : Ending) (s : St) : St :=
  releaseGlobal i u e
    { s with agentSems := Function.update s.agentSems u.req.agentId (s.agentSems u.req.agentId).release }

/-- The labels `submit` counts a run under, once it is over. -/
def Ending.label (u : Sub) : Ending → List RunLabel
  | .completed ok => [⟨u.req.agentId, u.req.reason, if ok then "ok" else "error"⟩]
  | _ => []

/-- After the `finally` of a run: a report is counted, and the permits are given back. -/
def leave (i : Nat) (u : Sub) (e : Ending) (s : St) : St :=
  releaseBoth i u e { s with agentRuns := s.agentRuns ++ e.label u }

def RunEnd.ending : RunEnd → Ending
  | .report ok => .completed ok
  | .raised => .runFailed
  | .cancelled => .cancelled

/-- A run that raised is counted in the `except` branch, before the `finally`. -/
def RunEnd.label (u : Sub) : RunEnd → List RunLabel
  | .raised => [⟨u.req.agentId, u.req.reason, "error"⟩]
  | _ => []

/-- `runner.run` is over: the `except` branch and the `finally`, to the `EVAL` if there
    is a Redis client. -/
def finishRun (x : RunExecutor) (i : Nat) (u : Sub) (r : RunEnd) (s : St) : St :=
  let s := { s with inflight := s.inflight - 1, agentRuns := s.agentRuns ++ r.label u }
  if x.redis then s.put i (u.to (.releasing r.ending)) else leave i u r.ending s

def afterSet (i : Nat) (u : Sub) (r : Reply) (s : St) : St :=
  let u := { u with setReply := some r }
  match r with
  | .truthy => startRun i u s
  | .falsy => releaseBoth i u .lockHeld s
  | .raised => releaseBoth i u .error s

/-! ## All submits -/

inductive Ev where
  | submit (req : RunRequest)
  | resumeGlobal (i : Nat)
  | resumeAgent (i : Nat)
  | setReply (i : Nat) (r : Reply)
  | runEnd (i : Nat) (r : RunEnd)
  | evalReply (i : Nat) (raised : Bool)
  | cancel (i : Nat)
  deriving DecidableEq, Repr

/-- An exception of the `EVAL` is suppressed; a cancellation is not. A task that is
    cancelled inside `runner.run` is a run that ends `cancelled`. -/
def move (x : RunExecutor) (s : St) (i : Nat) (u : Sub) : Ev → Option St
  | .submit _ => none
  | .resumeGlobal _ =>
    if u.pc = .waitGlobal ∧ s.globalSem.isWoken i = true then
      some (acquireAgent x i u { s with globalSem := s.globalSem.resume i })
    else none
  | .resumeAgent _ =>
    if u.pc = .waitAgent ∧ (s.agentSems u.req.agentId).isWoken i = true then
      some (enterBody x i u
        { s with agentSems := Function.update s.agentSems u.req.agentId ((s.agentSems u.req.agentId).resume i) })
    else none
  | .setReply _ r => if u.pc = .locking then some (afterSet i u r s) else none
  | .runEnd _ r => if u.pc = .running then some (finishRun x i u r s) else none
  | .evalReply _ _ =>
    match u.pc with
    | .releasing e => some (leave i u e s)
    | _ => none
  | .cancel _ =>
    match u.pc with
    | .waitGlobal => some { s.put i (u.to (.ended .cancelled)) with globalSem := s.globalSem.cancel i }
    | .waitAgent =>
      some (releaseGlobal i u .cancelled
        { s with agentSems := Function.update s.agentSems u.req.agentId ((s.agentSems u.req.agentId).cancel i) })
    | .locking => some (releaseBoth i u .cancelled s)
    | .releasing _ => some (releaseBoth i u .cancelled s)
    | _ => none

/-- The submit an event is about. -/
def Ev.index : Ev → Option Nat
  | .submit _ => none
  | .resumeGlobal i | .resumeAgent i | .setReply i _ | .runEnd i _ | .evalReply i _ | .cancel i => some i

def step (x : RunExecutor) (s : St) : Ev → Option St
  | .submit req => some (submit x req s)
  | e => e.index.bind fun i => s.subs[i]?.bind fun u => move x s i u e

/-! ## The semaphores serve the submits -/

def Pc.globalStand : Pc → Stand
  | .waitGlobal => .queued
  | .active .neither | .ended _ => .out
  | _ => .holds

def Pc.agentStand : Pc → Stand
  | .waitAgent => .queued
  | .active .both | .locking | .running | .releasing _ => .holds
  | _ => .out

def globalStand (u : Sub) : Stand := u.pc.globalStand

def agentStand (agentId : String) (u : Sub) : Stand := if u.req.agentId = agentId then u.pc.agentStand else .out

def isRunning (u : Sub) : Bool :=
  match u.pc with
  | .running => true
  | _ => false

structure Inv (x : RunExecutor) (s : St) : Prop where
  global : Serves x.globalLimit (s.subs.map globalStand) s.globalSem
  agent : ∀ id, Serves (x.permits id) (s.subs.map (agentStand id)) (s.agentSems id)
  inflight : s.inflight = s.subs.countP isRunning

@[simp] theorem put_subs (s : St) (i : Nat) (u : Sub) : (s.put i u).subs = s.subs.set i u := rfl
@[simp] theorem put_globalSem (s : St) (i : Nat) (u : Sub) : (s.put i u).globalSem = s.globalSem := rfl
@[simp] theorem put_agentSems (s : St) (i : Nat) (u : Sub) : (s.put i u).agentSems = s.agentSems := rfl
@[simp] theorem put_inflight (s : St) (i : Nat) (u : Sub) : (s.put i u).inflight = s.inflight := rfl
@[simp] theorem to_req (u : Sub) (pc : Pc) : (u.to pc).req = u.req := rfl
@[simp] theorem to_pc (u : Sub) (pc : Pc) : (u.to pc).pc = pc := rfl

theorem put_self {s : St} {i : Nat} {u : Sub} (h : s.subs[i]? = some u) : s.put i u = s := by
  obtain ⟨hi, e⟩ := List.getElem?_eq_some_iff.mp h
  subst e
  simp [St.put]

theorem map_set_set (f : Sub → Stand) (l : List Sub) (i : Nat) (v w : Sub) :
    ((l.set i v).map f).set i (f w) = (l.set i w).map f := by
  rw [← List.map_set, List.set_set]

theorem map_set_same {f : Sub → Stand} (l : List Sub) (i : Nat) {v w : Sub} (h : f w = f v) :
    (l.set i w).map f = (l.set i v).map f := by
  rw [List.map_set, List.map_set, h]

theorem map_set_get (f : Sub → Stand) {l : List Sub} {i : Nat} (hi : i < l.length) (v : Sub) :
    ((l.set i v).map f)[i]? = some (f v) := by
  simp [hi]

theorem countP_set_running {l : List Sub} {i : Nat} (hi : i < l.length) (v w : Sub) :
    (l.set i w).countP isRunning + (isRunning v).toNat = (l.set i v).countP isRunning + (isRunning w).toNat := by
  induction l generalizing i with
  | nil => simp at hi
  | cons u l ih =>
    cases i with
    | zero => cases hv : isRunning v <;> cases hw : isRunning w <;> simp [hv, hw]
    | succ i =>
      have := ih (by simpa using hi)
      simp only [List.set_cons_succ, List.countP_cons]
      omega

theorem agentStand_same {v w : Sub} (hr : w.req = v.req) (hp : w.pc.agentStand = v.pc.agentStand) (id : String) :
    agentStand id w = agentStand id v := by
  unfold agentStand
  rw [hr, hp]

theorem agentStand_own {u : Sub} {id : String} (h : u.req.agentId = id) : agentStand id u = u.pc.agentStand := if_pos h

theorem agentStand_fresh (id : String) (req : RunRequest) (pc : Pc) (h : pc.agentStand = .out) :
    agentStand id ((fresh req).to pc) = .out := by
  unfold agentStand
  split
  · exact h
  · rfl

variable {x : RunExecutor} {s : St} {i : Nat} {u v w : Sub}

/-- Submit `i` goes on with the same permits. -/
theorem Inv.stay (h : Inv x (s.put i v)) (hi : i < s.subs.length) (hg : globalStand w = globalStand v)
    (ha : ∀ id, agentStand id w = agentStand id v) (n : Int)
    (hn : n = s.inflight - (isRunning v).toNat + (isRunning w).toNat) : Inv x { s.put i w with inflight := n } := by
  refine ⟨?_, ?_, ?_⟩
  · have := h.global
    rw [put_subs, ← map_set_same s.subs i hg] at this
    exact this
  · intro id
    have := h.agent id
    rw [put_subs, ← map_set_same s.subs i (ha id)] at this
    exact this
  · have := h.inflight
    have hc := countP_set_running hi v w
    simp only [put_subs, put_inflight] at this ⊢
    omega

/-- Submit `i` moves at the global semaphore. -/
theorem Inv.atGlobal (h : Inv x (s.put i v)) (hi : i < s.subs.length) (ha : ∀ id, agentStand id w = agentStand id v)
    (hn : isRunning w = isRunning v) {sem : Semaphore Nat}
    (hs : Serves x.globalLimit (((s.subs.set i v).map globalStand).set i (globalStand w)) sem) :
    Inv x { s.put i w with globalSem := sem } := by
  refine ⟨?_, ?_, ?_⟩
  · rw [map_set_set] at hs
    exact hs
  · intro id
    have := h.agent id
    rw [put_subs, ← map_set_same s.subs i (ha id)] at this
    exact this
  · have := h.inflight
    have hc := countP_set_running hi v w
    simp only [put_subs, put_inflight, hn] at this hc ⊢
    omega

/-- Submit `i` moves at its agent's semaphore. -/
theorem Inv.atAgent (h : Inv x (s.put i v)) (hi : i < s.subs.length) (hg : globalStand w = globalStand v)
    (hn : isRunning w = isRunning v) (hr : w.req.agentId = v.req.agentId) {sem : Semaphore Nat}
    (hs : Serves (x.permits v.req.agentId)
      (((s.subs.set i v).map (agentStand v.req.agentId)).set i (agentStand v.req.agentId w)) sem) :
    Inv x ({ s with agentSems := Function.update s.agentSems v.req.agentId sem }.put i w) := by
  refine ⟨?_, ?_, ?_⟩
  · have := h.global
    rw [put_subs, ← map_set_same s.subs i hg] at this
    exact this
  · intro id
    by_cases e : id = v.req.agentId
    · subst e
      rw [map_set_set] at hs
      simpa using hs
    · have := h.agent id
      have hout : agentStand id w = agentStand id v := by
        unfold agentStand
        rw [hr, if_neg (Ne.symm e), if_neg (Ne.symm e)]
      rw [put_subs, ← map_set_same s.subs i hout] at this
      simpa [Function.update_of_ne e] using this
  · have := h.inflight
    have hc := countP_set_running hi v w
    simp only [put_subs, put_inflight, hn] at this hc ⊢
    omega

/-! ## Each segment keeps the invariant -/

theorem inv_startRun (h : Inv x (s.put i (u.to (.active .both)))) (hi : i < s.subs.length) : Inv x (startRun i u s) := by
  refine h.stay (w := { u with pc := .running, entered := true }) hi rfl (agentStand_same rfl rfl) (s.inflight + 1) ?_
  show s.inflight + 1 = s.inflight - (0 : Nat) + (1 : Nat)
  omega

theorem inv_enterBody (h : Inv x (s.put i (u.to (.active .both)))) (hi : i < s.subs.length) : Inv x (enterBody x i u s) := by
  have hn : s.inflight = s.inflight - (0 : Nat) + (0 : Nat) := by omega
  unfold enterBody
  split
  · exact h.stay (w := { u with pc := .locking, granted := true }) hi rfl (agentStand_same rfl rfl) s.inflight hn
  · refine inv_startRun ?_ hi
    exact h.stay (w := { u with pc := .active .both, granted := true }) hi rfl (agentStand_same rfl rfl) s.inflight hn

theorem inv_acquireAgent (h : Inv x (s.put i (u.to (.active .globalOnly)))) (hi : i < s.subs.length) :
    Inv x (acquireAgent x i u s) := by
  have hs := h.agent u.req.agentId
  have hout : ((s.subs.set i (u.to (.active .globalOnly))).map (agentStand u.req.agentId))[i]? = some .out := by
    rw [map_set_get _ hi, agentStand_own (by rfl)]; rfl
  unfold acquireAgent
  cases ha : (s.agentSems u.req.agentId).acquire i with
  | mk now sem =>
    cases now with
    | true =>
      refine inv_enterBody ?_ hi
      refine h.atAgent (w := u.to (.active .both)) hi rfl rfl rfl ?_
      rw [agentStand_own (by rfl)]
      exact hs.acquire_now hout ha
    | false =>
      refine h.atAgent (w := u.to .waitAgent) hi rfl rfl rfl ?_
      rw [agentStand_own (by rfl)]
      exact hs.acquire_wait hout ha

theorem inv_acquireGlobal (h : Inv x (s.put i (u.to (.active .neither)))) (hi : i < s.subs.length) :
    Inv x (acquireGlobal x i u s) := by
  have hs := h.global
  have hout : ((s.subs.set i (u.to (.active .neither))).map globalStand)[i]? = some .out := by
    rw [map_set_get _ hi]; rfl
  unfold acquireGlobal
  cases ha : s.globalSem.acquire i with
  | mk now sem =>
    cases now with
    | true =>
      refine inv_acquireAgent ?_ hi
      exact h.atGlobal (w := u.to (.active .globalOnly)) hi (agentStand_same rfl rfl) rfl (hs.acquire_now hout ha)
    | false => exact h.atGlobal (w := u.to .waitGlobal) hi (agentStand_same rfl rfl) rfl (hs.acquire_wait hout ha)

theorem inv_releaseGlobal (e : Ending) (h : Inv x (s.put i (u.to (.active .globalOnly)))) (hi : i < s.subs.length) :
    Inv x (releaseGlobal i u e s) := by
  have hholds : ((s.subs.set i (u.to (.active .globalOnly))).map globalStand)[i]? = some .holds := by
    rw [map_set_get _ hi]; rfl
  exact h.atGlobal (w := u.to (.ended e)) hi (agentStand_same rfl rfl) rfl (h.global.release hholds)

theorem inv_releaseBoth (e : Ending) (h : Inv x (s.put i (u.to (.active .both)))) (hi : i < s.subs.length) :
    Inv x (releaseBoth i u e s) := by
  have hholds : ((s.subs.set i (u.to (.active .both))).map (agentStand u.req.agentId))[i]? = some .holds := by
    rw [map_set_get _ hi, agentStand_own (by rfl)]; rfl
  refine inv_releaseGlobal e ?_ hi
  refine h.atAgent (w := u.to (.active .globalOnly)) hi rfl rfl rfl ?_
  rw [agentStand_own (by rfl)]
  exact (h.agent u.req.agentId).release hholds

theorem inv_leave (e : Ending) (h : Inv x (s.put i (u.to (.active .both)))) (hi : i < s.subs.length) :
    Inv x (leave i u e s) :=
  inv_releaseBoth e ⟨h.global, h.agent, h.inflight⟩ hi

theorem inv_submit (h : Inv x s) (req : RunRequest) : Inv x (submit x req s) := by
  have hi : s.subs.length < (s.subs ++ [fresh req]).length := by simp
  have hput : (s.subs ++ [fresh req]).set s.subs.length (fresh req) = s.subs ++ [fresh req] := by simp
  have hjoin : Inv x ({ s with subs := s.subs ++ [fresh req] }.put s.subs.length (fresh req)) := by
    refine ⟨?_, ?_, ?_⟩
    · rw [put_subs, hput, List.map_append]
      exact h.global.join
    · intro id
      rw [put_subs, hput, List.map_append]
      have hout : [fresh req].map (agentStand id) = [.out] := by
        rw [List.map_singleton]
        exact congrArg (fun c => [c]) (agentStand_fresh id req (.active .neither) rfl)
      rw [hout]
      exact (h.agent id).join
    · rw [put_subs, hput, List.countP_append]
      have := h.inflight
      simpa [isRunning, fresh] using this
  unfold submit
  split
  · refine hjoin.stay (w := (fresh req).to (.ended .skipped)) hi rfl (agentStand_same rfl rfl) s.inflight ?_
    show s.inflight = s.inflight - (0 : Nat) + (0 : Nat)
    omega
  · exact inv_acquireGlobal hjoin hi

theorem inv_init (x : RunExecutor) : Inv x (init x) :=
  ⟨Serves.init _, fun _ => Serves.init _, rfl⟩

/-- A submit goes on from an await with both permits. -/
theorem inv_ready (h : Inv x (s.put i u)) (hi : i < s.subs.length) (hp : u.pc = .locking ∨ ∃ e, u.pc = .releasing e) :
    Inv x (s.put i (u.to (.active .both))) := by
  refine h.stay (w := u.to (.active .both)) hi ?_ (agentStand_same rfl ?_) s.inflight ?_
  · rcases hp with hp | ⟨e, hp⟩ <;> (simp only [globalStand, hp]; rfl)
  · rcases hp with hp | ⟨e, hp⟩ <;> (rw [hp]; rfl)
  · rcases hp with hp | ⟨e, hp⟩ <;> simp [isRunning, hp]

theorem inv_resumeGlobal (h : Inv x (s.put i u)) (hi : i < s.subs.length) (hp : u.pc = .waitGlobal)
    (hw : s.globalSem.isWoken i = true) : Inv x (acquireAgent x i u { s with globalSem := s.globalSem.resume i }) := by
  refine inv_acquireAgent ?_ hi
  refine h.atGlobal (w := u.to (.active .globalOnly)) hi (agentStand_same rfl ?_) ?_ (h.global.resume hw)
  · rw [hp]; rfl
  · simp [isRunning, hp]

theorem inv_resumeAgent (h : Inv x (s.put i u)) (hi : i < s.subs.length) (hp : u.pc = .waitAgent)
    (hw : (s.agentSems u.req.agentId).isWoken i = true) :
    Inv x (enterBody x i u
      { s with agentSems := Function.update s.agentSems u.req.agentId ((s.agentSems u.req.agentId).resume i) }) := by
  refine inv_enterBody ?_ hi
  refine h.atAgent (w := u.to (.active .both)) hi ?_ ?_ rfl ?_
  · simp only [globalStand, hp]; rfl
  · simp [isRunning, hp]
  · rw [agentStand_own (by rfl)]
    exact (h.agent u.req.agentId).resume hw

theorem inv_afterSet (r : Reply) (h : Inv x (s.put i (u.to (.active .both)))) (hi : i < s.subs.length) :
    Inv x (afterSet i u r s) := by
  have h' : Inv x (s.put i ({ u with setReply := some r }.to (.active .both))) := by
    refine h.stay (w := { u with pc := .active .both, setReply := some r }) hi rfl (agentStand_same rfl rfl) s.inflight ?_
    show s.inflight = s.inflight - (0 : Nat) + (0 : Nat)
    omega
  cases r with
  | truthy => exact inv_startRun h' hi
  | falsy => exact inv_releaseBoth _ h' hi
  | raised => exact inv_releaseBoth _ h' hi

theorem inv_finishRun (r : RunEnd) (h : Inv x (s.put i u)) (hi : i < s.subs.length) (hp : u.pc = .running) :
    Inv x (finishRun x i u r s) := by
  have hdec : Inv x { s.put i (u.to (.active .both)) with inflight := s.inflight - 1 } := by
    refine h.stay (w := u.to (.active .both)) hi ?_ (agentStand_same rfl ?_) (s.inflight - 1) ?_
    · simp only [globalStand, hp]; rfl
    · rw [hp]; rfl
    · simp [isRunning, hp]
  have hcounted : Inv x ({ s with inflight := s.inflight - 1, agentRuns := s.agentRuns ++ r.label u }.put i
      (u.to (.active .both))) := ⟨hdec.global, hdec.agent, hdec.inflight⟩
  unfold finishRun
  split
  · refine hcounted.stay (w := u.to (.releasing r.ending)) hi rfl (agentStand_same rfl rfl) (s.inflight - 1) ?_
    show s.inflight - 1 = s.inflight - 1 - (0 : Nat) + (0 : Nat)
    omega
  · exact inv_leave r.ending hcounted hi

theorem inv_cancelGlobal (h : Inv x (s.put i u)) (hi : i < s.subs.length) (hp : u.pc = .waitGlobal) :
    Inv x { s.put i (u.to (.ended .cancelled)) with globalSem := s.globalSem.cancel i } := by
  have hq : ((s.subs.set i u).map globalStand)[i]? = some .queued := by
    rw [map_set_get _ hi, globalStand, hp]; rfl
  refine h.atGlobal (w := u.to (.ended .cancelled)) hi (agentStand_same rfl ?_) ?_ (h.global.cancel hq)
  · rw [hp]; rfl
  · simp [isRunning, hp]

theorem inv_cancelAgent (h : Inv x (s.put i u)) (hi : i < s.subs.length) (hp : u.pc = .waitAgent) :
    Inv x (releaseGlobal i u .cancelled
      { s with agentSems := Function.update s.agentSems u.req.agentId ((s.agentSems u.req.agentId).cancel i) }) := by
  have hq : ((s.subs.set i u).map (agentStand u.req.agentId))[i]? = some .queued := by
    rw [map_set_get _ hi, agentStand_own (by rfl), hp]; rfl
  refine inv_releaseGlobal _ ?_ hi
  refine h.atAgent (w := u.to (.active .globalOnly)) hi ?_ ?_ rfl ?_
  · simp only [globalStand, hp]; rfl
  · simp [isRunning, hp]
  · rw [agentStand_own (by rfl)]
    exact (h.agent u.req.agentId).cancel hq

/-! ## Every step keeps the invariant -/

/-- What an event does to submit `i`, and where that finds it. -/
inductive Acts (x : RunExecutor) (s : St) (i : Nat) (u : Sub) : Ev → St → Prop
  | resumeGlobal (j : Nat) (hp : u.pc = .waitGlobal) (hw : s.globalSem.isWoken i = true) :
      Acts x s i u (.resumeGlobal j) (acquireAgent x i u { s with globalSem := s.globalSem.resume i })
  | resumeAgent (j : Nat) (hp : u.pc = .waitAgent) (hw : (s.agentSems u.req.agentId).isWoken i = true) :
      Acts x s i u (.resumeAgent j) (enterBody x i u
        { s with agentSems := Function.update s.agentSems u.req.agentId ((s.agentSems u.req.agentId).resume i) })
  | setReply (j : Nat) (r : Reply) (hp : u.pc = .locking) : Acts x s i u (.setReply j r) (afterSet i u r s)
  | runEnd (j : Nat) (r : RunEnd) (hp : u.pc = .running) : Acts x s i u (.runEnd j r) (finishRun x i u r s)
  | evalReply (j : Nat) (b : Bool) (e : Ending) (hp : u.pc = .releasing e) : Acts x s i u (.evalReply j b) (leave i u e s)
  | cancelGlobal (j : Nat) (hp : u.pc = .waitGlobal) :
      Acts x s i u (.cancel j) { s.put i (u.to (.ended .cancelled)) with globalSem := s.globalSem.cancel i }
  | cancelAgent (j : Nat) (hp : u.pc = .waitAgent) : Acts x s i u (.cancel j) (releaseGlobal i u .cancelled
      { s with agentSems := Function.update s.agentSems u.req.agentId ((s.agentSems u.req.agentId).cancel i) })
  | cancelCall (j : Nat) (hp : u.pc = .locking ∨ ∃ e, u.pc = .releasing e) :
      Acts x s i u (.cancel j) (releaseBoth i u .cancelled s)

theorem move_cases {e : Ev} {t : St} (hm : move x s i u e = some t) : Acts x s i u e t := by
  cases e with
  | submit req => cases hm
  | resumeGlobal j =>
    simp only [move] at hm
    split at hm
    · rename_i hc; cases hm; exact .resumeGlobal j hc.1 hc.2
    · cases hm
  | resumeAgent j =>
    simp only [move] at hm
    split at hm
    · rename_i hc; cases hm; exact .resumeAgent j hc.1 hc.2
    · cases hm
  | setReply j r =>
    simp only [move] at hm
    split at hm
    · rename_i hp; cases hm; exact .setReply j r hp
    · cases hm
  | runEnd j r =>
    simp only [move] at hm
    split at hm
    · rename_i hp; cases hm; exact .runEnd j r hp
    · cases hm
  | evalReply j b =>
    simp only [move] at hm
    split at hm
    · rename_i e hp; cases hm; exact .evalReply j b e hp
    · cases hm
  | cancel j =>
    simp only [move] at hm
    split at hm
    · rename_i hp; cases hm; exact .cancelGlobal j hp
    · rename_i hp; cases hm; exact .cancelAgent j hp
    · rename_i hp; cases hm; exact .cancelCall j (Or.inl hp)
    · rename_i e hp; cases hm; exact .cancelCall j (Or.inr ⟨e, hp⟩)
    · cases hm

theorem inv_move {e : Ev} {t : St} (h : Inv x s) (hu : s.subs[i]? = some u) (hm : move x s i u e = some t) : Inv x t := by
  have hi : i < s.subs.length := (List.getElem?_eq_some_iff.mp hu).1
  have hself : Inv x (s.put i u) := by rw [put_self hu]; exact h
  cases move_cases hm with
  | resumeGlobal j hp hw => exact inv_resumeGlobal hself hi hp hw
  | resumeAgent j hp hw => exact inv_resumeAgent hself hi hp hw
  | setReply j r hp => exact inv_afterSet r (inv_ready hself hi (Or.inl hp)) hi
  | runEnd j r hp => exact inv_finishRun r hself hi hp
  | evalReply j b e hp => exact inv_leave e (inv_ready hself hi (Or.inr ⟨e, hp⟩)) hi
  | cancelGlobal j hp => exact inv_cancelGlobal hself hi hp
  | cancelAgent j hp => exact inv_cancelAgent hself hi hp
  | cancelCall j hp => exact inv_releaseBoth _ (inv_ready hself hi hp) hi

/-- A step is a new submit, or a move of one. -/
theorem step_move {e : Ev} {t : St} (h : step x s e = some t) :
    (∃ req, e = .submit req ∧ t = submit x req s) ∨
      ∃ i u, e.index = some i ∧ s.subs[i]? = some u ∧ move x s i u e = some t := by
  cases e with
  | submit req => left; cases h; exact ⟨req, rfl, rfl⟩
  | _ =>
    right
    obtain ⟨u, hu, hm⟩ := Option.bind_eq_some_iff.mp h
    exact ⟨_, u, rfl, hu, hm⟩

theorem inv_step (s : St) (e : Ev) (t : St) (hs : Inv x s) (h : step x s e = some t) : Inv x t := by
  rcases step_move h with ⟨req, -, rfl⟩ | ⟨i, u, -, hu, hm⟩
  · exact inv_submit hs req
  · exact inv_move hs hu hm

/-- The semaphores serve the submits in every state of every run. -/
theorem inv_run {ok : St → Ev → Prop} {t : St} (h : Run (step x) ok s t) (hs : Inv x s) : Inv x t :=
  h.invariant (fun s e t hs _ h => inv_step s e t hs h) hs

/-! ## The moves of one submit -/

/-- A submit at an await, or new, that is about to take the permits it has not got. -/
def Pc.acquiring : Pc → Prop
  | .active .neither | .waitGlobal | .waitAgent => True
  | _ => False

/-- What one step makes of a submit. -/
inductive Moves (x : RunExecutor) (u : Sub) : Ev → Sub → Prop
  | skip {req : RunRequest} (hp : u.pc = .active .neither) (hd : x.runnable u.req = none) :
      Moves x u (.submit req) (u.to (.ended .skipped))
  | queueGlobal {req : RunRequest} (hp : u.pc = .active .neither) (hd : (x.runnable u.req).isSome) :
      Moves x u (.submit req) (u.to .waitGlobal)
  | queueAgent {e : Ev} (hp : u.pc.acquiring) (hd : u.pc = .active .neither → (x.runnable u.req).isSome) :
      Moves x u e (u.to .waitAgent)
  | lock {e : Ev} (hp : u.pc.acquiring) (hd : u.pc = .active .neither → (x.runnable u.req).isSome) (hr : x.redis = true) :
      Moves x u e { u with pc := .locking, granted := true }
  | start {e : Ev} (hp : u.pc.acquiring) (hd : u.pc = .active .neither → (x.runnable u.req).isSome) (hr : x.redis = false) :
      Moves x u e { u with pc := .running, granted := true, entered := true }
  | locked {i : Nat} (hp : u.pc = .locking) :
      Moves x u (.setReply i .truthy) { u with pc := .running, setReply := some .truthy, entered := true }
  | lockHeld {i : Nat} (hp : u.pc = .locking) :
      Moves x u (.setReply i .falsy) { u with pc := .ended .lockHeld, setReply := some .falsy }
  | setRaises {i : Nat} (hp : u.pc = .locking) :
      Moves x u (.setReply i .raised) { u with pc := .ended .error, setReply := some .raised }
  | unlock {i : Nat} {r : RunEnd} (hp : u.pc = .running) (hr : x.redis = true) :
      Moves x u (.runEnd i r) (u.to (.releasing r.ending))
  | finish {i : Nat} {r : RunEnd} (hp : u.pc = .running) (hr : x.redis = false) :
      Moves x u (.runEnd i r) (u.to (.ended r.ending))
  | unlocked {i : Nat} {b : Bool} (e : Ending) (hp : u.pc = .releasing e) : Moves x u (.evalReply i b) (u.to (.ended e))
  | cancelled {i : Nat} (hp : u.pc = .waitGlobal ∨ u.pc = .waitAgent ∨ u.pc = .locking ∨ ∃ e, u.pc = .releasing e) :
      Moves x u (.cancel i) (u.to (.ended .cancelled))

theorem enterBody_subs (e : Ev) (hp : u.pc.acquiring) (hd : u.pc = .active .neither → (x.runnable u.req).isSome) :
    ∃ v, Moves x u e v ∧ (enterBody x i u s).subs = s.subs.set i v := by
  unfold enterBody
  split
  · rename_i hr
    exact ⟨_, .lock hp hd hr, rfl⟩
  · rename_i hr
    exact ⟨_, .start hp hd (by simpa using hr), rfl⟩

theorem acquireAgent_subs (e : Ev) (hp : u.pc.acquiring) (hd : u.pc = .active .neither → (x.runnable u.req).isSome) :
    ∃ v, Moves x u e v ∧ (acquireAgent x i u s).subs = s.subs.set i v := by
  simp only [acquireAgent]
  split
  · exact enterBody_subs e hp hd
  · exact ⟨_, .queueAgent hp hd, rfl⟩

theorem submit_subs (req : RunRequest) (s : St) :
    ∃ v, Moves x (fresh req) (.submit req) v ∧ (submit x req s).subs = s.subs ++ [v] := by
  have hset : ∀ v, (s.subs ++ [fresh req]).set s.subs.length v = s.subs ++ [v] := fun v => by simp
  unfold submit
  split
  · rename_i hd
    exact ⟨_, .skip rfl hd, hset _⟩
  · rename_i d hd
    have hsome : (x.runnable (fresh req).req).isSome := Option.isSome_iff_exists.mpr ⟨d, hd⟩
    simp only [acquireGlobal]
    split
    · obtain ⟨v, hm, hv⟩ := acquireAgent_subs (x := x) (u := fresh req) (i := s.subs.length)
        (s := { s with globalSem := (s.globalSem.acquire s.subs.length).2, subs := s.subs ++ [fresh req] })
        (.submit req) (by trivial) (fun _ => hsome)
      exact ⟨v, hm, hv.trans (hset v)⟩
    · exact ⟨_, .queueGlobal rfl hsome, hset _⟩

theorem move_subs {e : Ev} {t : St} (hm : move x s i u e = some t) : ∃ v, Moves x u e v ∧ t.subs = s.subs.set i v := by
  cases move_cases hm with
  | resumeGlobal j hp => exact acquireAgent_subs _ (by simp [Pc.acquiring, hp]) (by simp [hp])
  | resumeAgent j hp => exact enterBody_subs _ (by simp [Pc.acquiring, hp]) (by simp [hp])
  | setReply j r hp =>
    cases r with
    | truthy => exact ⟨_, .locked hp, rfl⟩
    | falsy => exact ⟨_, .lockHeld hp, rfl⟩
    | raised => exact ⟨_, .setRaises hp, rfl⟩
  | runEnd j r hp =>
    unfold finishRun
    split
    · rename_i hr
      exact ⟨_, .unlock hp hr, rfl⟩
    · rename_i hr
      exact ⟨_, .finish hp (by simpa using hr), rfl⟩
  | evalReply j b e hp => exact ⟨_, .unlocked e hp, rfl⟩
  | cancelGlobal j hp => exact ⟨_, .cancelled (Or.inl hp), rfl⟩
  | cancelAgent j hp => exact ⟨_, .cancelled (Or.inr (Or.inl hp)), rfl⟩
  | cancelCall j hp => exact ⟨_, .cancelled (Or.inr (Or.inr hp)), rfl⟩

/-- A step starts a submit or moves one, and leaves the others as they are. -/
theorem step_subs {e : Ev} {t : St} (h : step x s e = some t) :
    (∃ req v, e = .submit req ∧ Moves x (fresh req) e v ∧ t.subs = s.subs ++ [v]) ∨
      ∃ i u v, e.index = some i ∧ s.subs[i]? = some u ∧ Moves x u e v ∧ t.subs = s.subs.set i v := by
  rcases step_move h with ⟨req, he, rfl⟩ | ⟨i, u, he, hu, hm⟩
  · obtain ⟨v, hv, hs⟩ := submit_subs (x := x) req s
    subst he
    exact Or.inl ⟨req, v, rfl, hv, hs⟩
  · obtain ⟨v, hv, hs⟩ := move_subs hm
    exact Or.inr ⟨i, u, v, he, hu, hv, hs⟩

/-- What new submits have and the allowed moves keep holds for every submit of a run. -/
theorem subs_run {P : Sub → Prop} {ok : St → Ev → Prop} {t : St}
    (hnew : ∀ s req v, ok s (.submit req) → Moves x (fresh req) (.submit req) v → P v)
    (hmove : ∀ s e u v, ok s e → P u → Moves x u e v → P v) (h : Run (step x) ok (init x) t) : ∀ u ∈ t.subs, P u := by
  refine h.invariant (I := fun s => ∀ u ∈ s.subs, P u) (fun s e t hs ho h => ?_) (fun u hu => by cases hu)
  rcases step_subs h with ⟨req, v, he, hv, ht⟩ | ⟨i, u, v, -, hu, hv, ht⟩
  · subst he
    intro w hw
    rw [ht] at hw
    rcases List.mem_append.mp hw with hw | hw
    · exact hs w hw
    · rw [List.mem_singleton.mp hw]
      exact hnew s req v ho hv
  · intro w hw
    rw [ht] at hw
    rcases List.mem_or_eq_of_mem_set hw with hw | e
    · exact hs w hw
    · rw [e]
      exact hmove s _ u v ho (hs u (List.mem_of_getElem? hu)) hv

/-- Between two events no task is running. -/
theorem not_active {ok : St → Ev → Prop} {t : St} (h : Run (step x) ok (init x) t) :
    ∀ u ∈ t.subs, ∀ p, u.pc ≠ .active p := by
  have hv : ∀ u e v, Moves x u e v → ∀ p, v.pc ≠ .active p := by
    intro u e v hm p
    cases hm <;> exact fun h => by cases h
  exact subs_run (fun _ _ v _ hm => hv _ _ v hm) (fun _ _ _ v _ _ hm => hv _ _ v hm) h

/-! An executor with one agent and Redis. -/

def oneAgent : RunExecutor where
  definitions := Keyed.ofList AgentDefinition.id [{ id := "event-deduplicator" }]
  globalLimit := 2
  redis := true
  nonneg := by decide

def scheduled : Ev := .submit ⟨"event-deduplicator", "schedule"⟩

end SagaAgents.Triggers.Executor
