/-
  SagaAgents.Triggers.Cluster — processes with one `RunExecutor` each, sharing one Redis.

  A submission is named by its process and its number there; that is its lock token. The
  server executes its SET and its script in single steps (`redisSet`, `redisEval`), at
  any time after they were sent, and the reply is delivered later. The key expires
  `timeout_seconds` after the SET was executed. `runner.run` goes through three phases:
  the guidance fetch, `agent.run`, which `asyncio.timeout` ends `timeout_seconds` after
  it began, and the persistence of proposals.

  The lock's clock starts before the run and the timeout covers its middle phase only.

  Proved, over every run of the cluster: `one_run_per_agent`, if every submission enters
  and leaves its run before its key expires. The code does not see to that:
  `slow_guidance_overlaps`.
-/

import Mathlib.Algebra.Order.Ring.Int
import SagaAgents.Lib.Lease
import SagaAgents.Lib.Tasks
import SagaAgents.Triggers.Executor

namespace SagaAgents.Triggers.Cluster

open Lib
open Executor (RunExecutor RunRequest Sub Reply)

variable {T : Type}

inductive Phase (T : Type) where
  | guidance
  | agent (deadline : T)
  | persist
  deriving DecidableEq, Repr

/-- What the server has done for a submission: its SET (the reply, and when the key
    expires) and its script. And the phase its run is in. -/
structure Task (T : Type) where
  set : Option (Reply × T) := none
  evaled : Bool := false
  phase : Phase T := .guidance

abbrev Token := Nat × Nat

structure St (T : Type) where
  procs : List Executor.St
  tasks : Token → Task T
  redis : Lease.Store String Token T
  now : T

def init (xs : List RunExecutor) (now : T) : St T :=
  ⟨xs.map Executor.init, fun _ => {}, fun _ => none, now⟩

def lockKey (agentId : String) : String := "agent:lock:" ++ agentId

/-- The submission with this token. -/
def St.sub (s : St T) (k : Token) : Option Sub := (s.procs[k.1]?).bind fun st => st.subs[k.2]?

def St.setTask (s : St T) (k : Token) (t : Task T) : St T := { s with tasks := Function.update s.tasks k t }

/-- `limits.timeout_seconds` of the agent, in that process's definitions. -/
def timeoutSeconds (x : RunExecutor) (agentId : String) : Int :=
  (x.definitions.get agentId).elim 0 (·.limits.timeoutSeconds)

/-- `f` holds of every submission. -/
def St.every (s : St T) (f : Token → Sub → Bool) : Bool :=
  s.procs.zipIdx.all fun p => p.1.subs.zipIdx.all fun u => f (p.2, u.2) u.1

inductive Ev (T : Type) where
  | proc (p : Nat) (e : Executor.Ev)
  | redisSet (k : Token)
  | redisEval (k : Token)
  | phase (k : Token)
  | tick (t : T)
  deriving DecidableEq, Repr

/-- A reply other than an exception says what the server has done. -/
def answered (s : St T) (p : Nat) : Executor.Ev → Bool
  | .setReply _ .raised => true
  | .setReply i r => (s.tasks (p, i)).set.any fun a => a.1 == r
  | .evalReply i false => (s.tasks (p, i)).evaled
  | _ => true

/-! ## The submissions of several processes -/

def subAt (procs : List Executor.St) (k : Token) : Option Sub := (procs[k.1]?).bind fun st => st.subs[k.2]?

theorem subAt_of {procs : List Executor.St} {p : Nat} {st : Executor.St} (hp : procs[p]? = some st) (i : Nat) :
    subAt procs (p, i) = st.subs[i]? := by
  simp [subAt, hp]

theorem subAt_set {procs : List Executor.St} {p : Nat} {st st' : Executor.St} (hp : procs[p]? = some st) (k : Token) :
    subAt (procs.set p st') k = if k.1 = p then st'.subs[k.2]? else subAt procs k := by
  unfold subAt
  by_cases e : k.1 = p
  · rw [if_pos e, e, Tasks.get_moved hp]
    rfl
  · rw [if_neg e, List.getElem?_set_ne (Ne.symm e)]

/-- A step of one process starts a submission or moves one, and leaves those of all
    processes else as they are. -/
theorem subAt_step {x : RunExecutor} {procs : List Executor.St} {p : Nat} {st st' : Executor.St} {e : Executor.Ev}
    (hp : procs[p]? = some st) (h : Executor.step x st e = some st') :
    ∃ i v, subAt (procs.set p st') (p, i) = some v ∧ (∀ k, k ≠ (p, i) → subAt (procs.set p st') k = subAt procs k) ∧
      ((∃ req, e = .submit req ∧ subAt procs (p, i) = none ∧ Executor.Moves x (Executor.fresh req) e v) ∨
        ∃ u, e.index = some i ∧ subAt procs (p, i) = some u ∧ Executor.Moves x u e v) := by
  have hother : ∀ (i : Nat), (∀ j, j ≠ i → st'.subs[j]? = st.subs[j]?) →
      ∀ k : Token, k ≠ (p, i) → subAt (procs.set p st') k = subAt procs k := by
    intro i hj k hk
    obtain ⟨q, j⟩ := k
    rw [subAt_set hp]
    by_cases e : q = p
    · subst e
      rw [if_pos rfl, subAt_of hp]
      exact hj j fun e => hk (by rw [e])
    · rw [if_neg e]
  rcases Executor.step_subs h with ⟨req, v, he, hm, ht⟩ | ⟨i, u, v, he, hu, hm, ht⟩
  · refine ⟨st.subs.length, v, ?_, hother _ ?_, Or.inl ⟨req, he, ?_, hm⟩⟩
    · rw [subAt_set hp, if_pos rfl, ht]
      simp
    · intro j hj
      rw [ht, List.getElem?_append]
      split
      · rfl
      · rw [List.getElem?_eq_none (by simp; omega), List.getElem?_eq_none (by omega)]
    · rw [subAt_of hp]
      simp
  · refine ⟨i, v, ?_, hother i ?_, Or.inr ⟨u, he, ?_, hm⟩⟩
    · rw [subAt_set hp, if_pos rfl, ht]
      exact Tasks.get_moved hu
    · intro j hj
      rw [ht, List.getElem?_set_ne (Ne.symm hj)]
    · rw [subAt_of hp]
      exact hu

/-- A submission after such a step is the one it is about, or was there before. -/
theorem subAt_after {procs procs' : List Executor.St} {k₀ : Token} {v : Sub} (hv : subAt procs' k₀ = some v)
    (hrest : ∀ k, k ≠ k₀ → subAt procs' k = subAt procs k) {k : Token} {u : Sub} (hk : subAt procs' k = some u) :
    (k = k₀ ∧ u = v) ∨ (k ≠ k₀ ∧ subAt procs k = some u) := by
  by_cases e : k = k₀
  · subst e
    cases hv.symm.trans hk
    exact Or.inl ⟨rfl, rfl⟩
  · exact Or.inr ⟨e, (hrest k e).symm.trans hk⟩

@[simp] theorem setTask_same (s : St T) (k : Token) (t : Task T) : (s.setTask k t).tasks k = t := by simp [St.setTask]
@[simp] theorem setTask_ne (s : St T) {k k' : Token} (t : Task T) (h : k' ≠ k) : (s.setTask k t).tasks k' = s.tasks k' := by
  simp [St.setTask, h]
@[simp] theorem setTask_now (s : St T) (k : Token) (t : Task T) : (s.setTask k t).now = s.now := rfl

theorem every_spec {s : St T} {f : Token → Sub → Bool} {k : Token} {u : Sub} (h : s.every f = true)
    (hk : s.sub k = some u) : f k u = true := by
  obtain ⟨st, hp, hi⟩ := Option.bind_eq_some_iff.mp hk
  have h1 := List.all_eq_true.mp h (st, k.1) (List.mem_zipIdx_iff_getElem?.mpr hp)
  exact List.all_eq_true.mp h1 (u, k.2) (List.mem_zipIdx_iff_getElem?.mpr hi)

section

variable [CommRing T] [LinearOrder T]

/-- The server's step for `SET key token NX EX ttl`. -/
def execSet (s : St T) (k : Token) (agentId : String) (ttl : Int) : St T :=
  if ttl ≤ 0 then s.setTask k { s.tasks k with set := some (.raised, s.now) }
  else
    let expires := s.now + (ttl : T)
    let r := Lease.setNx s.redis s.now (lockKey agentId) k expires
    { s.setTask k { s.tasks k with set := some (if r.1 then .truthy else .falsy, expires) } with redis := r.2 }

def enterPhase (s : St T) (timeout : Int) : Phase T → Option (Phase T)
  | .guidance => some (.agent (s.now + (timeout : T)))
  | .agent _ => some .persist
  | .persist => none

/-- `agent.run` does not outlast its timeout. -/
def inTimeout (s : St T) (t : T) (k : Token) (u : Sub) : Bool :=
  match u.pc, (s.tasks k).phase with
  | .running, .agent deadline => decide (t ≤ deadline)
  | _, _ => true

def step (xs : List RunExecutor) (s : St T) : Ev T → Option (St T)
  | .proc p e =>
    xs[p]?.bind fun x => s.procs[p]?.bind fun st =>
      if answered s p e then (Executor.step x st e).map fun st => { s with procs := s.procs.set p st } else none
  | .redisSet k =>
    xs[k.1]?.bind fun x => (s.sub k).bind fun u =>
      if u.granted && (s.tasks k).set.isNone then
        some (execSet s k u.req.agentId (timeoutSeconds x u.req.agentId))
      else none
  | .redisEval k =>
    (s.sub k).bind fun u =>
      match u.pc with
      | .releasing _ | .ended _ =>
        if u.entered && !(s.tasks k).evaled then
          some { s.setTask k { s.tasks k with evaled := true } with
                 redis := (Lease.compareAndDelete s.redis s.now (lockKey u.req.agentId) k).2 }
        else none
      | _ => none
  | .phase k =>
    xs[k.1]?.bind fun x => (s.sub k).bind fun u =>
      if u.pc = .running then
        (enterPhase s (timeoutSeconds x u.req.agentId) (s.tasks k).phase).map fun ph =>
          s.setTask k { s.tasks k with phase := ph }
      else none
  | .tick t => if s.now ≤ t ∧ s.every (inTimeout s t) = true then some { s with now := t } else none

/-- The steps, with what enables each of them. -/
inductive Changes (xs : List RunExecutor) (s : St T) : Ev T → St T → Prop
  | proc {p : Nat} {e : Executor.Ev} {x : RunExecutor} {st st' : Executor.St} (hx : xs[p]? = some x) (hp : s.procs[p]? = some st)
      (ha : answered s p e = true) (hst : Executor.step x st e = some st') :
      Changes xs s (.proc p e) { s with procs := s.procs.set p st' }
  | redisSet {k : Token} {x : RunExecutor} {u : Sub} (hx : xs[k.1]? = some x) (hk : s.sub k = some u) (hg : u.granted = true)
      (hn : (s.tasks k).set = none) :
      Changes xs s (.redisSet k) (execSet s k u.req.agentId (timeoutSeconds x u.req.agentId))
  | redisEval {k : Token} {u : Sub} (hk : s.sub k = some u) (hp : (∃ e, u.pc = .releasing e) ∨ ∃ e, u.pc = .ended e) :
      Changes xs s (.redisEval k) { s.setTask k { s.tasks k with evaled := true } with
                                    redis := (Lease.compareAndDelete s.redis s.now (lockKey u.req.agentId) k).2 }
  | phase {k : Token} {u : Sub} (ph : Phase T) (hk : s.sub k = some u) (hp : u.pc = .running) :
      Changes xs s (.phase k) (s.setTask k { s.tasks k with phase := ph })
  | tick {t : T} (hn : s.now ≤ t) : Changes xs s (.tick t) { s with now := t }

theorem step_cases {xs : List RunExecutor} {s t : St T} {e : Ev T} (h : step xs s e = some t) : Changes xs s e t := by
  cases e with
  | proc p e =>
    obtain ⟨x, hx, h⟩ := Option.bind_eq_some_iff.mp h
    obtain ⟨st, hp, h⟩ := Option.bind_eq_some_iff.mp h
    split at h
    · rename_i ha
      obtain ⟨st', hst, e⟩ := Option.map_eq_some_iff.mp h
      subst e
      exact .proc hx hp ha hst
    · cases h
  | redisSet k =>
    obtain ⟨x, hx, h⟩ := Option.bind_eq_some_iff.mp h
    obtain ⟨u, hk, h⟩ := Option.bind_eq_some_iff.mp h
    split at h
    · rename_i hc
      cases h
      simp only [Bool.and_eq_true, Option.isNone_iff_eq_none] at hc
      exact .redisSet hx hk hc.1 hc.2
    · cases h
  | redisEval k =>
    obtain ⟨u, hk, h⟩ := Option.bind_eq_some_iff.mp h
    split at h
    · rename_i e hp
      split at h
      · cases h; exact .redisEval hk (Or.inl ⟨e, hp⟩)
      · cases h
    · rename_i e hp
      split at h
      · cases h; exact .redisEval hk (Or.inr ⟨e, hp⟩)
      · cases h
    · cases h
  | phase k =>
    obtain ⟨x, -, h⟩ := Option.bind_eq_some_iff.mp h
    obtain ⟨u, hk, h⟩ := Option.bind_eq_some_iff.mp h
    split at h
    · rename_i hp
      obtain ⟨ph, -, e⟩ := Option.map_eq_some_iff.mp h
      subst e
      exact .phase ph hk hp
    · cases h
  | tick t' =>
    simp only [step] at h
    split at h
    · rename_i hc
      cases h
      exact .tick hc.1
    · cases h

end

/-! ## Runs that keep within their lock -/

section

variable [LinearOrder T]

/-- The key of a submission has not expired at `t`. -/
def fresh (s : St T) (t : T) (k : Token) : Bool := (s.tasks k).set.any fun a => decide (t < a.2)

/-- The step enters a run before its key expires, and lets no run outlast its key. -/
def InTime (s : St T) : Ev T → Prop
  | .proc p (.setReply i .truthy) => fresh s s.now (p, i) = true
  | .tick t => s.every (fun k u => u.pc != .running || fresh s t k) = true
  | _ => True

instance (s : St T) : (e : Ev T) → Decidable (InTime s e)
  | .proc _ (.setReply _ .truthy) => inferInstanceAs (Decidable (_ = true))
  | .tick _ => inferInstanceAs (Decidable (_ = true))
  | .proc _ (.setReply _ .falsy) | .proc _ (.setReply _ .raised) | .proc _ (.submit _) | .proc _ (.resumeGlobal _)
  | .proc _ (.resumeAgent _) | .proc _ (.runEnd _ _) | .proc _ (.evalReply _ _) | .proc _ (.cancel _)
  | .redisSet _ | .redisEval _ | .phase _ => inferInstanceAs (Decidable True)

/-- What is kept about a submission: before its permits nothing was sent; inside its run
    its key was set, not given back, and has not expired; and such a key is its own. -/
structure TaskOk (redis : Lease.Store String Token T) (now : T) (k : Token) (t : Task T) (u : Sub) : Prop where
  unsent : u.granted = false → t.set = none
  early : u.pc.acquiring ∨ u.pc = .locking ∨ u.pc = .running → t.evaled = false
  inside : u.pc = .running → ∃ v, t.set = some (.truthy, v) ∧ now < v
  owns : ∀ v, t.set = some (.truthy, v) → t.evaled = false → now < v → Lease.Holds redis (lockKey u.req.agentId) k v

def Inv (s : St T) : Prop :=
  ∀ k, match s.sub k with
    | none => (s.tasks k).set = none ∧ (s.tasks k).evaled = false
    | some u => TaskOk s.redis s.now k (s.tasks k) u

theorem inv_iff {s : St T} : Inv s ↔ (∀ k, s.sub k = none → (s.tasks k).set = none ∧ (s.tasks k).evaled = false) ∧
    ∀ k u, s.sub k = some u → TaskOk s.redis s.now k (s.tasks k) u := by
  constructor
  · intro h
    refine ⟨?_, ?_⟩
    · intro k hk
      have := h k; rwa [hk] at this
    · intro k u hk
      have := h k; rwa [hk] at this
  · intro h k
    split
    · rename_i hk; exact h.1 k hk
    · rename_i u hk; exact h.2 k u hk

/-! ## A step of one executor -/

theorem moves_req {x : RunExecutor} {e : Executor.Ev} {u v : Sub} (h : Executor.Moves x u e v) : v.req = u.req := by
  cases h <;> rfl

theorem moves_granted {x : RunExecutor} {e : Executor.Ev} {u v : Sub} (h : Executor.Moves x u e v)
    (hv : v.granted = false) : u.granted = false := by
  cases h with
  | lock _ _ _ => cases hv
  | start _ _ _ => cases hv
  | _ => exact hv

/-- A submit that has not been in its run has not been there before the step either. -/
theorem moves_early {x : RunExecutor} {e : Executor.Ev} {u v : Sub} (h : Executor.Moves x u e v)
    (hv : v.pc.acquiring ∨ v.pc = .locking ∨ v.pc = .running) : u.pc.acquiring ∨ u.pc = .locking := by
  cases h with
  | skip hp _ => exact Or.inl (by simp [Executor.Pc.acquiring, hp])
  | queueGlobal hp _ => exact Or.inl (by simp [Executor.Pc.acquiring, hp])
  | queueAgent hp _ => exact Or.inl hp
  | lock hp _ _ => exact Or.inl hp
  | start hp _ _ => exact Or.inl hp
  | locked hp => exact Or.inr hp
  | _ => rcases hv with hv | hv | hv <;> cases hv

/-- With Redis a run starts on a truthy reply only. -/
theorem moves_running {x : RunExecutor} (hx : x.redis = true) {e : Executor.Ev} {u v : Sub} (h : Executor.Moves x u e v)
    (hv : v.pc = .running) : u.pc = .locking ∧ ∃ i, e = .setReply i .truthy := by
  cases h with
  | start _ _ hr => rw [hx] at hr; cases hr
  | locked hp => exact ⟨hp, _, rfl⟩
  | _ => cases hv

theorem taskOk_new {x : RunExecutor} (hx : x.redis = true) {redis : Lease.Store String Token T} {now : T} {k : Token}
    {t : Task T} {req : RunRequest} {v : Sub} (ht : t.set = none ∧ t.evaled = false)
    (hm : Executor.Moves x (Executor.fresh req) (.submit req) v) : TaskOk redis now k t v := by
  refine ⟨fun _ => ht.1, fun _ => ht.2, ?_, ?_⟩
  · intro hr
    obtain ⟨-, i, he⟩ := moves_running hx hm hr
    cases he
  · intro w hw
    rw [ht.1] at hw
    cases hw

theorem taskOk_move {x : RunExecutor} (hx : x.redis = true) {s : St T} {p i : Nat} {e : Executor.Ev} {u v : Sub}
    (hi : e.index = some i) (ha : answered s p e = true) (ho : InTime s (.proc p e))
    (hu : TaskOk s.redis s.now (p, i) (s.tasks (p, i)) u) (hm : Executor.Moves x u e v) :
    TaskOk s.redis s.now (p, i) (s.tasks (p, i)) v := by
  refine ⟨fun hg => hu.unsent (moves_granted hm hg), ?_, ?_, ?_⟩
  · intro hv
    rcases moves_early hm hv with h | h
    · exact hu.early (Or.inl h)
    · exact hu.early (Or.inr (Or.inl h))
  · intro hr
    obtain ⟨-, j, he⟩ := moves_running hx hm hr
    subst he
    cases hi
    -- the server has said so, and the key has not expired
    obtain ⟨⟨r, w⟩, hset, hrep⟩ := (Option.any_eq_true _ _).mp ha
    obtain ⟨⟨r', w'⟩, hset', hnow⟩ := (Option.any_eq_true _ _).mp ho
    rw [hset] at hset'
    cases hset'
    simp only [beq_iff_eq] at hrep
    subst hrep
    exact ⟨w, hset, by simpa using hnow⟩
  · intro w hw he hn
    rw [moves_req hm]
    exact hu.owns w hw he hn

theorem inv_proc {x : RunExecutor} (hx : x.redis = true) {s : St T} {p : Nat} {e : Executor.Ev} {st st' : Executor.St}
    (hs : Inv s) (ho : InTime s (.proc p e)) (hp : s.procs[p]? = some st) (ha : answered s p e = true)
    (h : Executor.step x st e = some st') : Inv { s with procs := s.procs.set p st' } := by
  rw [inv_iff] at hs ⊢
  obtain ⟨i, v, hv, hrest, hcase⟩ := subAt_step hp h
  refine ⟨fun k hk => ?_, fun k w hk => ?_⟩
  · by_cases e : k = (p, i)
    · subst e
      cases hv.symm.trans hk
    · exact hs.1 k ((hrest k e).symm.trans hk)
  · rcases subAt_after hv hrest hk with ⟨e₁, e₂⟩ | ⟨-, hk⟩
    · subst e₁ e₂
      rcases hcase with ⟨req, he, hu, hm⟩ | ⟨u, he, hu, hm⟩
      · -- the new submission: nothing was sent for it
        subst he
        exact taskOk_new hx (hs.1 (p, i) hu) hm
      · exact taskOk_move (s := s) hx he ha ho (hs.2 (p, i) u hu) hm
    · exact hs.2 k w hk

/-! ## The steps of the server and of the clock -/

/-- A step for submission `k` alone that keeps the keys of the others. -/
theorem inv_setTask {s : St T} {k : Token} {u : Sub} {t : Task T} {redis : Lease.Store String Token T} (hs : Inv s)
    (hk : s.sub k = some u) (hkeep : ∀ key k' v, k' ≠ k → s.now < v → Lease.Holds s.redis key k' v → Lease.Holds redis key k' v)
    (hu : TaskOk redis s.now k t u) : Inv { s.setTask k t with redis := redis } := by
  rw [inv_iff] at hs ⊢
  refine ⟨?_, ?_⟩
  · intro k' hk'
    have hne : k' ≠ k := by
      intro e
      subst e
      cases hk.symm.trans hk'
    show ((s.setTask k t).tasks k').set = none ∧ ((s.setTask k t).tasks k').evaled = false
    rw [setTask_ne s t hne]
    exact hs.1 k' hk'
  · intro k' u' hk'
    by_cases e : k' = k
    · subst e
      cases hk.symm.trans hk'
      show TaskOk redis s.now k' ((s.setTask k' t).tasks k') u
      rw [setTask_same]
      exact hu
    · show TaskOk redis s.now k' ((s.setTask k t).tasks k') u'
      rw [setTask_ne s t e]
      have h' := hs.2 k' u' hk'
      exact ⟨h'.unsent, h'.early, h'.inside, fun v hv he hn => hkeep _ k' v e hn (h'.owns v hv he hn)⟩

theorem inv_redisEval {s : St T} {k : Token} {u : Sub} (hs : Inv s) (hk : s.sub k = some u)
    (hp : (∃ e, u.pc = .releasing e) ∨ ∃ e, u.pc = .ended e) (key : String) :
    Inv { s.setTask k { s.tasks k with evaled := true } with redis := (Lease.compareAndDelete s.redis s.now key k).2 } := by
  have hu := (inv_iff.mp hs).2 k u hk
  have hlate : ¬ (u.pc.acquiring ∨ u.pc = .locking ∨ u.pc = .running) := by
    rcases hp with ⟨e, hp⟩ | ⟨e, hp⟩ <;> simp [hp, Executor.Pc.acquiring]
  refine inv_setTask hs hk (fun key' k' v hne hn h => ?_) ?_
  · exact Lease.holds_compareAndDelete h hne (b := (Lease.compareAndDelete s.redis s.now key k).1) rfl
  · exact ⟨hu.unsent, fun h => absurd h hlate, fun h => absurd (Or.inr (Or.inr h)) hlate, fun _ _ he => (by cases he)⟩

theorem inv_tick {s : St T} {t : T} (hs : Inv s) (hn : s.now ≤ t)
    (ho : s.every (fun k u => u.pc != .running || fresh s t k) = true) : Inv { s with now := t } := by
  rw [inv_iff] at hs ⊢
  refine ⟨hs.1, fun k u hk => ?_⟩
  have hu := hs.2 k u hk
  refine ⟨hu.unsent, hu.early, fun hr => ?_, fun v hv he hnow => hu.owns v hv he (lt_of_le_of_lt hn hnow)⟩
  have hf := every_spec ho hk
  simp only [hr, bne_self_eq_false, Bool.false_or] at hf
  obtain ⟨v, hv, -⟩ := hu.inside hr
  refine ⟨v, hv, ?_⟩
  simpa [fresh, hv] using hf

theorem inv_init (xs : List RunExecutor) (now : T) : Inv (init xs now) := by
  refine inv_iff.mpr ⟨fun k hk => ⟨rfl, rfl⟩, fun k u hk => ?_⟩
  obtain ⟨st, hp, hi⟩ := Option.bind_eq_some_iff.mp hk
  obtain ⟨x, -, e⟩ := List.mem_map.mp (List.mem_of_getElem? hp)
  subst e
  cases hi

end

section

variable [CommRing T] [LinearOrder T]

theorem inv_redisSet {s : St T} {k : Token} {u : Sub} {ttl : Int} (hs : Inv s) (hk : s.sub k = some u)
    (hg : u.granted = true) (hset : (s.tasks k).set = none) : Inv (execSet s k u.req.agentId ttl) := by
  have hu := (inv_iff.mp hs).2 k u hk
  have hrun : u.pc ≠ .running := by
    intro hr
    obtain ⟨v, hv, -⟩ := hu.inside hr
    rw [hset] at hv
    cases hv
  unfold execSet
  split
  · refine inv_setTask hs hk (fun _ _ _ _ _ h => h) ?_
    exact ⟨fun h => (by rw [hg] at h; cases h), hu.early, fun h => absurd h hrun, fun v hv => (by cases hv)⟩
  · obtain ⟨b, redis, hr⟩ : ∃ b redis, Lease.setNx s.redis s.now (lockKey u.req.agentId) k (s.now + (ttl : T)) = (b, redis) :=
      ⟨_, _, rfl⟩
    simp only [hr]
    refine inv_setTask hs hk (fun key k' v _ hn h => Lease.holds_setNx h hn hr) ?_
    refine ⟨fun h => (by rw [hg] at h; cases h), hu.early, fun h => absurd h hrun, fun v hv _ _ => ?_⟩
    cases b with
    | true =>
      cases hv
      exact Lease.setNx_holds hr
    | false => cases hv

theorem inv_step {xs : List RunExecutor} (hx : ∀ x ∈ xs, x.redis = true) (s : St T) (e : Ev T) (t : St T) (hs : Inv s)
    (ho : InTime s e) (h : step xs s e = some t) : Inv t := by
  cases step_cases h with
  | proc hxp hp ha hst => exact inv_proc (hx _ (List.mem_of_getElem? hxp)) hs ho hp ha hst
  | redisSet _ hk hg hn => exact inv_redisSet hs hk hg hn
  | redisEval hk hp => exact inv_redisEval hs hk hp _
  | phase ph hk =>
    have hu := (inv_iff.mp hs).2 _ _ hk
    exact inv_setTask hs hk (fun _ _ _ _ _ h => h) ⟨hu.unsent, hu.early, hu.inside, hu.owns⟩
  | tick hn => exact inv_tick hs hn ho

/-! ## Mutual exclusion -/

/-- The submission is inside `runner.run` for the agent. -/
def Inside (s : St T) (k : Token) (agentId : String) : Prop :=
  ∃ u, s.sub k = some u ∧ u.pc = .running ∧ u.req.agentId = agentId

/-- Of each agent at most one submission of all processes is inside `runner.run`, when
    every submission enters and leaves its run before its key expires. -/
theorem one_run_per_agent {xs : List RunExecutor} (hx : ∀ x ∈ xs, x.redis = true) {now : T} {s : St T}
    (h : Run (step xs) InTime (init xs now) s) {k k' : Token} {agentId : String} (hk : Inside s k agentId)
    (hk' : Inside s k' agentId) : k = k' := by
  have hinv : Inv s := h.invariant (inv_step hx) (inv_init xs now)
  have hkey : ∀ k, Inside s k agentId → ∃ v, Lease.Holds s.redis (lockKey agentId) k v := by
    intro k ⟨u, hu, hr, hid⟩
    have hok := (inv_iff.mp hinv).2 k u hu
    obtain ⟨v, hv, hn⟩ := hok.inside hr
    have howns := hok.owns v hv (hok.early (Or.inr (Or.inr hr))) hn
    rw [hid] at howns
    exact ⟨v, howns⟩
  obtain ⟨v, hv⟩ := hkey k hk
  obtain ⟨v', hv'⟩ := hkey k' hk'
  exact Lease.holds_unique hv hv'

end

/-! Two processes with the same agent, whose timeout is 900 seconds. -/

def inside (s : St Int) (k : Token) : Bool :=
  (s.sub k).any fun u => u.pc == .running && u.req.agentId == "event-deduplicator"

theorem inside_spec {s : St Int} {k : Token} (h : inside s k = true) : Inside s k "event-deduplicator" := by
  obtain ⟨u, hu, hr⟩ := (Option.any_eq_true _ _).mp h
  simp only [Bool.and_eq_true, beq_iff_eq] at hr
  exact ⟨u, hu, hr.1, hr.2⟩

def processes : List RunExecutor := [Executor.oneAgent, Executor.oneAgent]

def entersRun (p : Nat) : List (Ev Int) :=
  [.proc p Executor.scheduled, .redisSet (p, 0), .proc p (.setReply 0 .truthy)]

/-- One run after the other: nobody else is inside the second one. -/
theorem one_run_per_agent_in_turn :
    ∃ s, Run (step processes) InTime (init processes (0 : Int)) s ∧ Inside s (1, 0) "event-deduplicator" ∧
      ∀ k, Inside s k "event-deduplicator" → k = (1, 0) := by
  obtain ⟨s, hr, hp⟩ := Run.exists_of_exec (step processes) InTime (init processes (0 : Int))
    (entersRun 0 ++ [.phase (0, 0), .tick 899, .proc 0 (.runEnd 0 (.report true)), .redisEval (0, 0),
      .proc 0 (.evalReply 0 false)] ++ entersRun 1)
    (inside · (1, 0)) (by decide)
  exact ⟨s, hr, inside_spec hp, fun k hk => one_run_per_agent (by decide) hr hk (inside_spec hp)⟩

/-- The first run is still in its guidance fetch when its key expires: the second process
    gets the lock, and both are inside `runner.run`. -/
theorem slow_guidance_overlaps :
    ∃ s, Run (step processes) (fun _ _ => True) (init processes (0 : Int)) s ∧
      Inside s (0, 0) "event-deduplicator" ∧ Inside s (1, 0) "event-deduplicator" := by
  obtain ⟨s, hr, hp⟩ := Run.exists_of_exec (step processes) (fun _ _ => True) (init processes (0 : Int))
    (entersRun 0 ++ [.tick 900] ++ entersRun 1) (fun s => inside s (0, 0) && inside s (1, 0)) (by decide)
  simp only [Bool.and_eq_true] at hp
  exact ⟨s, hr, inside_spec hp.1, inside_spec hp.2⟩

end SagaAgents.Triggers.Cluster
