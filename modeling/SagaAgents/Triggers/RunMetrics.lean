/-
  SagaAgents.Triggers.RunMetrics — what the executor's metrics say about its runs
  (`triggers/executor.py`, `metrics/registry.py`).

  The `finally` of a run observes its duration and takes it off the gauge, before it gives
  the lock back. A run that raised is counted in the `except` branch in front of it; one
  that returned a report is counted when the lock has been given back. `durations` is
  `AGENT_RUN_DURATION`: the label of every observation. `ends` remembers how each submit's
  run has ended.

  Proved, over every run: `runs_accounted`. Each run that is over was observed once, and
  counted once under its agent, its reason and its result; one that was cancelled is not
  counted, nor is one whose submit was cancelled while it gave the lock back:
  `report_not_counted`.
-/

import SagaAgents.Triggers.Permits

namespace SagaAgents.Triggers.RunMetrics

open Lib
open Executor (RunExecutor RunEnd RunLabel RunRequest Ending Sub Pc Moves)

/-! ## The metrics -/

structure St where
  executor : Executor.St
  ends : List (Option RunEnd)
  durations : List String

def init (x : RunExecutor) : St := ⟨Executor.init x, [], []⟩

/-- The submits, and how their runs have ended. -/
def St.runs (s : St) : List (Sub × Option RunEnd) := s.executor.subs.zip s.ends

def endOf : Executor.Ev → Option RunEnd → Option RunEnd
  | .runEnd _ r, _ => some r
  | _, o => o

/-- The observation an event of a submit makes. -/
def observed (u : Sub) : Executor.Ev → List String
  | .runEnd _ _ => [u.req.agentId]
  | _ => []

def observe (s : Executor.St) (e : Executor.Ev) : List String :=
  (e.index.bind fun i => s.subs[i]?).elim [] fun u => observed u e

def recordEnd (ends : List (Option RunEnd)) : Executor.Ev → List (Option RunEnd)
  | .submit _ => ends ++ [none]
  | e => e.index.elim ends fun i => ends.set i (endOf e (ends[i]?.getD none))

def step (x : RunExecutor) (s : St) (e : Executor.Ev) : Option St :=
  (Executor.step x s.executor e).map fun t => ⟨t, recordEnd s.ends e, s.durations ++ observe s.executor e⟩

/-! ## What a submit contributes -/

/-- One observation for a run that is over. -/
def observations (p : Sub × Option RunEnd) : List String := p.2.toList.map fun _ => p.1.req.agentId

/-- One count for a run that raised, and for a report once its submit is through. -/
def counted (p : Sub × Option RunEnd) : List RunLabel :=
  match p.2 with
  | some .raised => [⟨p.1.req.agentId, p.1.req.reason, "error"⟩]
  | some (.report ok) =>
    if p.1.pc = .ended (.completed ok) then [⟨p.1.req.agentId, p.1.req.reason, if ok then "ok" else "error"⟩] else []
  | _ => []

/-- What is known of a submit and its run: before the run is over nothing is recorded, and
    from then on the submit gives the lock back, is through, or was cancelled there. -/
def Follows (x : RunExecutor) (p : Sub × Option RunEnd) : Prop :=
  match p.2 with
  | none => p.1.pc.past = true → p.1.entered = false ∧ ∀ e, p.1.pc ≠ .releasing e
  | some r => p.1.entered = true ∧
      (p.1.pc = .releasing r.ending ∨ p.1.pc = .ended r.ending ∨ (x.redis = true ∧ p.1.pc = .ended .cancelled))

variable {x : RunExecutor} {s t : St} {u v : Sub} {e : Executor.Ev} {o : Option RunEnd}

/-- What an event adds to `AGENT_RUNS`. -/
def added (x : RunExecutor) (u : Sub) : Executor.Ev → List RunLabel
  | .runEnd _ r => r.label u ++ if x.redis then [] else r.ending.label u
  | .evalReply _ _ =>
    match u.pc with
    | .releasing e => e.label u
    | _ => []
  | _ => []

/-! ## One step -/

theorem enterBody_agentRuns (i : Nat) (u : Sub) (s : Executor.St) : (Executor.enterBody x i u s).agentRuns = s.agentRuns := by
  unfold Executor.enterBody
  split <;> rfl

theorem acquireAgent_agentRuns (i : Nat) (u : Sub) (s : Executor.St) :
    (Executor.acquireAgent x i u s).agentRuns = s.agentRuns := by
  simp only [Executor.acquireAgent]
  split
  · rw [enterBody_agentRuns]
  · rfl

theorem submit_agentRuns (req : RunRequest) (s : Executor.St) : (Executor.submit x req s).agentRuns = s.agentRuns := by
  simp only [Executor.submit]
  split
  · rfl
  · simp only [Executor.acquireGlobal]
    split
    · rw [acquireAgent_agentRuns]
    · rfl

theorem move_agentRuns {s t : Executor.St} {i : Nat} (hm : Executor.move x s i u e = some t) :
    t.agentRuns = s.agentRuns ++ added x u e := by
  cases Executor.move_cases hm with
  | resumeGlobal j hp hw =>
    rw [acquireAgent_agentRuns]
    exact (List.append_nil _).symm
  | resumeAgent j hp hw =>
    rw [enterBody_agentRuns]
    exact (List.append_nil _).symm
  | setReply j r hp => cases r <;> exact (List.append_nil _).symm
  | runEnd j r hp =>
    simp only [Executor.finishRun, added]
    split
    · simp only [List.append_nil]
      rfl
    · rw [← List.append_assoc]
      rfl
  | evalReply j b e hp =>
    simp only [added, hp]
    rfl
  | cancelGlobal j hp | cancelAgent j hp | cancelCall j hp => exact (List.append_nil _).symm

/-- The event records nothing. -/
structure Silent (x : RunExecutor) (u : Sub) (e : Executor.Ev) : Prop where
  ends : ∀ o, endOf e o = o
  adds : added x u e = []
  observes : observed u e = []

/-- The event that takes a submit on to its permits ends no run. -/
theorem acquiring_silent {s t : Executor.St} {i : Nat} (hm : Executor.move x s i u e = some t) (hp : u.pc.acquiring) :
    Silent x u e := by
  cases Executor.move_cases hm with
  | runEnd j r hq => simp [hq, Pc.acquiring] at hp
  | evalReply j b e hq => simp [hq, Pc.acquiring] at hp
  | _ => exact ⟨fun _ => rfl, rfl, rfl⟩

theorem silent_cancel (i : Nat) : Silent x u (.cancel i) := ⟨fun _ => rfl, rfl, rfl⟩

/-- What the move of a submit makes of its contributions. -/
structure Contributes (x : RunExecutor) (u : Sub) (o : Option RunEnd) (e : Executor.Ev) (v : Sub) : Prop where
  follows : Follows x (v, endOf e o)
  counts : counted (v, endOf e o) = counted (u, o) ++ added x u e
  observes : observations (v, endOf e o) = observations (u, o) ++ observed u e

theorem followed_none (hp : u.pc.past = false) (h : Follows x (u, o)) : o = none := by
  cases o with
  | none => rfl
  | some r =>
    rcases h.2 with h | h | ⟨-, h⟩
    all_goals (rw [show u.pc = _ from h] at hp; cases hp)

/-- A submit that has not ended its run yet records nothing. -/
theorem contributes_none (hp : u.pc.past = false) (h : Follows x (u, o)) (he : Silent x u e)
    (hv : v.pc.past = true → v.entered = false ∧ ∀ e, v.pc ≠ .releasing e) : Contributes x u o e v := by
  have ho := followed_none hp h
  subst ho
  refine ⟨?_, ?_, ?_⟩
  · rw [he.ends]
    exact hv
  · rw [he.ends, he.adds]
    rfl
  · rw [he.ends, he.observes]
    rfl

/-- The run of a submit is over: a run that raised is counted now, and so is a report where
    there is no lock to give back. -/
theorem contributes_end {i : Nat} {r : RunEnd} (hp : u.pc = .running) (hrun : u.entered = true) (h : Follows x (u, o)) :
    Contributes x u o (.runEnd i r) (u.to (if x.redis then .releasing r.ending else .ended r.ending)) := by
  have ho := followed_none (by rw [hp]; rfl) h
  subst ho
  refine ⟨⟨hrun, ?_⟩, ?_, rfl⟩
  · cases x.redis
    · exact Or.inr (Or.inl rfl)
    · exact Or.inl rfl
  · cases hx : x.redis <;> cases r <;>
      simp [endOf, counted, added, hx, RunEnd.label, RunEnd.ending, Ending.label, Sub.to]

/-- The lock was given back: a report is counted now. -/
theorem contributes_release {i : Nat} {b : Bool} {d : Ending} (hp : u.pc = .releasing d) (h : Follows x (u, o)) :
    Contributes x u o (.evalReply i b) (u.to (.ended d)) := by
  cases o with
  | none => exact absurd hp ((h (by rw [hp]; rfl)).2 d)
  | some r =>
    obtain ⟨hin, hst⟩ := h
    have hd : d = r.ending := by
      rcases hst with hst | hst | ⟨-, hst⟩
      · rw [show u.pc = _ from hst] at hp
        cases hp
        rfl
      all_goals (rw [show u.pc = _ from hst] at hp; cases hp)
    subst hd
    refine ⟨⟨hin, Or.inr (Or.inl rfl)⟩, ?_, rfl⟩
    cases r <;> simp [endOf, counted, added, hp, RunEnd.ending, Ending.label, Sub.to]

/-- The submit was cancelled while it gave the lock back. -/
theorem contributes_cancelled {i : Nat} {d : Ending} (hp : u.pc = .releasing d) (h : Follows x (u, o))
    (hx : x.redis = true) : Contributes x u o (.cancel i) (u.to (.ended .cancelled)) := by
  cases o with
  | none => exact absurd hp ((h (by rw [hp]; rfl)).2 d)
  | some r =>
    refine ⟨⟨h.1, Or.inr (Or.inr ⟨hx, rfl⟩)⟩, ?_, rfl⟩
    cases r <;> simp [endOf, counted, added, hp, Sub.to]

/-! ## Every step -/

/-- What is kept about a submit and its run. -/
structure Tracked (x : RunExecutor) (p : Sub × Option RunEnd) : Prop where
  follows : Follows x p
  before : p.1.pc.acquiring ∨ p.1.pc = .locking → p.1.entered = false
  during : p.1.pc = .running → p.1.entered = true
  after : ∀ e, p.1.pc = .releasing e → x.redis = true

theorem acquiring_past (hp : u.pc.acquiring) : u.pc.past = false := by
  cases hpc : u.pc with
  | releasing e => simp [hpc, Pc.acquiring] at hp
  | ended e => simp [hpc, Pc.acquiring] at hp
  | _ => rfl

theorem contributes {s t : Executor.St} {i : Nat} (h : Tracked x (u, o)) (he : Executor.move x s i u e = some t)
    (hm : Moves x u e v) : Contributes x u o e v := by
  have hq : ∀ hp : u.pc.acquiring, ∀ {v}, (v.pc.past = true → v.entered = false ∧ ∀ e, v.pc ≠ .releasing e) →
      Contributes x u o e v :=
    fun hp _ hv => contributes_none (acquiring_past hp) h.follows (acquiring_silent he hp) hv
  have hl : ∀ hp : u.pc = .locking, Silent x u e → ∀ {v}, (v.pc.past = true → v.entered = false ∧ ∀ e, v.pc ≠ .releasing e) →
      Contributes x u o e v :=
    fun hp hs _ hv => contributes_none (by rw [hp]; rfl) h.follows hs hv
  cases hm with
  | skip hp _ | queueGlobal hp _ => exact absurd he (by simp [Executor.move])
  | queueAgent hp _ | lock hp _ _ | start hp _ _ => exact hq hp (fun h => (by cases h))
  | locked hp => exact hl hp ⟨fun _ => rfl, rfl, rfl⟩ (fun h => (by cases h))
  | lockHeld hp | setRaises hp =>
    exact hl hp ⟨fun _ => rfl, rfl, rfl⟩ fun _ => ⟨h.before (Or.inr hp), fun e h => (by cases h)⟩
  | unlock hp hr => simpa only [hr, if_true] using contributes_end hp (h.during hp) h.follows
  | finish hp hr =>
    simpa only [hr, Bool.false_eq_true, if_false] using contributes_end hp (h.during hp) h.follows
  | unlocked d hp => exact contributes_release hp h.follows
  | cancelled hp =>
    have hs := silent_cancel (x := x) (u := u)
    rcases hp with hp | hp | hp | ⟨d, hp⟩
    · exact contributes_none (by rw [hp]; rfl) h.follows (hs _)
        fun _ => ⟨h.before (Or.inl (by simp [hp, Pc.acquiring])), fun e h => (by cases h)⟩
    · exact contributes_none (by rw [hp]; rfl) h.follows (hs _)
        fun _ => ⟨h.before (Or.inl (by simp [hp, Pc.acquiring])), fun e h => (by cases h)⟩
    · exact hl hp (hs _) fun _ => ⟨h.before (Or.inr hp), fun e h => (by cases h)⟩
    · exact contributes_cancelled hp h.follows (h.after d hp)

theorem tracked_move {s t : Executor.St} {i : Nat} (h : Tracked x (u, o)) (he : Executor.move x s i u e = some t)
    (hm : Moves x u e v) : Tracked x (v, endOf e o) := by
  refine ⟨(contributes h he hm).follows, ?_, ?_, ?_⟩
  · intro hp
    cases hm with
    | queueGlobal hq _ => exact h.before (Or.inl (by simp [hq, Pc.acquiring]))
    | queueAgent hq _ | lock hq _ _ => exact h.before (Or.inl hq)
    | _ => rcases hp with hp | hp <;> cases hp
  · intro hp
    cases hm with
    | start | locked => rfl
    | _ => cases hp
  · intro d hp
    cases hm with
    | unlock _ hr => exact hr
    | _ => cases hp

theorem tracked_new {req : RunRequest} (hm : Moves x (Executor.fresh req) (.submit req) v) : Tracked x (v, none) := by
  cases hm with
  | skip => exact ⟨fun _ => ⟨rfl, fun e h => (by cases h)⟩, fun h => (by rcases h with h | h <;> cases h), fun h => (by cases h),
      fun e h => (by cases h)⟩
  | queueGlobal | queueAgent | lock =>
    exact ⟨fun h => (by cases h), fun _ => rfl, fun h => (by cases h), fun e h => (by cases h)⟩
  | start => exact ⟨fun h => (by cases h), fun h => (by rcases h with h | h <;> cases h), fun _ => rfl, fun e h => (by cases h)⟩

/-- The metrics are those of the submits' runs. -/
structure Inv (x : RunExecutor) (s : St) : Prop where
  length : s.executor.subs.length = s.ends.length
  tracked : ∀ p ∈ s.runs, Tracked x p
  durations : s.durations.Perm (s.runs.flatMap observations)
  counts : s.executor.agentRuns.Perm (s.runs.flatMap counted)

theorem inv_init : Inv x (init x) := ⟨rfl, fun p hp => (by cases hp), .nil, .nil⟩

theorem counted_none : counted (v, none) = [] := rfl

/-- A new submit records nothing. -/
theorem inv_start {executor : Executor.St} (h : Inv x s) (hsubs : executor.subs = s.executor.subs ++ [v])
    (hruns : executor.agentRuns = s.executor.agentRuns) (hv : Tracked x (v, none)) :
    Inv x ⟨executor, s.ends ++ [none], s.durations⟩ := by
  have hzip : St.runs ⟨executor, s.ends ++ [none], s.durations⟩ = s.runs ++ [(v, none)] := by
    show executor.subs.zip (s.ends ++ [none]) = _
    rw [hsubs, List.zip_append h.length]
    rfl
  refine ⟨?_, ?_, ?_, ?_⟩
  · show executor.subs.length = (s.ends ++ [none]).length
    rw [hsubs, List.length_append, List.length_append, h.length]
    rfl
  · rw [hzip]
    intro p hp
    rcases List.mem_append.mp hp with hp | hp
    · exact h.tracked p hp
    · rw [List.mem_singleton.mp hp]
      exact hv
  · rw [hzip]
    exact Tasks.log_start h.durations rfl
  · rw [hzip, hruns]
    exact Tasks.log_start h.counts counted_none

/-- A submit moves, and adds what it contributes. -/
theorem inv_move {executor : Executor.St} {i : Nat} (h : Inv x s) (hi : s.runs[i]? = some (u, o))
    (hsubs : executor.subs = s.executor.subs.set i v) (hruns : executor.agentRuns = s.executor.agentRuns ++ added x u e)
    (hc : Contributes x u o e v) (hv : Tracked x (v, endOf e o)) :
    Inv x ⟨executor, s.ends.set i (endOf e o), s.durations ++ observed u e⟩ := by
  have hzip : St.runs ⟨executor, s.ends.set i (endOf e o), s.durations ++ observed u e⟩ = s.runs.set i (v, endOf e o) := by
    show executor.subs.zip (s.ends.set i (endOf e o)) = _
    rw [hsubs, Tasks.zip_move]
    rfl
  refine ⟨?_, ?_, ?_, ?_⟩
  · show executor.subs.length = (s.ends.set i (endOf e o)).length
    rw [hsubs, List.length_set, List.length_set, h.length]
  · rw [hzip]
    intro p hp
    rcases List.mem_or_eq_of_mem_set hp with hp | hp
    · exact h.tracked p hp
    · rw [hp]
      exact hv
  · rw [hzip]
    exact Tasks.log_move h.durations hi hc.observes
  · rw [hzip, hruns]
    exact Tasks.log_move h.counts hi hc.counts

theorem inv_step (h : Inv x s) (hs : step x s e = some t) : Inv x t := by
  obtain ⟨executor, hstep, ht⟩ := Option.map_eq_some_iff.mp hs
  subst ht
  rcases Executor.step_move hstep with ⟨req, he, hex⟩ | ⟨i, u, he, hu, hm⟩
  · subst he hex
    obtain ⟨v, hv, hsubs⟩ := Executor.submit_subs (x := x) req s.executor
    have := inv_start h hsubs (submit_agentRuns req s.executor) (tracked_new hv)
    simpa [recordEnd, observe, Executor.Ev.index] using this
  · obtain ⟨v, hv, hsubs⟩ := Executor.move_subs hm
    have hlt : i < s.ends.length := h.length ▸ (List.getElem?_eq_some_iff.mp hu).1
    have hi : s.runs[i]? = some (u, s.ends[i]) :=
      List.getElem?_zip_eq_some.mpr ⟨hu, List.getElem?_eq_getElem hlt⟩
    have hk := h.tracked _ (List.mem_of_getElem? hi)
    have hends : recordEnd s.ends e = s.ends.set i (endOf e s.ends[i]) := by
      cases e with
      | submit req => cases he
      | _ =>
        cases he
        simp [recordEnd, Executor.Ev.index, hlt]
    have hobs : observe s.executor e = observed u e := by simp [observe, he, hu]
    rw [hends, hobs]
    exact inv_move h hi hsubs (move_agentRuns hm) (contributes hk hm hv) (tracked_move hk hm hv)

/-- Every run that is over was observed once. It was counted once under its agent, its
    reason and its result if it raised, or if it returned a report and its submit is through;
    one that was not counted was cancelled, or its submit gives the lock back or was
    cancelled there. Nothing else is observed or counted. -/
theorem runs_accounted {ok : St → Executor.Ev → Prop} (h : Run (step x) ok (init x) s) :
    (∀ p ∈ s.runs, p.2.isSome = (p.1.entered && p.1.pc.past)) ∧
      s.durations.Perm (s.runs.flatMap observations) ∧ s.executor.agentRuns.Perm (s.runs.flatMap counted) ∧
      ∀ p ∈ s.runs, ∀ r, p.2 = some r → counted p = [] →
        r = .cancelled ∨ (x.redis = true ∧ (p.1.pc = .releasing r.ending ∨ p.1.pc = .ended .cancelled)) := by
  have hinv : Inv x s := h.invariant (fun s e t hs _ h => inv_step hs h) inv_init
  refine ⟨?_, hinv.durations, hinv.counts, ?_⟩
  · rintro ⟨u, o⟩ hp
    have hk := hinv.tracked _ hp
    have hf := hk.follows
    cases o with
    | none =>
      cases hpast : u.pc.past with
      | false => simp
      | true =>
        have hin : u.entered = false := (hf hpast).1
        simp [hin]
    | some r =>
      have hpast : u.pc.past = true := by
        rcases hf.2 with h | h | ⟨-, h⟩
        all_goals (rw [show u.pc = _ from h]; rfl)
      have hin : u.entered = true := hf.1
      simp [hin, hpast]
  · rintro ⟨u, o⟩ hp r e hnone
    subst e
    have hk := hinv.tracked _ hp
    rcases hk.follows.2 with h | h | ⟨hx, h⟩
    · exact Or.inr ⟨hk.after _ h, Or.inl h⟩
    · cases r with
      | report ok => simp [counted, show u.pc = _ from h, RunEnd.ending] at hnone
      | raised => cases hnone
      | cancelled => exact Or.inl rfl
    · exact Or.inr ⟨hx, Or.inr h⟩

/-! Two submits of one agent: the first is cancelled while it gives its lock back after a
    report, the second run raises. -/

def cancelledRelease : List Executor.Ev :=
  [Executor.scheduled, Executor.scheduled, .setReply 0 .truthy, .runEnd 0 (.report true), .cancel 0, .resumeAgent 1,
    .setReply 1 .truthy, .runEnd 1 .raised]

theorem report_not_counted :
    ∃ s, Run (step Executor.oneAgent) (fun _ _ => True) (init Executor.oneAgent) s ∧
      s.durations = ["event-deduplicator", "event-deduplicator"] ∧
      s.executor.agentRuns = [⟨"event-deduplicator", "schedule", "error"⟩] := by
  obtain ⟨s, hr, hp⟩ := Run.exists_of_exec (step Executor.oneAgent) (fun _ _ => True) (init Executor.oneAgent) cancelledRelease
    (fun s => s.durations == ["event-deduplicator", "event-deduplicator"] &&
      s.executor.agentRuns == [⟨"event-deduplicator", "schedule", "error"⟩]) (by decide)
  simp only [Bool.and_eq_true, beq_iff_eq] at hp
  exact ⟨s, hr, hp.1, hp.2⟩

theorem runs_accounted_cancelled_release :
    ∃ s : St, s.durations.length = 2 ∧ s.executor.agentRuns.length = 1 ∧
      (∀ p ∈ s.runs, p.2.isSome = (p.1.entered && p.1.pc.past)) ∧
      s.durations.Perm (s.runs.flatMap observations) ∧ s.executor.agentRuns.Perm (s.runs.flatMap counted) ∧
      ∀ p ∈ s.runs, ∀ r, p.2 = some r → counted p = [] →
        r = .cancelled ∨ (Executor.oneAgent.redis = true ∧ (p.1.pc = .releasing r.ending ∨ p.1.pc = .ended .cancelled)) := by
  obtain ⟨s, hr, hd, hc⟩ := report_not_counted
  exact ⟨s, by rw [hd]; rfl, by rw [hc]; rfl, runs_accounted hr⟩

end SagaAgents.Triggers.RunMetrics
