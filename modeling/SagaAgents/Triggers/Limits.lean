/-
  SagaAgents.Triggers.Limits — what the two levels of limits let run, without Redis.

  The global permit is taken first and held while a submit waits for its agent's permit.
  So a global permit is held by a run or by a submit that is queued for its agent, and
  with no hand-over pending a queue means that all permits of its semaphore are held.

  Proved, over every run: `waits_only_when_full`. Submits queued for one agent can hold
  permits that another agent's submit waits for: `queued_submits_block`.
-/

import SagaAgents.Triggers.Executor

namespace SagaAgents.Triggers.Executor

open Lib Lib.Semaphore

/-- The runs of an agent that are inside `runner.run`. -/
def St.inside (s : St) (agentId : String) : Nat := s.subs.countP fun u => isRunning u && u.req.agentId == agentId

def holdsGlobal (u : Sub) : Bool := globalStand u == .holds

/-- Queued for its global permit, or for its agent's. -/
def waiting (u : Sub) : Bool := u.pc == .waitGlobal || u.pc == .waitAgent

/-- No permit has been handed to a submit that has not run since. -/
def NoHandOver (s : St) : Prop := s.globalSem.Quiet ∧ ∀ id, (s.agentSems id).Quiet

variable {x : RunExecutor} {s : St}

/-- Without Redis a submit never waits for a reply. -/
theorem no_replies (hr : x.redis = false) {ok : St → Ev → Prop} (h : Run (step x) ok (init x) s) :
    ∀ u ∈ s.subs, u.pc ≠ .locking ∧ ∀ e, u.pc ≠ .releasing e := by
  refine subs_run (P := fun u => u.pc ≠ .locking ∧ ∀ e, u.pc ≠ .releasing e) (fun s req v _ hm => ?_)
    (fun s e u v _ hu hm => ?_) h
  · cases hm with
    | lock hp hd hx => rw [hr] at hx; cases hx
    | _ => exact ⟨fun h => (by cases h), fun _ h => (by cases h)⟩
  · cases hm with
    | lock hp hd hx => rw [hr] at hx; cases hx
    | unlock hp hx => rw [hr] at hx; cases hx
    | _ => exact ⟨fun h => (by cases h), fun _ h => (by cases h)⟩

theorem agentStand_inside {u : Sub} (ha : ∀ p, u.pc ≠ .active p) (hn : u.pc ≠ .locking ∧ ∀ e, u.pc ≠ .releasing e)
    (id : String) : agentStand id u = .holds ↔ (isRunning u && u.req.agentId == id) = true := by
  unfold agentStand isRunning
  by_cases e : u.req.agentId = id
  · rw [if_pos e, e]
    cases hp : u.pc with
    | active p => exact absurd hp (ha p)
    | locking => exact absurd hp hn.1
    | releasing e => exact absurd hp (hn.2 e)
    | _ => simp [Pc.agentStand]
  · simp [e]

theorem globalStand_inside {u : Sub} (ha : ∀ p, u.pc ≠ .active p) (hn : u.pc ≠ .locking ∧ ∀ e, u.pc ≠ .releasing e)
    (hg : holdsGlobal u = true) : isRunning u = true ∨ u.pc = .waitAgent := by
  unfold holdsGlobal globalStand at hg
  cases hp : u.pc with
  | active p => exact absurd hp (ha p)
  | locking => exact absurd hp hn.1
  | releasing e => exact absurd hp (hn.2 e)
  | running => exact Or.inl (by simp [isRunning, hp])
  | waitAgent => exact Or.inr rfl
  | _ => rw [hp] at hg; cases hg

theorem count_map (f : Sub → Stand) (l : List Sub) : (l.map f).count .holds = l.countP fun u => f u == .holds := by
  rw [List.count, List.countP_map]
  rfl

/-- A submit queued for its agent waits for that agent's runs. -/
theorem agent_full (hr : x.redis = false) {ok : St → Ev → Prop} (h : Run (step x) ok (init x) s) (hq : NoHandOver s)
    {u : Sub} (hu : u ∈ s.subs) (hw : u.pc = .waitAgent) : s.inside u.req.agentId = x.permits u.req.agentId := by
  obtain ⟨i, hi⟩ := List.getElem?_of_mem hu
  have hinv := inv_run h (inv_init x)
  have hfull := (hinv.agent u.req.agentId).full (hq.2 _) (i := i) (by simp [hi, agentStand, hw, Pc.agentStand])
  rw [count_map] at hfull
  rw [← hfull, St.inside]
  refine List.countP_congr fun v hv => ?_
  have := agentStand_inside (not_active h v hv) (no_replies hr h v hv) u.req.agentId
  rw [← this, beq_iff_eq]

/-- A submit waits only when its agent's runs are as many as its limit, or when every
    global permit is held: by a run, or by a submit queued for an agent whose runs are as
    many as its limit. -/
theorem waits_only_when_full (hr : x.redis = false) {ok : St → Ev → Prop} (h : Run (step x) ok (init x) s)
    (hq : NoHandOver s) {u : Sub} (hu : u ∈ s.subs) (hw : waiting u = true) :
    s.inside u.req.agentId = x.permits u.req.agentId ∨
      (s.subs.countP holdsGlobal = x.globalLimit ∧ ∀ v ∈ s.subs, holdsGlobal v = true →
        isRunning v = true ∨ (v.pc = .waitAgent ∧ s.inside v.req.agentId = x.permits v.req.agentId)) := by
  simp only [waiting, Bool.or_eq_true, beq_iff_eq] at hw
  rcases hw with hw | hw
  · right
    obtain ⟨i, hi⟩ := List.getElem?_of_mem hu
    have hinv := inv_run h (inv_init x)
    have hfull := hinv.global.full hq.1 (i := i) (by simp [hi, globalStand, hw, Pc.globalStand])
    rw [count_map] at hfull
    refine ⟨hfull, fun v hv hg => ?_⟩
    rcases globalStand_inside (not_active h v hv) (no_replies hr h v hv) hg with hrun | hwait
    · exact Or.inl hrun
    · exact Or.inr ⟨hwait, agent_full hr h hq hv hwait⟩
  · exact Or.inl (agent_full hr h hq hu hw)

/-! Two agents, one run each at a time, and two runs in all: two submits for one agent,
    then one for the other. -/

def twoAgents : RunExecutor where
  definitions := Keyed.ofList Config.AgentDefinition.id [{ id := "event-deduplicator" }, { id := "summarizer" }]
  globalLimit := 2
  redis := false
  nonneg := by decide

def threeSubmits : List Ev :=
  [.submit ⟨"event-deduplicator", "schedule"⟩, .submit ⟨"event-deduplicator", "external"⟩, .submit ⟨"summarizer", "external"⟩]

/-- In the state they lead to, nothing is handed over, and only submits of the first
    agent are queued for their agent. -/
def oneInside (s : St) : Bool :=
  s.globalSem.waiters.all (!·.woken) && (s.agentSems "event-deduplicator").waiters.all (!·.woken) &&
    s.subs.all (fun u => u.pc != .waitAgent || u.req.agentId == "event-deduplicator")

theorem noHandOver_of_oneInside (h : Run (step x) (fun _ _ => True) (init x) s) (ho : oneInside s = true) : NoHandOver s := by
  simp only [oneInside, Bool.and_eq_true, List.all_eq_true, Bool.not_eq_true', Bool.or_eq_true, bne_iff_ne, beq_iff_eq] at ho
  obtain ⟨⟨hg, ha⟩, hs⟩ := ho
  refine ⟨hg, fun id w hw => ?_⟩
  by_cases e : id = "event-deduplicator"
  · subst e
    exact ha w hw
  · -- no other agent has a queue
    have hq := ((inv_run h (inv_init x)).agent id).queue w.task
    have hm := hq.mp (List.mem_map_of_mem hw)
    rw [List.getElem?_map, Option.map_eq_some_iff] at hm
    obtain ⟨u, hu, hst⟩ := hm
    unfold agentStand at hst
    split at hst
    · rename_i hid
      rcases hs u (List.mem_of_getElem? hu) with hne | he
      · cases hp : u.pc with
        | waitAgent => exact absurd hp hne
        | active p => cases p <;> (rw [hp] at hst; cases hst)
        | _ => rw [hp] at hst; cases hst
      · exact absurd (hid ▸ he) e
    · cases hst

/-- The third submit waits without a run of its agent: all permits are held, one of them
    by a submit queued for the other agent. -/
theorem waits_only_when_full_behind_queue :
    ∃ s, Run (step twoAgents) (fun _ _ => True) (init twoAgents) s ∧ s.inside "summarizer" = 0 ∧
      s.subs.countP holdsGlobal = 2 ∧ ∀ v ∈ s.subs, holdsGlobal v = true →
        isRunning v = true ∨ (v.pc = .waitAgent ∧ s.inside v.req.agentId = twoAgents.permits v.req.agentId) := by
  obtain ⟨s, hr, hp⟩ := Run.exists_of_exec (step twoAgents) (fun _ _ => True) (init twoAgents) threeSubmits
    (fun s => oneInside s && s.subs.any (fun u => waiting u && u.req.agentId == "summarizer") &&
      s.inside "summarizer" == 0) (by decide)
  simp only [Bool.and_eq_true, List.any_eq_true, beq_iff_eq] at hp
  obtain ⟨⟨ho, u, hu, hw, hid⟩, hi⟩ := hp
  refine ⟨s, hr, hi, ?_⟩
  rcases waits_only_when_full rfl hr (noHandOver_of_oneInside hr ho) hu hw with hown | hall
  · rw [hid, hi] at hown
    exact absurd hown (by decide)
  · exact hall

/-- No hand-over is pending, one run is inside `runner.run`, and the submit for the idle
    agent waits. -/
theorem queued_submits_block :
    ∃ s, Run (step twoAgents) (fun _ _ => True) (init twoAgents) s ∧ NoHandOver s ∧
      ∃ u ∈ s.subs, waiting u = true ∧ u.req.agentId = "summarizer" ∧ s.inside "summarizer" = 0 ∧
        s.subs.countP isRunning = 1 := by
  obtain ⟨s, hr, hp⟩ := Run.exists_of_exec (step twoAgents) (fun _ _ => True) (init twoAgents) threeSubmits
    (fun s => oneInside s && s.subs.any (fun u => waiting u && u.req.agentId == "summarizer") &&
      s.inside "summarizer" == 0 && s.subs.countP isRunning == 1) (by decide)
  simp only [Bool.and_eq_true, List.any_eq_true, beq_iff_eq] at hp
  obtain ⟨⟨⟨ho, u, hu, hw, hid⟩, hi⟩, hc⟩ := hp
  exact ⟨s, hr, noHandOver_of_oneInside hr ho, u, hu, hw, hid, hi, hc⟩

end SagaAgents.Triggers.Executor
