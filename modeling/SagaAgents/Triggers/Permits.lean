/-
  SagaAgents.Triggers.Permits — the permits of one `RunExecutor` are conserved and never
  wait on one another, with or without Redis.

  A submit holds its global permit while it queues for its agent's. The nesting is the
  same for all submits, so who waits for whom goes one way: a submit queued for a global
  permit waits for submits past that queue, a submit queued for its agent waits for
  submits past both, and those wait for nothing but a reply or the end of their run.

  Proved, over every run of any number of submits, whatever ends them:
  - `permits_conserved`: never more runs than the global limit, nor than the agent's; the
    gauge is the number of runs under way; and all permits are back once no submit is
    in progress.
  - `submit_progresses`: with limits of at least 1, some submit can go on while one has
    not ended, and a run of such steps ends them all (`rank_step`: no run of them goes on
    for ever).
-/

import Mathlib.Algebra.GroupWithZero.Nat
import SagaAgents.Lib.Tasks
import SagaAgents.Triggers.Limits

namespace SagaAgents.Triggers.Executor

open Lib Lib.Semaphore

variable {x : RunExecutor} {s : St} {u : Sub}

def hasEnded (u : Sub) : Bool :=
  match u.pc with
  | .ended _ => true
  | _ => false

/-- No submit is in progress. -/
def St.idle (s : St) : Prop := ∀ u ∈ s.subs, hasEnded u = true

instance (s : St) : Decidable s.idle := inferInstanceAs (Decidable (∀ u ∈ s.subs, _ = true))

/-- The submit is past its run, or was turned away. -/
def Pc.past : Pc → Bool
  | .releasing _ | .ended _ => true
  | _ => false

/-- The submit has started its run and has neither finished nor aborted it. -/
def underWay (u : Sub) : Bool := u.entered && !u.pc.past

/-! ## Conservation -/

theorem ended_out (h : hasEnded u = true) : globalStand u = .out ∧ ∀ id, agentStand id u = .out := by
  unfold hasEnded at h
  split at h
  · rename_i e he
    refine ⟨by simp [globalStand, he, Pc.globalStand], fun id => ?_⟩
    unfold agentStand
    rw [he]
    split <;> rfl
  · cases h

theorem Inv.idle (h : Inv x s) (hi : s.idle) :
    s.globalSem = Semaphore.init x.globalLimit ∧ (∀ id, s.agentSems id = Semaphore.init (x.permits id)) ∧
      s.inflight = 0 := by
  refine ⟨h.global.unused fun c hc => ?_, fun id => (h.agent id).unused fun c hc => ?_, ?_⟩
  · obtain ⟨u, hu, e⟩ := List.mem_map.mp hc
    rw [← e, (ended_out (hi u hu)).1]
  · obtain ⟨u, hu, e⟩ := List.mem_map.mp hc
    rw [← e, (ended_out (hi u hu)).2 id]
  · have hz : s.subs.countP isRunning = 0 := List.countP_eq_zero.mpr fun u hu hr => by
      have := hi u hu
      unfold isRunning at hr
      unfold hasEnded at this
      split at hr
      · rename_i hp; rw [hp] at this; cases this
      · cases hr
    rw [h.inflight, hz]
    rfl

theorem running_globalStand (h : isRunning u = true) : globalStand u = .holds := by
  unfold isRunning at h
  split at h
  · rename_i hp; simp [globalStand, hp, Pc.globalStand]
  · cases h

theorem running_agentStand (h : isRunning u = true) : agentStand u.req.agentId u = .holds := by
  unfold isRunning at h
  split at h
  · rename_i hp; simp [agentStand, hp, Pc.agentStand]
  · cases h

theorem countP_le_permits {n : Nat} {f : Sub → Stand} {l : List Sub} {sem : Semaphore Nat} (h : Serves n (l.map f) sem)
    {p : Sub → Bool} (hp : ∀ u, p u = true → f u = .holds) : l.countP p ≤ n := by
  have hle : l.countP p ≤ l.countP fun u => f u == .holds :=
    List.countP_mono_left fun u _ hu => by simp [hp u hu]
  rw [← count_map] at hle
  exact hle.trans h.holders_le

theorem Inv.caps (h : Inv x s) : s.subs.countP isRunning ≤ x.globalLimit ∧ ∀ id, s.inside id ≤ x.permits id := by
  refine ⟨countP_le_permits h.global fun u hu => running_globalStand hu, fun id => ?_⟩
  refine countP_le_permits (h.agent id) fun u hu => ?_
  simp only [Bool.and_eq_true, beq_iff_eq] at hu
  rw [← hu.2]
  exact running_agentStand hu.1

/-- A submit that runs has entered its run, and one that has entered it runs or is past. -/
theorem underWay_running {ok : St → Ev → Prop} (h : Run (step x) ok (init x) s) : ∀ u ∈ s.subs, underWay u = isRunning u := by
  have hv : ∀ u e v, Moves x u e v → (u.pc.acquiring ∨ u.pc = .locking → u.entered = false) →
      (u.pc = .running → u.entered = true) →
      (v.pc.acquiring ∨ v.pc = .locking → v.entered = false) ∧ (v.pc = .running → v.entered = true) := by
    intro u e v hm h1 h2
    cases hm with
    | queueGlobal hp _ => exact ⟨fun _ => h1 (Or.inl (by simp [hp, Pc.acquiring])), fun h => (by cases h)⟩
    | queueAgent hp _ => exact ⟨fun _ => h1 (Or.inl hp), fun h => (by cases h)⟩
    | lock hp _ _ => exact ⟨fun _ => h1 (Or.inl hp), fun h => (by cases h)⟩
    | start _ _ _ => exact ⟨fun h => (by rcases h with h | h <;> cases h), fun _ => rfl⟩
    | locked _ => exact ⟨fun h => (by rcases h with h | h <;> cases h), fun _ => rfl⟩
    | _ => exact ⟨fun h => (by rcases h with h | h <;> cases h), fun h => (by cases h)⟩
  have hall := subs_run (P := fun u => (u.pc.acquiring ∨ u.pc = .locking → u.entered = false) ∧
    (u.pc = .running → u.entered = true)) (fun _ _ v _ hm => hv _ _ v hm (fun _ => rfl) (fun h => (by cases h)))
    (fun _ _ _ v _ hu hm => hv _ _ v hm hu.1 hu.2) h
  intro u hu
  obtain ⟨h1, h2⟩ := hall u hu
  unfold underWay isRunning
  cases hp : u.pc with
  | active p => exact absurd hp (not_active h u hu p)
  | waitGlobal => simp [h1 (Or.inl (by simp [hp, Pc.acquiring]))]
  | waitAgent => simp [h1 (Or.inl (by simp [hp, Pc.acquiring]))]
  | locking => simp [h1 (Or.inr hp)]
  | running => simp [h2 hp, Pc.past]
  | releasing e => simp [Pc.past]
  | ended e => simp [Pc.past]

/-- The caps hold and the gauge counts the runs under way, in every state; and whenever no
    submit is in progress, all permits are back and the gauge is at 0. -/
theorem permits_conserved (h : Run (step x) (fun _ _ => True) (init x) s) :
    s.subs.countP isRunning ≤ x.globalLimit ∧
      (∀ d ∈ x.definitions.rows, (s.inside d.id : Int) ≤ d.limits.maxConcurrentRuns) ∧
      0 ≤ s.inflight ∧ s.inflight = s.subs.countP underWay ∧
      (s.idle → s.globalSem = Semaphore.init x.globalLimit ∧
        (∀ id, s.agentSems id = Semaphore.init (x.permits id)) ∧ s.inflight = 0) := by
  have hinv := inv_run h (inv_init x)
  obtain ⟨hg, ha⟩ := hinv.caps
  have hc : s.subs.countP underWay = s.subs.countP isRunning :=
    List.countP_congr fun u hu => by rw [underWay_running h u hu]
  refine ⟨hg, fun d hd => ?_, ?_, ?_, hinv.idle⟩
  · have hp : x.permits d.id = d.limits.maxConcurrentRuns.toNat := by
      rw [RunExecutor.permits, Keyed.get_of_mem hd]
      rfl
    have := ha d.id
    have hn := x.nonneg d hd
    omega
  · rw [hinv.inflight]
    omega
  · rw [hinv.inflight, hc]

/-- The first run raises, the second submit is cancelled in its agent's queue and the
    third one's run ends: everything is given back. -/
theorem permits_conserved_after_failures :
    ∃ s, Run (step twoAgents) (fun _ _ => True) (init twoAgents) s ∧ s.idle ∧ s.subs.length = 3 ∧
      s.globalSem = Semaphore.init 2 ∧ s.inflight = 0 := by
  obtain ⟨s, hr, hp⟩ := Run.exists_of_exec (step twoAgents) (fun _ _ => True) (init twoAgents)
    (threeSubmits ++ [.runEnd 0 .raised, .cancel 1, .resumeGlobal 2, .runEnd 2 (.report true)])
    (fun s => decide s.idle && s.subs.length == 3) (by decide)
  simp only [Bool.and_eq_true, beq_iff_eq, decide_eq_true_iff] at hp
  obtain ⟨-, -, -, -, hback⟩ := permits_conserved hr
  obtain ⟨hg, -, hi⟩ := hback hp.1
  exact ⟨s, hr, hp.1, hp.2, hg, hi⟩

/-! ## Progress -/

/-- A permit is taken, Redis answers, or a run ends: no new submit and no cancellation. -/
def Ev.goesOn : Ev → Bool
  | .submit _ | .cancel _ => false
  | _ => true

/-- The submit waits for nobody: its permit was handed over, or the environment has its
    next step. -/
def CanGoOn (s : St) (i : Nat) (u : Sub) : Prop :=
  match u.pc with
  | .waitGlobal => s.globalSem.isWoken i = true
  | .waitAgent => (s.agentSems u.req.agentId).isWoken i = true
  | .locking | .running | .releasing _ => True
  | .active _ | .ended _ => False

/-- The awaits a submit has before it, its present one included. -/
def Pc.rank : Pc → Nat
  | .active _ => 6
  | .waitGlobal => 5
  | .waitAgent => 4
  | .locking => 3
  | .running => 2
  | .releasing _ => 1
  | .ended _ => 0

def St.rank (s : St) : Nat := (s.subs.map fun u => u.pc.rank).sum

theorem canGoOn_step {i : Nat} (hu : s.subs[i]? = some u) (hc : CanGoOn s i u) :
    ∃ e t, e.goesOn = true ∧ step x s e = some t := by
  unfold CanGoOn at hc
  cases hp : u.pc with
  | active p => rw [hp] at hc; cases hc
  | ended e => rw [hp] at hc; cases hc
  | waitGlobal =>
    rw [hp] at hc
    exact ⟨.resumeGlobal i, _, rfl, by simp only [step, Ev.index, Option.bind_some, hu, move, hp, hc, and_self, if_true]; rfl⟩
  | waitAgent =>
    rw [hp] at hc
    exact ⟨.resumeAgent i, _, rfl, by simp only [step, Ev.index, Option.bind_some, hu, move, hp, hc, and_self, if_true]; rfl⟩
  | locking => exact ⟨.setReply i .truthy, _, rfl, by simp only [step, Ev.index, Option.bind_some, hu, move, hp, if_true]; rfl⟩
  | running => exact ⟨.runEnd i .raised, _, rfl, by simp only [step, Ev.index, Option.bind_some, hu, move, hp, if_true]; rfl⟩
  | releasing e => exact ⟨.evalReply i true, _, rfl, by simp only [step, Ev.index, Option.bind_some, hu, move, hp]; rfl⟩

/-- A submit that was not turned away at once has a definition. -/
theorem known_run {ok : St → Ev → Prop} (h : Run (step x) ok (init x) s) :
    ∀ u ∈ s.subs, u.pc = .ended .skipped ∨ (x.runnable u.req).isSome = true := by
  refine subs_run (P := fun u => u.pc = .ended .skipped ∨ (x.runnable u.req).isSome = true) (fun _ req v _ hm => ?_)
    (fun _ e u v _ hu hm => ?_) h
  · cases hm with
    | skip _ _ => exact Or.inl rfl
    | queueGlobal _ hd => exact Or.inr hd
    | queueAgent hp hd => exact Or.inr (hd rfl)
    | lock hp hd _ => exact Or.inr (hd rfl)
    | start hp hd _ => exact Or.inr (hd rfl)
  · have hk : u.pc ≠ .ended .skipped → (x.runnable u.req).isSome = true := fun hne => hu.resolve_left hne
    have hacq : u.pc.acquiring → (x.runnable u.req).isSome = true := fun hp =>
      hk fun e => by rw [e] at hp; cases hp
    cases hm with
    | skip _ _ => exact Or.inl rfl
    | queueGlobal _ hd => exact Or.inr hd
    | queueAgent hp _ => exact Or.inr (hacq hp)
    | lock hp _ _ => exact Or.inr (hacq hp)
    | start hp _ _ => exact Or.inr (hacq hp)
    | cancelled hp =>
      refine Or.inr (hk fun e => ?_)
      rcases hp with hp | hp | hp | ⟨e', hp⟩ <;> (rw [hp] at e; cases e)
    | unlocked e hp => exact Or.inr (hk (by rw [hp]; exact fun h => by cases h))
    | _ hp => exact Or.inr (hk (by rw [hp]; exact fun h => by cases h))

theorem queued_global (h : globalStand u = .queued) : u.pc = .waitGlobal := by
  unfold globalStand at h
  cases hp : u.pc with
  | waitGlobal => rfl
  | active p => cases p <;> (rw [hp] at h; cases h)
  | _ => rw [hp] at h; cases h

theorem queued_agent {id : String} (h : agentStand id u = .queued) : u.req.agentId = id ∧ u.pc = .waitAgent := by
  unfold agentStand at h
  split at h
  · rename_i e
    refine ⟨e, ?_⟩
    cases hp : u.pc with
    | waitAgent => rfl
    | active p => cases p <;> (rw [hp] at h; cases h)
    | _ => rw [hp] at h; cases h
  · cases h

/-- A submit that is past both queues waits for nobody. -/
theorem canGoOn_agentHolder {i : Nat} (ha : ∀ p, u.pc ≠ .active p) {id : String} (h : agentStand id u = .holds) :
    CanGoOn s i u := by
  unfold agentStand at h
  unfold CanGoOn
  split at h
  · cases hp : u.pc with
    | active p => exact absurd hp (ha p)
    | locking => trivial
    | running => trivial
    | releasing e => trivial
    | _ => rw [hp] at h; cases h
  · cases h

variable {ok : St → Ev → Prop}

/-- A submit queued for its agent: somebody with a permit of that agent can go on. -/
theorem agentQueue_goes_on (hd : ∀ d ∈ x.definitions.rows, 1 ≤ d.limits.maxConcurrentRuns)
    (h : Run (step x) ok (init x) s) (hu : u ∈ s.subs) (hp : u.pc = .waitAgent) :
    ∃ i v, s.subs[i]? = some v ∧ CanGoOn s i v := by
  obtain ⟨i, hi⟩ := List.getElem?_of_mem hu
  have hserves := (inv_run h (inv_init x)).agent u.req.agentId
  have hpos : 1 ≤ x.permits u.req.agentId := by
    have hk := (known_run h u hu).resolve_left (by rw [hp]; exact fun h => by cases h)
    obtain ⟨d, hf⟩ := Option.isSome_iff_exists.mp hk
    have hg := (Option.filter_eq_some_iff.mp hf).1
    have := hd d (Keyed.get_some hg).1
    simp only [RunExecutor.permits, hg, Option.elim_some]
    omega
  have hq : (s.subs.map (agentStand u.req.agentId))[i]? = some .queued := by
    simp [hi, agentStand, hp, Pc.agentStand]
  rcases hserves.woken_or_held hpos hq with ⟨j, hj⟩ | hheld
  · have hjq := (hserves.queue j).mp (isWoken_mem hj)
    rw [List.getElem?_map, Option.map_eq_some_iff] at hjq
    obtain ⟨v, hv, hst⟩ := hjq
    obtain ⟨hid, hvp⟩ := queued_agent hst
    exact ⟨j, v, hv, by simpa [CanGoOn, hvp, hid] using hj⟩
  · obtain ⟨v, hv, hst⟩ := List.mem_map.mp hheld
    obtain ⟨j, hj⟩ := List.getElem?_of_mem hv
    exact ⟨j, v, hj, canGoOn_agentHolder (not_active h v hv) hst⟩

/-- While a submit has not ended, some submit can go on. -/
theorem some_canGoOn (hg : 1 ≤ x.globalLimit) (hd : ∀ d ∈ x.definitions.rows, 1 ≤ d.limits.maxConcurrentRuns)
    (h : Run (step x) ok (init x) s) (hs : ¬ s.idle) : ∃ i v, s.subs[i]? = some v ∧ CanGoOn s i v := by
  simp only [St.idle, not_forall, exists_prop] at hs
  obtain ⟨u, hu, hne⟩ := hs
  obtain ⟨i, hi⟩ := List.getElem?_of_mem hu
  cases hp : u.pc with
  | active p => exact absurd hp (not_active h u hu p)
  | ended e => exact absurd (by simp [hasEnded, hp]) hne
  | waitAgent => exact agentQueue_goes_on hd h hu hp
  | waitGlobal =>
    have hserves := (inv_run h (inv_init x)).global
    have hq : (s.subs.map globalStand)[i]? = some .queued := by
      simp [hi, globalStand, hp, Pc.globalStand]
    rcases hserves.woken_or_held hg hq with ⟨j, hj⟩ | hheld
    · have hjq := (hserves.queue j).mp (isWoken_mem hj)
      rw [List.getElem?_map, Option.map_eq_some_iff] at hjq
      obtain ⟨v, hv, hst⟩ := hjq
      exact ⟨j, v, hv, by simpa [CanGoOn, queued_global hst] using hj⟩
    · -- a global permit is held, by a submit past both queues or in its agent's
      obtain ⟨v, hv, hst⟩ := List.mem_map.mp hheld
      obtain ⟨j, hj⟩ := List.getElem?_of_mem hv
      cases hvp : v.pc with
      | active p => exact absurd hvp (not_active h v hv p)
      | waitAgent => exact agentQueue_goes_on hd h hv hvp
      | waitGlobal => rw [globalStand, hvp] at hst; cases hst
      | ended e => rw [globalStand, hvp] at hst; cases hst
      | _ => exact ⟨j, v, hj, by simp [CanGoOn, hvp]⟩
  | _ => exact ⟨i, u, hi, by simp [CanGoOn, hp]⟩

theorem enterBody_rank (i : Nat) (u : Sub) (s : St) :
    ∃ v, (enterBody x i u s).subs = s.subs.set i v ∧ v.pc.rank ≤ 3 := by
  unfold enterBody
  split
  · exact ⟨_, rfl, le_refl 3⟩
  · exact ⟨_, rfl, by show 2 ≤ 3; omega⟩

theorem acquireAgent_rank (i : Nat) (u : Sub) (s : St) :
    ∃ v, (acquireAgent x i u s).subs = s.subs.set i v ∧ v.pc.rank ≤ 4 := by
  simp only [acquireAgent]
  split
  · obtain ⟨v, hv, hr⟩ := enterBody_rank (x := x) i u
      { s with agentSems := Function.update s.agentSems u.req.agentId ((s.agentSems u.req.agentId).acquire i).2 }
    exact ⟨v, hv, by omega⟩
  · exact ⟨_, rfl, le_refl 4⟩

theorem rank_move {i : Nat} {e : Ev} {t : St} (he : e.goesOn = true) (hm : move x s i u e = some t) :
    ∃ v, t.subs = s.subs.set i v ∧ v.pc.rank < u.pc.rank := by
  cases move_cases hm with
  | resumeGlobal j hp =>
    obtain ⟨v, hv, hr⟩ := acquireAgent_rank (x := x) i u { s with globalSem := s.globalSem.resume i }
    refine ⟨v, hv, ?_⟩
    rw [hp]
    show v.pc.rank < 5
    omega
  | resumeAgent j hp =>
    obtain ⟨v, hv, hr⟩ := enterBody_rank (x := x) i u
      { s with agentSems := Function.update s.agentSems u.req.agentId ((s.agentSems u.req.agentId).resume i) }
    refine ⟨v, hv, ?_⟩
    rw [hp]
    show v.pc.rank < 4
    omega
  | setReply j r hp =>
    rw [hp]
    cases r with
    | truthy => exact ⟨_, rfl, by show 2 < 3; omega⟩
    | falsy => exact ⟨_, rfl, by show 0 < 3; omega⟩
    | raised => exact ⟨_, rfl, by show 0 < 3; omega⟩
  | runEnd j r hp =>
    rw [hp]
    unfold finishRun
    split
    · exact ⟨_, rfl, by show 1 < 2; omega⟩
    · exact ⟨_, rfl, by show 0 < 2; omega⟩
  | evalReply j b e hp =>
    rw [hp]
    exact ⟨_, rfl, by show 0 < 1; omega⟩
  | cancelGlobal | cancelAgent | cancelCall => cases he

/-- Each of these steps brings its submit nearer to its end, and leaves the others. -/
theorem rank_step {e : Ev} {t : St} (he : e.goesOn = true) (h : step x s e = some t) : t.rank < s.rank := by
  rcases step_move h with ⟨req, rfl, -⟩ | ⟨i, u, -, hu, hm⟩
  · cases he
  · obtain ⟨v, hv, hr⟩ := rank_move he hm
    rw [St.rank, hv]
    exact Tasks.sum_move_lt hu hr

theorem some_goesOn (hg : 1 ≤ x.globalLimit) (hd : ∀ d ∈ x.definitions.rows, 1 ≤ d.limits.maxConcurrentRuns)
    (h : Run (step x) (fun _ _ => True) (init x) s) (hs : ¬ s.idle) : ∃ e t, e.goesOn = true ∧ step x s e = some t := by
  obtain ⟨i, u, hu, hc⟩ := some_canGoOn hg hd h hs
  exact canGoOn_step hu hc

/-- Steps of submits that go on bring all of them to their end. -/
theorem all_end (hg : 1 ≤ x.globalLimit) (hd : ∀ d ∈ x.definitions.rows, 1 ≤ d.limits.maxConcurrentRuns)
    (h : Run (step x) (fun _ _ => True) (init x) s) : ∃ t, Run (step x) (fun _ e => e.goesOn = true) s t ∧ t.idle := by
  refine Run.exists_done (I := fun s => Run (step x) (fun _ _ => True) (init x) s) St.rank
    (fun t e u ht _ hst => ht.tail e trivial hst) (fun s h hs => ?_) h
  obtain ⟨e, t, he, hst⟩ := some_goesOn hg hd h hs
  exact ⟨e, t, he, hst, rank_step he hst⟩

/-- With limits of at least 1, some submit can go on while one has not ended, and steps
    of submits that go on bring all of them to their end. -/
theorem submit_progresses (hg : 1 ≤ x.globalLimit) (hd : ∀ d ∈ x.definitions.rows, 1 ≤ d.limits.maxConcurrentRuns)
    (h : Run (step x) (fun _ _ => True) (init x) s) (hs : ¬ s.idle) :
    (∃ i u, s.subs[i]? = some u ∧ CanGoOn s i u) ∧ (∃ e t, e.goesOn = true ∧ step x s e = some t) ∧
      ∃ t, Run (step x) (fun _ e => e.goesOn = true) s t ∧ t.idle :=
  ⟨some_canGoOn hg hd h hs, some_goesOn hg hd h hs, all_end hg hd h⟩

/-! Two submits for the first agent and one for the second, which queues behind them. -/

theorem submit_progresses_behind_queue :
    ∃ s, Run (step twoAgents) (fun _ _ => True) (init twoAgents) s ∧ s.inside "summarizer" = 0 ∧
      (∃ e t, e.goesOn = true ∧ step twoAgents s e = some t) ∧
      ∃ t, Run (step twoAgents) (fun _ e => e.goesOn = true) s t ∧ t.idle := by
  obtain ⟨s, hr, hp⟩ := Run.exists_of_exec (step twoAgents) (fun _ _ => True) (init twoAgents) threeSubmits
    (fun s => s.inside "summarizer" == 0 && !decide s.idle) (by decide)
  simp only [Bool.and_eq_true, beq_iff_eq, Bool.not_eq_true', decide_eq_false_iff_not] at hp
  obtain ⟨-, hgo, hend⟩ := submit_progresses (by decide) (by decide) hr hp.2
  exact ⟨s, hr, hp.1, hgo, hend⟩

end SagaAgents.Triggers.Executor
