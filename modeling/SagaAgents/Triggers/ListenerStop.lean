/-
  SagaAgents.Triggers.ListenerStop — stopping the `RedisListener` (`RedisListener.run` and
  `stop`, and the shutdown in `run_service`).

  `run_service` starts a task for `run`. It makes the pub/sub object, waits for its
  `subscribe`, and then makes the tasks of the listener loop and the tick loop. When the
  server has stopped, `run_service` awaits `stop`, and then cancels and awaits the task of
  `run` if it is not done. `stop` looks at the two tasks once: it cancels and awaits each
  one that is not done, and then waits for `unsubscribe` and `aclose`. Any other task may
  go on at each of these awaits. A task that was cancelled gets the `CancelledError` where
  it waits; only the tick loop can go on after it, if the submit that it waits for ends in
  another way. What the loops do is `RedisListener.step`.

  Proved, over every run:
  - `stop_stops`: if `run` does not come back from `subscribe` while `stop` waits for
    `unsubscribe` or `aclose`, then once the shutdown has finished neither loop is running,
    and no debouncer is marked and no request submitted any more.
  - `late_loops_run`: loops that `run` makes there are never cancelled.
    `stop_misses_tick_loop` is such a run.
-/

import SagaAgents.Triggers.RedisListener

namespace SagaAgents.Triggers.ListenerStop

open Lib
open Config (Definitions)
open RedisListener (TriggerState Submission)

variable {T : Type}

/-! ## Tasks -/

inductive Outcome where
  | returned
  | raised
  | cancelled
  deriving DecidableEq, Repr

inductive Task where
  | running (cancelRequested : Bool)
  | ended (o : Outcome)
  deriving DecidableEq, Repr

def Task.done : Task → Bool
  | .running _ => false
  | .ended _ => true

def Task.cancel : Task → Task
  | .running _ => .running true
  | .ended o => .ended o

/-- The cancellation has been taken where the task waited, and it goes on. -/
def Task.goOn : Task → Task
  | .running _ => .running false
  | .ended o => .ended o

/-- How a task can end, given whether it was asked to: with a cancellation requested, its
    await does not return. -/
def endsSo (cancelRequested : Bool) : Outcome → Bool
  | .returned => !cancelRequested
  | .raised => true
  | .cancelled => cancelRequested

/-! ## The listener and the shutdown -/

/-- Where the shutdown of `run_service` is. `aborted`: an exception left it. -/
inductive Stage where
  | serving
  | awaitingListener
  | awaitingTick
  | unsubscribing
  | closing
  | awaitingRun
  | finished
  | aborted
  deriving DecidableEq, Repr

structure St (T : Type) where
  runTask : Task
  /-- `_pubsub` is set: `run` has started. -/
  pubsub : Bool
  /-- `_listener_task` and `_tick_task`. -/
  tasks : Option (Task × Task)
  triggers : RedisListener.St T
  shutdown : Stage

inductive Ev (T : Type) where
  | runStarts
  /-- `run` comes back from `subscribe`. -/
  | subscribed
  | runEnds (o : Outcome)
  /-- The loops, and the clock. -/
  | loops (e : RedisListener.Ev T)
  | listenerEnds (o : Outcome)
  | tickEnds
  /-- `server.serve()` is over. -/
  | shutdown
  /-- The task that the shutdown awaits is over. -/
  | awaited
  | unsubscribed (raises : Bool)
  | closed (raises : Bool)
  /-- The task of `run_service` is cancelled itself. -/
  | interrupted
  deriving DecidableEq, Repr

/-- What `run` does once it has subscribed. -/
def makeTasks (s : St T) : St T :=
  { s with tasks := some (.running false, .running false), runTask := .ended .returned }

/-- `run_service` after `stop`. -/
def afterStop (s : St T) : St T :=
  if s.runTask.done then { s with shutdown := .finished }
  else { s with runTask := s.runTask.cancel, shutdown := .awaitingRun }

def unsubscribe (s : St T) : St T := if s.pubsub then { s with shutdown := .unsubscribing } else afterStop s

def stopTick (s : St T) (l t : Task) : St T :=
  if t.done then unsubscribe s else { s with tasks := some (l, t.cancel), shutdown := .awaitingTick }

/-- `stop`, to its first await. -/
def stop (s : St T) : St T :=
  match s.tasks with
  | none => unsubscribe s
  | some (l, t) =>
    if l.done then stopTick s l t else { s with tasks := some (l.cancel, t), shutdown := .awaitingListener }

/-- `await task` under `suppress(CancelledError)`: an exception of the task is raised again. -/
def resumeWith (s u : St T) : Task → Option (St T)
  | .running _ => none
  | .ended .raised => some { s with shutdown := .aborted }
  | .ended _ => some u

def awaited (s : St T) : Option (St T) :=
  match s.shutdown, s.tasks with
  | .awaitingListener, some (l, t) => resumeWith s (stopTick s l t) l
  | .awaitingTick, some (_, t) => resumeWith s (unsubscribe s) t
  | .awaitingRun, _ => resumeWith s { s with shutdown := .finished } s.runTask
  | _, _ => none

/-- A cancellation of `run_service` reaches the task it awaits. If that is over, the
    `CancelledError` comes in place of its result, and is suppressed. -/
def interrupted (s : St T) : Option (St T) :=
  match s.shutdown, s.tasks with
  | .awaitingListener, some (l, t) =>
    some (if l.done then stopTick s l t else { s with tasks := some (l.cancel, t) })
  | .awaitingTick, some (l, t) => some (if t.done then unsubscribe s else { s with tasks := some (l, t.cancel) })
  | .awaitingRun, _ =>
    some (if s.runTask.done then { s with shutdown := .finished } else { s with runTask := s.runTask.cancel })
  | .unsubscribing, _ | .closing, _ => some { s with shutdown := .aborted }
  | _, _ => none

/-- The loop that an event belongs to is running; with a cancellation requested, the
    listener loop gets no message and the tick loop neither wakes up nor enters a run. -/
def enabled (s : St T) : RedisListener.Ev T → Bool
  | .clock _ => true
  | .message _ => s.tasks.any fun p => p.1 == .running false
  | .wake | .enters => s.tasks.any fun p => p.2 == .running false
  | .check | .ends _ => s.tasks.any fun p => !p.2.done

/-- A submit that ends as the loop expects has taken the cancellation, if there was one. -/
def tasksAfter (tasks : Option (Task × Task)) : RedisListener.Ev T → Option (Task × Task)
  | .ends _ => tasks.map fun p => (p.1, p.2.goOn)
  | _ => tasks

/-- Where a `CancelledError` ends the tick loop: in its `sleep`, and from a `submit`. -/
def tickLeaves (cancelRequested : Bool) : RedisListener.Loop → Bool
  | .sleeping => cancelRequested
  | .checking _ => false
  | .awaiting _ _ => true

section

variable [CommRing T] [LinearOrder T]

def init (definitions : Definitions) (now : T) : St T :=
  ⟨.running false, false, none, RedisListener.init definitions now, .serving⟩

def step (s : St T) : Ev T → Option (St T)
  | .runStarts => if s.runTask = .running false ∧ s.pubsub = false then some { s with pubsub := true } else none
  | .subscribed => if s.runTask = .running false ∧ s.pubsub = true then some (makeTasks s) else none
  | .runEnds o =>
    match s.runTask with
    | .running c =>
      -- one that was cancelled before it has started does not start
      if o ≠ .returned ∧ endsSo c o = true ∧ (o = .raised → c = false ∨ s.pubsub = true) then
        some { s with runTask := .ended o }
      else none
    | .ended _ => none
  | .loops e =>
    if enabled s e then
      (RedisListener.step s.triggers e).map fun x => { s with triggers := x, tasks := tasksAfter s.tasks e }
    else none
  | .listenerEnds o =>
    match s.tasks with
    | some (.running c, t) => if endsSo c o then some { s with tasks := some (.ended o, t) } else none
    | _ => none
  | .tickEnds =>
    match s.tasks with
    | some (l, .running c) =>
      if tickLeaves c s.triggers.loop then some { s with tasks := some (l, .ended .cancelled) } else none
    | _ => none
  | .shutdown => if s.shutdown = .serving then some (stop s) else none
  | .awaited => awaited s
  | .unsubscribed raises =>
    if s.shutdown = .unsubscribing then some (if raises then afterStop s else { s with shutdown := .closing }) else none
  | .closed _ => if s.shutdown = .closing then some (afterStop s) else none
  | .interrupted => interrupted s

end

/-! ## What is stopped -/

/-- Neither loop is running. -/
def loopsOver (s : St T) : Bool := s.tasks.all fun p => p.1.done && p.2.done

/-- From `s` on to `t`, the listener is stopped: no mark, no submit. -/
structure Stopped (s t : St T) : Prop where
  loops : loopsOver t = true
  states : t.triggers.states = s.triggers.states
  subs : t.triggers.subs = s.triggers.subs

/-- `stop` is past the tasks and waits for the network. -/
def Stage.pastTasks : Stage → Bool
  | .unsubscribing | .closing => true
  | _ => false

/-- `run` does not come back from `subscribe` while `stop` waits for the network. -/
def InTime (s : St T) : Ev T → Prop
  | .subscribed => s.shutdown.pastTasks = false
  | _ => True

instance (s : St T) : (e : Ev T) → Decidable (InTime s e)
  | .subscribed => inferInstanceAs (Decidable (s.shutdown.pastTasks = false))
  | .runStarts | .runEnds _ | .loops _ | .listenerEnds _ | .tickEnds | .shutdown | .awaited | .unsubscribed _ | .closed _
  | .interrupted => inferInstanceAs (Decidable True)

/-! ## What a step changes -/

/-- The steps, with what enables each of them. The shutdown goes on at the end of what it
    waits for, or at a cancellation of `run_service`. -/
inductive Changes [CommRing T] [LinearOrder T] (s : St T) : Ev T → St T → Prop
  | runStarts (hr : s.runTask = .running false) : Changes s .runStarts { s with pubsub := true }
  | subscribed (hr : s.runTask = .running false) : Changes s .subscribed (makeTasks s)
  | runEnds {c : Bool} (o : Outcome) (hr : s.runTask = .running c) : Changes s (.runEnds o) { s with runTask := .ended o }
  | loops {e : RedisListener.Ev T} {x : RedisListener.St T} (he : enabled s e = true) (hx : RedisListener.step s.triggers e = some x) :
      Changes s (.loops e) { s with triggers := x, tasks := tasksAfter s.tasks e }
  | listenerEnds {c : Bool} {t : Task} (o : Outcome) (hs : s.tasks = some (.running c, t)) :
      Changes s (.listenerEnds o) { s with tasks := some (.ended o, t) }
  | tickEnds {c : Bool} {l : Task} (hs : s.tasks = some (l, .running c)) :
      Changes s .tickEnds { s with tasks := some (l, .ended .cancelled) }
  | shutdown (hst : s.shutdown = .serving) : Changes s .shutdown (stop s)
  | listenerOver {e : Ev T} {l t : Task} (hst : s.shutdown = .awaitingListener) (hs : s.tasks = some (l, t)) (hl : l.done = true) :
      Changes s e (stopTick s l t)
  | tickOver {e : Ev T} {l t : Task} (hst : s.shutdown = .awaitingTick) (hs : s.tasks = some (l, t)) (ht : t.done = true) :
      Changes s e (unsubscribe s)
  | runOver {e : Ev T} (hst : s.shutdown = .awaitingRun) (hd : s.runTask.done = true) :
      Changes s e { s with shutdown := .finished }
  | cancelListener {l t : Task} (hst : s.shutdown = .awaitingListener) (hs : s.tasks = some (l, t)) :
      Changes s .interrupted { s with tasks := some (l.cancel, t) }
  | cancelTick {l t : Task} (hst : s.shutdown = .awaitingTick) (hs : s.tasks = some (l, t)) :
      Changes s .interrupted { s with tasks := some (l, t.cancel) }
  | cancelRun (hst : s.shutdown = .awaitingRun) : Changes s .interrupted { s with runTask := s.runTask.cancel }
  | unsubscribed (hst : s.shutdown = .unsubscribing) : Changes s (.unsubscribed false) { s with shutdown := .closing }
  | leavesStop {e : Ev T} (hst : s.shutdown.pastTasks = true) : Changes s e (afterStop s)
  | aborts {e : Ev T} (hst : s.shutdown ≠ .finished) : Changes s e { s with shutdown := .aborted }

theorem resume_cases {s u v : St T} {t : Task} (h : resumeWith s u t = some v) :
    (t.done = true ∧ v = u) ∨ v = { s with shutdown := .aborted } := by
  unfold resumeWith at h
  split at h
  · cases h
  · cases h
    exact Or.inr rfl
  · cases h
    exact Or.inl ⟨rfl, rfl⟩

section

variable [CommRing T] [LinearOrder T]

theorem awaited_cases {s t : St T} (h : awaited s = some t) : Changes s .awaited t := by
  unfold awaited at h
  split at h
  · rename_i l t' hst hs
    rcases resume_cases h with ⟨hl, e⟩ | e
    · subst e
      exact .listenerOver hst hs hl
    · subst e
      exact .aborts (by rw [hst]; decide)
  · rename_i l t' hst hs
    rcases resume_cases h with ⟨ht, e⟩ | e
    · subst e
      exact .tickOver hst hs ht
    · subst e
      exact .aborts (by rw [hst]; decide)
  · rename_i hst
    rcases resume_cases h with ⟨hd, e⟩ | e
    · subst e
      exact .runOver hst hd
    · subst e
      exact .aborts (by rw [hst]; decide)
  · cases h

theorem interrupted_cases {s t : St T} (h : interrupted s = some t) : Changes s .interrupted t := by
  unfold interrupted at h
  split at h
  · rename_i l t' hst hs
    cases h
    split
    · rename_i hl
      exact .listenerOver hst hs hl
    · exact .cancelListener hst hs
  · rename_i l t' hst hs
    cases h
    split
    · rename_i ht
      exact .tickOver hst hs ht
    · exact .cancelTick hst hs
  · rename_i hst
    cases h
    split
    · rename_i hd
      exact .runOver hst hd
    · exact .cancelRun hst
  · rename_i hst
    cases h
    exact .aborts (by rw [hst]; decide)
  · rename_i hst
    cases h
    exact .aborts (by rw [hst]; decide)
  · cases h

theorem step_cases {s t : St T} {e : Ev T} (h : step s e = some t) : Changes s e t := by
  cases e with
  | runStarts =>
    simp only [step] at h
    split at h
    · rename_i hg; cases h; exact .runStarts hg.1
    · cases h
  | subscribed =>
    simp only [step] at h
    split at h
    · rename_i hg; cases h; exact .subscribed hg.1
    · cases h
  | runEnds o =>
    simp only [step] at h
    split at h
    · rename_i c hr
      split at h
      · cases h; exact .runEnds o hr
      · cases h
    · cases h
  | loops e =>
    simp only [step] at h
    split at h
    · rename_i he
      obtain ⟨x, hx, ht⟩ := Option.map_eq_some_iff.mp h
      subst ht
      exact .loops he hx
    · cases h
  | listenerEnds o =>
    simp only [step] at h
    split at h
    · rename_i c t' hs
      split at h
      · cases h; exact .listenerEnds o hs
      · cases h
    · cases h
  | tickEnds =>
    simp only [step] at h
    split at h
    · rename_i l c hs
      split at h
      · cases h; exact .tickEnds hs
      · cases h
    · cases h
  | shutdown =>
    simp only [step] at h
    split at h
    · rename_i hst; cases h; exact .shutdown hst
    · cases h
  | awaited => exact awaited_cases h
  | unsubscribed raises =>
    simp only [step] at h
    split at h
    · rename_i hst
      cases h
      cases raises with
      | true => exact .leavesStop (by rw [hst]; rfl)
      | false => exact .unsubscribed hst
    · cases h
  | closed raises =>
    simp only [step] at h
    split at h
    · rename_i hst; cases h; exact .leavesStop (by rw [hst]; rfl)
    · cases h
  | interrupted => exact interrupted_cases h

end

@[simp] theorem afterStop_triggers (s : St T) : (afterStop s).triggers = s.triggers := by
  unfold afterStop
  split <;> rfl

@[simp] theorem unsubscribe_triggers (s : St T) : (unsubscribe s).triggers = s.triggers := by
  unfold unsubscribe
  split
  · rfl
  · exact afterStop_triggers s

@[simp] theorem stopTick_triggers (s : St T) (l t : Task) : (stopTick s l t).triggers = s.triggers := by
  unfold stopTick
  split
  · exact unsubscribe_triggers s
  · rfl

@[simp] theorem stop_triggers (s : St T) : (stop s).triggers = s.triggers := by
  unfold stop
  split
  · exact unsubscribe_triggers s
  · split
    · exact stopTick_triggers s _ _
    · rfl

section

variable [CommRing T] [LinearOrder T]

/-- A step is one of the loops, or it leaves the debouncers and the submissions alone. -/
theorem step_triggers {s t : St T} {e : Ev T} (h : step s e = some t) :
    t.triggers = s.triggers ∨ ∃ e', RedisListener.step s.triggers e' = some t.triggers := by
  cases step_cases h with
  | loops he hx => exact Or.inr ⟨_, hx⟩
  | shutdown hst => exact Or.inl (stop_triggers s)
  | listenerOver hst hs hl => exact Or.inl (stopTick_triggers s _ _)
  | tickOver hst hs ht => exact Or.inl (unsubscribe_triggers s)
  | leavesStop hst => exact Or.inl (afterStop_triggers s)
  | _ => exact Or.inl rfl

/-- What the loops do under `run` and `stop` is a run of the loops alone. -/
theorem listener_run (definitions : Definitions) (now : T) {ok : St T → Ev T → Prop} {s : St T}
    (h : Run step ok (init definitions now) s) :
    Run RedisListener.step (fun _ _ => True) (RedisListener.init definitions now) s.triggers := by
  refine h.simulate (I := fun _ => True) St.triggers (fun _ _ _ _ _ _ => trivial) (fun s e t _ _ hs => ?_) trivial
  rcases step_triggers hs with e1 | ⟨e', e2⟩
  · rw [e1]
    exact .refl _
  · exact .single e' trivial e2

end

/-! ## Where the loops are over -/

/-- What the shutdown has reached, stage by stage. -/
def Reached (s : St T) : Stage → Prop
  | .serving | .aborted => True
  | .awaitingListener => s.tasks.isSome = true
  | .awaitingTick => s.tasks.any (·.1.done) = true
  | .unsubscribing | .closing => loopsOver s = true
  | .awaitingRun => loopsOver s = true ∧ s.runTask ≠ .running false
  | .finished => loopsOver s = true ∧ s.runTask.done = true

structure Inv (s : St T) : Prop where
  /-- The tasks are made when `run` ends. -/
  made : s.tasks.isSome = true → s.runTask = .ended .returned
  reached : Reached s s.shutdown

theorem cancel_ne (t : Task) : t.cancel ≠ .running false := by
  cases t with
  | running c => exact fun h => by cases h
  | ended o => exact fun h => by cases h

theorem goOn_done (t : Task) : t.goOn.done = t.done := by
  cases t with
  | running c => rfl
  | ended o => rfl

theorem done_ne {t : Task} (h : t.done = true) (c : Bool) : t ≠ .running c := by
  intro e
  subst e
  cases h

/-- While `run` is not over there are no tasks. -/
theorem Inv.tasks_none {s : St T} (h : Inv s) {c : Bool} (hr : s.runTask = .running c) : s.tasks = none := by
  cases hs : s.tasks with
  | none => rfl
  | some p =>
    have := h.made (by rw [hs]; rfl)
    rw [hr] at this
    cases this

/-- While `stop` waits for the network, the loops are over. -/
theorem Inv.pastTasks {s : St T} (h : Inv s) (hs : s.shutdown.pastTasks = true) : loopsOver s = true := by
  have hr := h.reached
  revert hs hr
  cases s.shutdown with
  | unsubscribing | closing => exact fun _ => id
  | _ => exact fun hs => by cases hs

theorem inv_afterStop {s : St T} (h : s.tasks.isSome = true → s.runTask = .ended .returned) (hl : loopsOver s = true) :
    Inv (afterStop s) := by
  unfold afterStop
  split
  · rename_i hd
    exact ⟨h, hl, hd⟩
  · rename_i hd
    refine ⟨fun hs => ?_, hl, cancel_ne _⟩
    rw [h hs] at hd
    exact absurd rfl hd

theorem inv_unsubscribe {s : St T} (h : s.tasks.isSome = true → s.runTask = .ended .returned) (hl : loopsOver s = true) :
    Inv (unsubscribe s) := by
  unfold unsubscribe
  split
  · exact ⟨h, hl⟩
  · exact inv_afterStop h hl

theorem inv_stopTick {s : St T} {l t : Task} (h : s.runTask = .ended .returned) (hs : s.tasks = some (l, t)) (hl : l.done = true) :
    Inv (stopTick s l t) := by
  unfold stopTick
  split
  · rename_i ht
    exact inv_unsubscribe (fun _ => h) (by simp [loopsOver, hs, hl, ht])
  · exact ⟨fun _ => h, by simp [Reached, hl]⟩

theorem inv_stop {s : St T} (h : Inv s) : Inv (stop s) := by
  unfold stop
  split
  · rename_i hs
    exact inv_unsubscribe h.made (by simp [loopsOver, hs])
  · rename_i l t hs
    have hr := h.made (by rw [hs]; rfl)
    split
    · rename_i hl
      exact inv_stopTick hr hs hl
    · exact ⟨fun _ => hr, rfl⟩

/-- No task is made, and one that is over stays so. -/
inductive GoOn : Option (Task × Task) → Option (Task × Task) → Prop
  | none : GoOn none none
  | some {l l' t t' : Task} (hl : l.done = true → l'.done = true) (ht : t.done = true → t'.done = true) :
      GoOn (some (l, t)) (some (l', t'))

theorem goOn_refl (tasks : Option (Task × Task)) : GoOn tasks tasks := by
  cases tasks with
  | none => exact .none
  | some p => exact .some id id

theorem goOn_after (tasks : Option (Task × Task)) (e : RedisListener.Ev T) : GoOn tasks (tasksAfter tasks e) := by
  cases e with
  | ends e =>
    cases tasks with
    | none => exact .none
    | some p => exact .some id fun h => (goOn_done p.2).trans h
  | _ => exact goOn_refl tasks

theorem GoOn.isSome {a b : Option (Task × Task)} (h : GoOn a b) : b.isSome = a.isSome := by
  cases h with
  | none => rfl
  | some hl ht => rfl

theorem GoOn.listener {a b : Option (Task × Task)} (h : GoOn a b) (ha : a.any (·.1.done) = true) : b.any (·.1.done) = true := by
  cases h with
  | none => exact ha
  | some hl ht => exact hl ha

theorem GoOn.keeps_over {s t : St T} (h : GoOn s.tasks t.tasks) (hs : loopsOver s = true) : loopsOver t = true := by
  unfold loopsOver at hs ⊢
  generalize s.tasks = a at h hs
  generalize t.tasks = b at h ⊢
  cases h with
  | none => rfl
  | some hl ht =>
    simp only [Option.all_some, Bool.and_eq_true] at hs ⊢
    exact ⟨hl hs.1, ht hs.2⟩

/-- The tasks go on, and the shutdown is where it was. -/
theorem inv_goOn {s t : St T} (hi : Inv s) (hsh : t.shutdown = s.shutdown) (hrun : t.runTask = s.runTask)
    (h : GoOn s.tasks t.tasks) : Inv t := by
  refine ⟨fun hs => by rw [hrun]; exact hi.made (by rw [← h.isSome]; exact hs), ?_⟩
  have hr := hi.reached
  rw [hsh]
  revert hr
  cases s.shutdown with
  | serving | aborted => exact fun _ => trivial
  | awaitingListener => exact fun hr => h.isSome.trans hr
  | awaitingTick => exact h.listener
  | unsubscribing | closing => exact h.keeps_over
  | awaitingRun | finished => exact fun hr => ⟨h.keeps_over hr.1, by rw [hrun]; exact hr.2⟩

theorem cancel_done {t : Task} (h : t.done = true) : t.cancel.done = true := by
  cases t with
  | running c => cases h
  | ended o => rfl

theorem inv_subscribed {s : St T} (hi : Inv s) (ho : s.shutdown.pastTasks = false) (hr : s.runTask = .running false) :
    Inv (makeTasks s) := by
  refine ⟨fun _ => rfl, ?_⟩
  have hs := hi.tasks_none hr
  have hreached := hi.reached
  show Reached _ s.shutdown
  revert ho hreached
  cases s.shutdown with
  | serving | aborted | awaitingListener => exact fun _ _ => by trivial
  | awaitingTick => exact fun _ h => by rw [Reached, hs] at h; cases h
  | unsubscribing | closing => exact fun ho => by cases ho
  | awaitingRun => exact fun _ h => absurd hr h.2
  | finished => exact fun _ h => absurd hr (done_ne h.2 false)

theorem inv_runEnds {s : St T} (hi : Inv s) {c : Bool} (hr : s.runTask = .running c) (o : Outcome) :
    Inv { s with runTask := .ended o } := by
  have hs := hi.tasks_none hr
  refine ⟨fun h => ?_, ?_⟩
  · rw [hs] at h
    cases h
  have hreached := hi.reached
  show Reached _ s.shutdown
  revert hreached
  cases s.shutdown with
  | serving | aborted | awaitingListener | awaitingTick | unsubscribing | closing => exact id
  | awaitingRun => exact fun h => ⟨h.1, fun h => by cases h⟩
  | finished => exact fun h => ⟨h.1, rfl⟩

section

variable [CommRing T] [LinearOrder T]

theorem inv_step {s t : St T} {e : Ev T} (hi : Inv s) (ho : InTime s e) (h : step s e = some t) : Inv t := by
  cases step_cases h with
  | runStarts hr => exact inv_goOn hi rfl rfl (goOn_refl _)
  | subscribed hr => exact inv_subscribed hi ho hr
  | runEnds o hr => exact inv_runEnds hi hr o
  | loops he hx => exact inv_goOn hi rfl rfl (goOn_after _ _)
  | listenerEnds o hs => exact inv_goOn hi rfl rfl (by rw [hs]; exact .some (fun _ => rfl) id)
  | tickEnds hs => exact inv_goOn hi rfl rfl (by rw [hs]; exact .some id fun _ => rfl)
  | shutdown hst => exact inv_stop hi
  | listenerOver hst hs hl => exact inv_stopTick (hi.made (by rw [hs]; rfl)) hs hl
  | tickOver hst hs ht =>
    have hl : Reached s .awaitingTick := hst ▸ hi.reached
    simp only [Reached, hs, Option.any_some] at hl
    exact inv_unsubscribe hi.made (by simp [loopsOver, hs, hl, ht])
  | runOver hst hd =>
    have hr : Reached s .awaitingRun := hst ▸ hi.reached
    exact ⟨hi.made, hr.1, hd⟩
  | cancelListener hst hs => exact inv_goOn hi rfl rfl (by rw [hs]; exact .some cancel_done id)
  | cancelTick hst hs => exact inv_goOn hi rfl rfl (by rw [hs]; exact .some id cancel_done)
  | cancelRun hst =>
    have hr : Reached s .awaitingRun := hst ▸ hi.reached
    refine ⟨fun hs => by rw [hi.made hs]; rfl, ?_⟩
    show Reached _ s.shutdown
    rw [hst]
    exact ⟨hr.1, cancel_ne _⟩
  | unsubscribed hst => exact ⟨hi.made, hi.pastTasks (by rw [hst]; rfl)⟩
  | leavesStop hst => exact inv_afterStop hi.made (hi.pastTasks hst)
  | aborts hst => exact ⟨hi.made, trivial⟩

theorem inv_init (definitions : Definitions) (now : T) : Inv (init definitions now) :=
  ⟨fun h => (by cases h), trivial⟩

/-! ## Once the shutdown has finished -/

/-- The shutdown has finished, `run` and its loops are over, and the debouncers and the
    submissions are those of `s`. -/
structure Over (s t : St T) : Prop where
  finished : t.shutdown = .finished
  run : t.runTask.done = true
  stopped : Stopped s t

omit [CommRing T] [LinearOrder T] in
/-- With both loops over there is only the clock. -/
theorem enabled_over {s : St T} {e : RedisListener.Ev T} (hs : loopsOver s = true) (he : enabled s e = true) :
    ∃ t, e = .clock t := by
  cases e with
  | clock t => exact ⟨t, rfl⟩
  | message topic | wake | check | enters | ends e =>
    cases ht : s.tasks with
    | none => simp [enabled, ht] at he
    | some p =>
      obtain ⟨l, t⟩ := p
      simp only [loopsOver, ht, Option.all_some, Bool.and_eq_true] at hs
      have hl := done_ne hs.1 false
      have ht' := done_ne hs.2 false
      simp [enabled, ht, hl, ht', hs.2] at he

theorem over_step {s t u : St T} {e : Ev T} (ho : Over s t) (h : step t e = some u) : Over s u := by
  have hl := ho.stopped.loops
  have hf := ho.finished
  cases step_cases h with
  | runStarts hr | subscribed hr | runEnds o hr => exact absurd hr (done_ne ho.run _)
  | loops he hx =>
    obtain ⟨now, e⟩ := enabled_over hl he
    subst e
    cases RedisListener.step_cases hx with
    | clock hn => exact ⟨hf, ho.run, hl, ho.stopped.states, ho.stopped.subs⟩
  | listenerEnds o hs | tickEnds hs => simp [loopsOver, hs, Task.done] at hl
  | shutdown hst | listenerOver hst | tickOver hst | runOver hst | cancelListener hst | cancelTick hst | cancelRun hst
  | unsubscribed hst => cases hf.symm.trans hst
  | leavesStop hst =>
    rw [hf] at hst
    cases hst
  | aborts hst => exact absurd hf hst

/-- If `run` does not come back from `subscribe` while `stop` waits for the network: once
    the shutdown has finished, the listener is stopped for good. -/
theorem stop_stops (definitions : Definitions) (now : T) {ok : St T → Ev T → Prop} {s t : St T}
    (h : Run step InTime (init definitions now) s) (hf : s.shutdown = .finished) (h' : Run step ok s t) : Stopped s t := by
  have hi := h.invariant (fun _ _ _ hi ho h => inv_step hi ho h) (inv_init definitions now)
  have hr : Reached s .finished := hf ▸ hi.reached
  have h0 : Over s s := ⟨hf, hr.2, hr.1, rfl, rfl⟩
  exact (h'.invariant (fun _ _ _ ho _ h => over_step ho h) h0).stopped

/-! ## Loops that are made too late -/

/-- The shutdown looks at no task of the loops any more. -/
def Stage.leavesTasks : Stage → Bool
  | .unsubscribing | .closing | .finished | .aborted => true
  | _ => false

/-- `stop` is past the tasks, and both loops run with no cancellation requested. -/
structure Missed (s : St T) : Prop where
  tasks : s.tasks = some (.running false, .running false)
  run : s.runTask = .ended .returned
  stage : s.shutdown.leavesTasks = true

/-- A loop ends by itself: `listen` ends or raises, or a `CancelledError` leaves a submit. -/
def loopEnds : Ev T → Bool
  | .listenerEnds _ | .tickEnds => true
  | _ => false

omit [CommRing T] [LinearOrder T] in
theorem leavesTasks_of_past {g : Stage} (h : g.pastTasks = true) : g.leavesTasks = true := by
  cases g with
  | unsubscribing | closing => rfl
  | _ => cases h

omit [CommRing T] [LinearOrder T] in
theorem missed_after (e : RedisListener.Ev T) :
    tasksAfter (some (.running false, .running false)) e = some (.running false, .running false) := by
  cases e with
  | _ => rfl

theorem missed_step {s t : St T} {e : Ev T} (hm : Missed s) (he : loopEnds e = false) (h : step s e = some t) : Missed t := by
  have hd : s.runTask.done = true := by rw [hm.run]; rfl
  have hstage := hm.stage
  cases step_cases h with
  | runStarts hr | subscribed hr | runEnds o hr => exact absurd hr (done_ne hd _)
  | loops hen hx =>
    refine ⟨?_, hm.run, hstage⟩
    show tasksAfter s.tasks _ = _
    rw [hm.tasks, missed_after]
  | listenerEnds o hs | tickEnds hs => cases he
  | shutdown hst | listenerOver hst | tickOver hst | runOver hst | cancelListener hst | cancelTick hst | cancelRun hst =>
    rw [hst] at hstage
    cases hstage
  | unsubscribed hst => exact ⟨hm.tasks, hm.run, rfl⟩
  | leavesStop hst =>
    unfold afterStop
    rw [if_pos hd]
    exact ⟨hm.tasks, hm.run, rfl⟩
  | aborts hst => exact ⟨hm.tasks, hm.run, rfl⟩

/-- If `run` comes back from `subscribe` while `stop` waits for the network, its loops run
    on, whatever the shutdown does: unless one ends by itself, both run in every later state. -/
theorem late_loops_run {s s' t : St T} (hs : s.shutdown.pastTasks = true) (h : step s .subscribed = some s')
    (h' : Run step (fun _ e => loopEnds e = false) s' t) : t.tasks = some (.running false, .running false) := by
  have h0 : Missed s' := by
    simp only [step] at h
    split at h
    · cases h
      exact ⟨rfl, rfl, leavesTasks_of_past hs⟩
    · cases h
  exact (h'.invariant (fun _ _ _ hm he h => missed_step hm he h) h0).tasks

end

/-! The agent of `onIngest`: a shutdown while its loops run, and one that comes before `run`
    has subscribed. -/

def stopRunning : List (Ev Int) :=
  [.runStarts, .subscribed, .loops RedisListener.ingest, .shutdown, .listenerEnds .cancelled, .awaited, .tickEnds, .awaited,
    .unsubscribed false, .closed false]

/-- `run` subscribes while `stop` unsubscribes. -/
def stopEarly : List (Ev Int) :=
  [.runStarts, .shutdown, .subscribed, .loops RedisListener.ingest, .unsubscribed false, .closed false]

def tickAfter : List (Ev Int) := [.loops (.clock 5), .loops .wake, .loops .check]

def isFinished (s : St Int) : Bool := s.shutdown == .finished

/-- Five seconds after the shutdown the trigger is due; the tick loop does not wake up, and
    no message is handled. -/
theorem stop_stops_running :
    ∃ s t : St Int, Run step InTime (init RedisListener.onIngest 0) s ∧ s.shutdown = .finished ∧
      Run step (fun _ _ => True) s t ∧ t.triggers.now = 5 ∧ (t.triggers.states.all fun a => a.debouncer.due 5) = true ∧
      step t (.loops .wake) = none ∧ step t (.loops RedisListener.ingest) = none ∧ Stopped s t := by
  obtain ⟨s, hr, hs⟩ := Run.exists_of_exec step InTime (init RedisListener.onIngest (0 : Int)) stopRunning
    (fun s => isFinished s && (exec step (fun _ _ => True) s [.loops (.clock 5)]).any fun t =>
      t.triggers.now == 5 && (t.triggers.states.all fun a => a.debouncer.due 5) && (step t (.loops .wake)).isNone &&
        (step t (.loops RedisListener.ingest)).isNone) (by decide)
  rw [Bool.and_eq_true] at hs
  obtain ⟨hf, ht⟩ := hs
  have hf : s.shutdown = .finished := by simpa [isFinished] using hf
  obtain ⟨t, hr', ht⟩ := Run.exists_of_exec step (fun _ _ => True) s [.loops (.clock 5)] _ ht
  simp only [Bool.and_eq_true, beq_iff_eq, Option.isNone_iff_eq_none] at ht
  obtain ⟨⟨⟨hnow, hdue⟩, hwake⟩, hmessage⟩ := ht
  exact ⟨s, t, hr, hf, hr', hnow, hdue, hwake, hmessage, stop_stops RedisListener.onIngest 0 hr hf hr'⟩

/-- The shutdown has finished, and after five seconds the tick loop submits a request. -/
theorem stop_misses_tick_loop :
    ∃ s t : St Int, Run step (fun _ _ => True) (init RedisListener.onIngest 0) s ∧ s.shutdown = .finished ∧
      Run step (fun _ _ => True) s t ∧ loopsOver s = false ∧ s.triggers.subs = [] ∧ t.triggers.subs.length = 1 ∧
      ¬ Stopped s t := by
  obtain ⟨s, hr, hs⟩ := Run.exists_of_exec step (fun _ _ => True) (init RedisListener.onIngest (0 : Int)) stopEarly
    (fun s => isFinished s && !loopsOver s && s.triggers.subs.isEmpty &&
      (exec step (fun _ _ => True) s tickAfter).any (·.triggers.subs.length == 1)) (by decide)
  simp only [Bool.and_eq_true] at hs
  obtain ⟨⟨⟨hf, hl⟩, he⟩, ht⟩ := hs
  obtain ⟨t, hr', ht⟩ := Run.exists_of_exec step (fun _ _ => True) s tickAfter (·.triggers.subs.length == 1) ht
  have he : s.triggers.subs = [] := by simpa using he
  have ht : t.triggers.subs.length = 1 := by simpa using ht
  refine ⟨s, t, hr, by simpa [isFinished] using hf, hr', by simpa using hl, he, ht, fun hst => ?_⟩
  rw [hst.subs, he] at ht
  cases ht

end SagaAgents.Triggers.ListenerStop
