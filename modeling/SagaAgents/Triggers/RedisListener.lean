/-
  SagaAgents.Triggers.RedisListener — the debounced dispatch of events
  (`triggers/redis_listener.py`).

  A message marks the debouncers of the triggers that name its topic. The tick loop wakes
  up and checks the debouncers in order; one that is due is reset, and then the loop waits
  for its `submit` to end before it checks the next one. Messages are handled, and time
  passes, between any two of these steps. How a submit goes on is the environment's: it
  enters its run, and it ends as a submit of the executor can (`Ending.possible`,
  `submit_ends`).

  Proved, over every run:
  - `no_event_lost`: after a matching message, until its debouncer has been reset for a
    later submit it stays pending; and that submit is in progress, has entered its run, or
    has ended because the lock was held or with an exception.
  The reset comes before the submit, and a submit that does not start a run does not mark
  again: `event_lost_to_a_held_lock`.
-/

import Mathlib.Algebra.Order.Ring.Int
import SagaAgents.Lib.Tasks
import SagaAgents.Triggers.Executor

namespace SagaAgents.Triggers.RedisListener

open Lib
open Config (EventTrigger Definitions)
open Executor (RunExecutor RunRequest Ending Sub)

variable {T : Type}

/-! ## Debouncers -/

structure Debouncer (T : Type) where
  delay : T
  lastMark : Option T := none
  pending : Bool := false
  deriving DecidableEq, Repr

def Debouncer.mark (d : Debouncer T) (now : T) : Debouncer T := { d with lastMark := some now, pending := true }

def Debouncer.reset (d : Debouncer T) : Debouncer T := { d with pending := false }

structure TriggerState (T : Type) where
  agentId : String
  topics : List String
  debouncer : Debouncer T
  lastTopic : String := "debounced"
  deriving DecidableEq, Repr

def TriggerState.handle (now : T) (topic : String) (s : TriggerState T) : TriggerState T :=
  if topic ∈ s.topics then { s with lastTopic := topic, debouncer := s.debouncer.mark now } else s

/-! ## The loops -/

/-- A submit the tick loop has issued, for the trigger with this number. -/
structure Submission (T : Type) where
  trigger : Nat
  request : RunRequest
  issuedAt : T
  entered : Bool := false
  outcome : Option Ending := none
  deriving DecidableEq, Repr

/-- `awaiting i k`: the loop waits for submission `k`, which it has issued for trigger `i`. -/
inductive Loop where
  | sleeping
  | checking (i : Nat)
  | awaiting (i k : Nat)
  deriving DecidableEq, Repr

structure St (T : Type) where
  states : List (TriggerState T)
  loop : Loop
  subs : List (Submission T)
  now : T

inductive Ev (T : Type) where
  | message (topic : String)
  | clock (t : T)
  | wake
  | check
  | enters
  | ends (e : Ending)
  deriving DecidableEq, Repr

/-- How a submit of an enabled agent's run can end that is not cancelled. -/
def possible (entered : Bool) : Ending → Bool
  | .completed _ | .runFailed => entered
  | .lockHeld | .error => !entered
  | .skipped | .cancelled => false

section

variable [CommRing T] [LinearOrder T]

def Debouncer.due (d : Debouncer T) (now : T) : Bool := d.pending && d.lastMark.any fun m => decide (d.delay ≤ now - m)

/-- In seconds, and exact: the code rounds the product, and the difference of two times in
    `due`, to a binary64 number. -/
def delay (t : EventTrigger) : T := max ((t.debounceMinutes : T) * 60) 1

/-- One state for each event trigger of each enabled agent. -/
def triggerStates (definitions : Definitions) : List (TriggerState T) :=
  (definitions.rows.filter (·.enabled)).flatMap fun d =>
    d.eventTriggers.map fun t => { agentId := d.id, topics := t.topics, debouncer := { delay := delay t } }

def init (definitions : Definitions) (now : T) : St T := ⟨triggerStates definitions, .sleeping, [], now⟩

/-- The check of trigger `i`, if there is one; past the last one the loop sleeps. -/
def check (s : St T) (i : Nat) : St T :=
  match s.states[i]? with
  | none => { s with loop := .sleeping }
  | some a =>
    if a.debouncer.due s.now then
      { s with
        states := s.states.set i { a with debouncer := a.debouncer.reset }
        subs := s.subs ++ [{ trigger := i, request := ⟨a.agentId, "event:" ++ a.lastTopic⟩, issuedAt := s.now }]
        loop := .awaiting i s.subs.length }
    else { s with loop := .checking (i + 1) }

def step (s : St T) : Ev T → Option (St T)
  | .message topic => some { s with states := s.states.map (·.handle s.now topic) }
  | .clock t => if s.now ≤ t then some { s with now := t } else none
  | .wake => if s.loop = .sleeping then some { s with loop := .checking 0 } else none
  | .check =>
    match s.loop with
    | .checking i => some (check s i)
    | _ => none
  | .enters =>
    match s.loop with
    | .awaiting _ k =>
      s.subs[k]?.bind fun u => if u.entered then none else some { s with subs := s.subs.set k { u with entered := true } }
    | _ => none
  | .ends e =>
    match s.loop with
    | .awaiting i k =>
      -- an exception is logged, and the loop goes on
      s.subs[k]?.bind fun u =>
        if possible u.entered e then
          some { s with subs := s.subs.set k { u with outcome := some e }, loop := .checking (i + 1) }
        else none
    | _ => none

end

/-! ## What a step changes -/

section

variable [CommRing T] [LinearOrder T]

/-- The steps, with what enables each of them. -/
inductive Changes (s : St T) : Ev T → St T → Prop
  | message (topic : String) : Changes s (.message topic) { s with states := s.states.map (·.handle s.now topic) }
  | clock {t : T} (hn : s.now ≤ t) : Changes s (.clock t) { s with now := t }
  | wake (hl : s.loop = .sleeping) : Changes s .wake { s with loop := .checking 0 }
  | allChecked {i : Nat} (hl : s.loop = .checking i) (ha : s.states[i]? = none) : Changes s .check { s with loop := .sleeping }
  | notDue {i : Nat} {a : TriggerState T} (hl : s.loop = .checking i) (ha : s.states[i]? = some a)
      (hd : a.debouncer.due s.now = false) : Changes s .check { s with loop := .checking (i + 1) }
  | issues {i : Nat} {a : TriggerState T} (hl : s.loop = .checking i) (ha : s.states[i]? = some a)
      (hd : a.debouncer.due s.now = true) : Changes s .check
      { s with
        states := s.states.set i { a with debouncer := a.debouncer.reset }
        subs := s.subs ++ [{ trigger := i, request := ⟨a.agentId, "event:" ++ a.lastTopic⟩, issuedAt := s.now }]
        loop := .awaiting i s.subs.length }
  | enters {i k : Nat} {u : Submission T} (hl : s.loop = .awaiting i k) (hu : s.subs[k]? = some u) (he : u.entered = false) :
      Changes s .enters { s with subs := s.subs.set k { u with entered := true } }
  | ends {i k : Nat} {u : Submission T} {e : Ending} (hl : s.loop = .awaiting i k) (hu : s.subs[k]? = some u)
      (hp : possible u.entered e = true) :
      Changes s (.ends e) { s with subs := s.subs.set k { u with outcome := some e }, loop := .checking (i + 1) }

theorem check_cases {s : St T} {i : Nat} (hl : s.loop = .checking i) : Changes s .check (check s i) := by
  unfold check
  split
  · rename_i ha
    exact .allChecked hl ha
  · rename_i a ha
    split
    · rename_i hd
      exact .issues hl ha hd
    · rename_i hd
      exact .notDue hl ha (Bool.eq_false_iff.mpr hd)

theorem step_cases {s t : St T} {e : Ev T} (h : step s e = some t) : Changes s e t := by
  cases e with
  | message topic => cases h; exact .message topic
  | clock t' =>
    simp only [step] at h
    split at h
    · rename_i hn; cases h; exact .clock hn
    · cases h
  | wake =>
    simp only [step] at h
    split at h
    · rename_i hl; cases h; exact .wake hl
    · cases h
  | check =>
    simp only [step] at h
    split at h
    · rename_i hl; cases h; exact check_cases hl
    · cases h
  | enters =>
    simp only [step] at h
    split at h
    · rename_i hl
      obtain ⟨u, hu, h⟩ := Option.bind_eq_some_iff.mp h
      split at h
      · cases h
      · rename_i he; cases h; exact .enters hl hu (Bool.eq_false_iff.mpr he)
    · cases h
  | ends e =>
    simp only [step] at h
    split at h
    · rename_i hl
      obtain ⟨u, hu, h⟩ := Option.bind_eq_some_iff.mp h
      split at h
      · rename_i hp; cases h; exact .ends hl hu hp
      · cases h
    · cases h

end

/-- The submit is in progress, or has entered its run, or ended without one: the lock was
    held, or an exception left it. -/
def Accounted (u : Submission T) : Prop :=
  u.outcome = none ∨ u.entered = true ∨ u.outcome = some .lockHeld ∨ u.outcome = some .error

theorem accounted_of_possible {u : Submission T} {e : Ending} (hp : possible u.entered e = true) :
    Accounted { u with outcome := some e } := by
  cases e with
  | completed ok => exact Or.inr (Or.inl hp)
  | runFailed => exact Or.inr (Or.inl hp)
  | lockHeld => exact Or.inr (Or.inr (Or.inl rfl))
  | error => exact Or.inr (Or.inr (Or.inr rfl))
  | skipped => cases hp
  | cancelled => cases hp

theorem handle_pending (now : T) (topic : String) {a : TriggerState T} (h : a.debouncer.pending = true) :
    (a.handle now topic).debouncer.pending = true := by
  unfold TriggerState.handle
  split
  · rfl
  · exact h

section

variable [LinearOrder T]

/-- A step that issues no submit keeps the marks, and what each submit is for. -/
structure Keeps (s t : St T) : Prop where
  now : s.now ≤ t.now
  pending : ∀ (i : Nat) (a : TriggerState T), s.states[i]? = some a → a.debouncer.pending = true →
    ∃ b : TriggerState T, t.states[i]? = some b ∧ b.debouncer.pending = true
  length : t.subs.length = s.subs.length
  subs : ∀ (k : Nat) (u : Submission T), s.subs[k]? = some u → ∃ v : Submission T, t.subs[k]? = some v ∧
    v.trigger = u.trigger ∧ v.issuedAt = u.issuedAt ∧ (Accounted u → Accounted v)

/-- A step keeps the debouncers pending, or it resets one of them and issues its submit. -/
inductive Steps (s t : St T) : Prop
  | keeps (h : Keeps s t)
  | issues (i : Nat) (a : TriggerState T) (ha : s.states[i]? = some a) (hnow : t.now = s.now)
      (hstates : t.states = s.states.set i { a with debouncer := a.debouncer.reset })
      (hsubs : t.subs = s.subs ++ [{ trigger := i, request := ⟨a.agentId, "event:" ++ a.lastTopic⟩, issuedAt := s.now }])

theorem keeps_same {s t : St T} (hn : s.now ≤ t.now) (hst : t.states = s.states) (hsub : t.subs = s.subs) : Keeps s t :=
  ⟨hn, fun i a ha hp => ⟨a, by rw [hst]; exact ha, hp⟩, by rw [hsub], fun k u hu => ⟨u, by rw [hsub]; exact hu, rfl, rfl, id⟩⟩

/-- One submission changes, and stays the submission it is. -/
theorem keeps_set {s t : St T} {k : Nat} {u v : Submission T} (hk : s.subs[k]? = some u) (hn : t.now = s.now)
    (hst : t.states = s.states) (hsub : t.subs = s.subs.set k v)
    (hv : v.trigger = u.trigger ∧ v.issuedAt = u.issuedAt ∧ (Accounted u → Accounted v)) : Keeps s t := by
  refine ⟨le_of_eq hn.symm, fun i a ha hp => ⟨a, by rw [hst]; exact ha, hp⟩, by rw [hsub, List.length_set], fun j w hw => ?_⟩
  rw [hsub]
  by_cases e : j = k
  · subst e
    cases hk.symm.trans hw
    exact ⟨v, Tasks.get_moved hk, hv⟩
  · exact ⟨w, Tasks.get_other hw e, rfl, rfl, id⟩

theorem step_steps [CommRing T] {s t : St T} {e : Ev T} (h : step s e = some t) : Steps s t := by
  cases step_cases h with
  | message topic =>
    refine .keeps ⟨le_refl _, fun i a ha hp => ⟨a.handle s.now topic, ?_, handle_pending _ _ hp⟩, rfl,
      fun k u hu => ⟨u, hu, rfl, rfl, id⟩⟩
    simp [ha]
  | clock hn => exact .keeps (keeps_same hn rfl rfl)
  | wake | allChecked | notDue => exact .keeps (keeps_same (le_refl _) rfl rfl)
  | issues _ ha => exact .issues _ _ ha rfl rfl rfl
  | enters _ hu => exact .keeps (keeps_set hu rfl rfl rfl ⟨rfl, rfl, fun _ => Or.inr (Or.inl rfl)⟩)
  | ends _ hu hp => exact .keeps (keeps_set hu rfl rfl rfl ⟨rfl, rfl, fun _ => accounted_of_possible hp⟩)

theorem accounted_step {s t : St T} (hs : ∀ u ∈ s.subs, Accounted u) (h : Steps s t) : ∀ u ∈ t.subs, Accounted u := by
  intro v hv
  cases h with
  | keeps hk =>
    obtain ⟨k, hk'⟩ := List.getElem?_of_mem hv
    have hlt : k < s.subs.length := by
      have := (List.getElem?_eq_some_iff.mp hk').1
      rw [hk.length] at this
      exact this
    obtain ⟨w, hw, -, -, hacc⟩ := hk.subs k _ (List.getElem?_eq_getElem hlt)
    cases hk'.symm.trans hw
    exact hacc (hs _ (List.getElem_mem hlt))
  | issues i a ha hnow hstates hsubs =>
    rw [hsubs] at hv
    rcases List.mem_append.mp hv with hv | hv
    · exact hs v hv
    · rw [List.mem_singleton.mp hv]
      exact Or.inl rfl

/-! ## No event is lost before its submit -/

/-- Since `s`, trigger `i` has stayed pending or a submit was issued for it. -/
structure Covered (s : St T) (i : Nat) (t : St T) : Prop where
  now : s.now ≤ t.now
  length : s.subs.length ≤ t.subs.length
  covers : (∃ a : TriggerState T, t.states[i]? = some a ∧ a.debouncer.pending = true) ∨
    ∃ (k : Nat) (u : Submission T), s.subs.length ≤ k ∧ t.subs[k]? = some u ∧ u.trigger = i ∧ s.now ≤ u.issuedAt

theorem covered_step {s t t' : St T} {i : Nat} (hc : Covered s i t) (h : Steps t t') : Covered s i t' := by
  cases h with
  | keeps hk =>
    refine ⟨le_trans hc.now hk.now, by rw [hk.length]; exact hc.length, ?_⟩
    rcases hc.covers with ⟨a, ha, hp⟩ | ⟨k, u, hlen, hu, htr, hat⟩
    · exact Or.inl (hk.pending i a ha hp)
    · obtain ⟨v, hv, hvt, hva, -⟩ := hk.subs k u hu
      exact Or.inr ⟨k, v, hlen, hv, by rw [hvt, htr], by rw [hva]; exact hat⟩
  | issues j b hb hnow hstates hsubs =>
    refine ⟨by rw [hnow]; exact hc.now, by rw [hsubs, List.length_append]; have := hc.length; omega, ?_⟩
    rcases hc.covers with ⟨a, ha, hp⟩ | ⟨k, u, hlen, hu, htr, hat⟩
    · by_cases e : i = j
      · -- its own reset: the new submit is the one
        subst e
        have hnew : t'.subs[t.subs.length]? =
            some { trigger := i, request := ⟨b.agentId, "event:" ++ b.lastTopic⟩, issuedAt := t.now } := by
          rw [hsubs]; simp
        exact Or.inr ⟨t.subs.length, _, hc.length, hnew, rfl, hc.now⟩
      · refine Or.inl ⟨a, ?_, hp⟩
        rw [hstates]
        exact Tasks.get_other ha e
    · refine Or.inr ⟨k, u, hlen, ?_, htr, hat⟩
      rw [hsubs]
      exact Tasks.get_kept hu

/-- After a message whose topic trigger `i` names, in every later state: the trigger is
    still pending, or a submit was issued for it at or after the message, and it is
    accounted for. -/
theorem no_event_lost [CommRing T] (definitions : Definitions) {start : T} {ok : St T → Ev T → Prop} {s s' t : St T}
    (h : Run step ok (init definitions start) s) {topic : String} (hm : step s (.message topic) = some s')
    (h' : Run step ok s' t) {i : Nat} {a : TriggerState T} (ha : s.states[i]? = some a) (ht : topic ∈ a.topics) :
    (∃ b : TriggerState T, t.states[i]? = some b ∧ b.debouncer.pending = true) ∨
      ∃ (k : Nat) (u : Submission T), s.subs.length ≤ k ∧ t.subs[k]? = some u ∧ u.trigger = i ∧ s.now ≤ u.issuedAt ∧
        Accounted u := by
  cases hm
  have hmarked : (a.handle s.now topic).debouncer.pending = true := by
    unfold TriggerState.handle
    rw [if_pos ht]
    rfl
  have hcov := h'.invariant (fun _ _ _ hc _ h => covered_step hc (step_steps h))
    (⟨le_refl _, le_refl _, Or.inl ⟨a.handle s.now topic, by simp [ha], hmarked⟩⟩ : Covered _ i _)
  have hacc := h.invariant (I := fun s => ∀ u ∈ s.subs, Accounted u) (fun _ _ _ hs _ h => accounted_step hs (step_steps h))
    (fun u hu => by cases hu)
  have hacc' := h'.invariant (I := fun s => ∀ u ∈ s.subs, Accounted u)
    (fun _ _ _ hs _ h => accounted_step hs (step_steps h)) hacc
  rcases hcov.covers with hp | ⟨k, u, hlen, hu, htr, hat⟩
  · exact Or.inl hp
  · exact Or.inr ⟨k, u, hlen, hu, htr, hat, hacc' u (List.mem_of_getElem? hu)⟩

end

/-! ## The executor's submits end as the loop expects -/

/-- A submit of an executor, for a known and enabled agent. -/
def Ends (x : RunExecutor) (u : Sub) : Prop :=
  match u.pc with
  | .active _ | .waitGlobal | .waitAgent | .locking => u.entered = false
  | .running => u.entered = true
  | .releasing e => u.entered = true ∧ (possible true e = true ∨ e = .cancelled)
  | .ended e => possible u.entered e = true ∨ e = .cancelled ∨ (x.runnable u.req = none ∧ e = .skipped)

theorem ending_possible (r : Executor.RunEnd) : possible true r.ending = true ∨ r.ending = .cancelled := by
  cases r with
  | report ok => exact Or.inl rfl
  | raised => exact Or.inl rfl
  | cancelled => exact Or.inr rfl

theorem ends_acquiring {x : RunExecutor} {u : Sub} (hp : u.pc.acquiring) (hu : Ends x u) : u.entered = false := by
  unfold Ends at hu
  cases h : u.pc with
  | active p => rw [h] at hu; exact hu
  | waitGlobal => rw [h] at hu; exact hu
  | waitAgent => rw [h] at hu; exact hu
  | _ => rw [h] at hp; exact hp.elim

theorem ends_move {x : RunExecutor} {e : Executor.Ev} {u v : Sub} (hu : Ends x u) (hm : Executor.Moves x u e v) :
    Ends x v := by
  cases hm with
  | skip hp hd => exact Or.inr (Or.inr ⟨hd, rfl⟩)
  | queueGlobal hp hd =>
    have hno := ends_acquiring (by simp [Executor.Pc.acquiring, hp]) hu
    exact hno
  | queueAgent hp hd =>
    have hno := ends_acquiring hp hu
    exact hno
  | lock hp hd hr =>
    have hno := ends_acquiring hp hu
    exact hno
  | start hp hd hr => exact rfl
  | locked hp => exact rfl
  | lockHeld hp =>
    simp only [Ends, hp] at hu
    exact Or.inl (by simp [possible, hu])
  | setRaises hp =>
    simp only [Ends, hp] at hu
    exact Or.inl (by simp [possible, hu])
  | unlock hp hr =>
    simp only [Ends, hp] at hu
    exact ⟨hu, ending_possible _⟩
  | @finish i r hp hr =>
    simp only [Ends, hp] at hu
    rcases ending_possible r with h | h
    · exact Or.inl (by rw [Executor.Sub.to, hu]; exact h)
    · exact Or.inr (Or.inl h)
  | unlocked e hp =>
    simp only [Ends, hp] at hu
    rcases hu.2 with h | h
    · exact Or.inl (by rw [Executor.Sub.to, hu.1]; exact h)
    · exact Or.inr (Or.inl h)
  | cancelled hp => exact Or.inr (Or.inl rfl)

/-- A submit for a known and enabled agent that is not cancelled ends in one of the ways
    the loop's submits can end. -/
theorem submit_ends {x : RunExecutor} {ok : Executor.St → Executor.Ev → Prop} {s : Executor.St}
    (h : Run (Executor.step x) ok (Executor.init x) s) {u : Sub} (hu : u ∈ s.subs) (hd : (x.runnable u.req).isSome)
    {e : Ending} (hp : u.pc = .ended e) (he : e ≠ .cancelled) : possible u.entered e = true := by
  have hends := Executor.subs_run (P := Ends x) (fun _ req v _ hm => ends_move (show Ends x (Executor.fresh req) from rfl) hm)
    (fun _ _ u v _ hu hm => ends_move hu hm) h u hu
  simp only [Ends, hp] at hends
  rcases hends with h | h | ⟨h, -⟩
  · exact h
  · exact absurd h he
  · rw [h] at hd
    cases hd

/-! An agent that runs on one topic, a message on it, and a check two seconds later. -/

def onIngest : Definitions :=
  Keyed.ofList Config.AgentDefinition.id
    [{ id := "event-deduplicator", triggers := [.event { topics := ["document.ingested"] }] }]

def ingest : Ev Int := .message "document.ingested"

/-- The message is handled at 0, and the loop checks the trigger at 2. -/
def afterCheck : List (Ev Int) := [.clock 2, .wake, .check]

def listens (a : TriggerState Int) : Bool := a.topics.contains "document.ingested"

/-- While the submit is in progress, the message is accounted for. -/
theorem no_event_lost_in_progress :
    ∃ s' t, step (init onIngest (0 : Int)) ingest = some s' ∧ Run step (fun _ _ => True) s' t ∧ t.loop = .awaiting 0 0 ∧
      ((∃ b : TriggerState Int, t.states[0]? = some b ∧ b.debouncer.pending = true) ∨
        ∃ (k : Nat) (u : Submission Int), 0 ≤ k ∧ t.subs[k]? = some u ∧ u.trigger = 0 ∧ 0 ≤ u.issuedAt ∧ Accounted u) := by
  obtain ⟨s', hm, hc⟩ : ∃ s', step (init onIngest (0 : Int)) ingest = some s' ∧
      (exec step (fun _ _ => True) s' afterCheck).any (·.loop == .awaiting 0 0) = true := ⟨_, rfl, by decide⟩
  obtain ⟨t, hr, hl⟩ := Run.exists_of_exec step (fun _ _ => True) s' afterCheck (·.loop == .awaiting 0 0) hc
  obtain ⟨a, ha, ht⟩ : ∃ a, (init onIngest (0 : Int)).states[0]? = some a ∧ "document.ingested" ∈ a.topics :=
    ⟨_, rfl, by decide⟩
  exact ⟨s', t, hm, hr, by simpa using hl, no_event_lost onIngest (.refl _) hm hr ha ht⟩

/-- The submit finds the lock held: nothing is pending, nothing is in progress, and no run
    was entered for the message. -/
theorem event_lost_to_a_held_lock :
    ∃ s' t, step (init onIngest (0 : Int)) ingest = some s' ∧ Run step (fun _ _ => True) s' t ∧
      (init onIngest (0 : Int)).states.all listens = true ∧ t.states.all (fun b => !b.debouncer.pending) = true ∧
      ∀ u ∈ t.subs, u.outcome = some .lockHeld ∧ u.entered = false := by
  obtain ⟨s', hm, hc⟩ : ∃ s', step (init onIngest (0 : Int)) ingest = some s' ∧
      (exec step (fun _ _ => True) s' (afterCheck ++ [.ends .lockHeld, .check])).any (fun t =>
        t.states.all (fun b => !b.debouncer.pending) &&
          t.subs.all fun u => u.outcome == some .lockHeld && !u.entered) = true := ⟨_, rfl, by decide⟩
  obtain ⟨t, hr, hp⟩ := Run.exists_of_exec step (fun _ _ => True) s' _ _ hc
  rw [Bool.and_eq_true] at hp
  refine ⟨s', t, hm, hr, by decide, hp.1, fun u hu => ?_⟩
  have := List.all_eq_true.mp hp.2 u hu
  simpa using this

end SagaAgents.Triggers.RedisListener
