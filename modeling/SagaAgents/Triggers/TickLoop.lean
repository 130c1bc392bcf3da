/-
  SagaAgents.Triggers.TickLoop — the tick loop of `RedisListener` against the clock.

  What the environment decides is given beforehand: the messages with the times at which
  they are handled (the trace), and how long the executor takes for a submit (`Timing`);
  `none` is a submit that never returns. The rest is computed: the loop sleeps five
  seconds, checks its triggers in order, and waits for each submit to return before it
  checks the next one. So a check happens when every earlier submit has returned, and
  after one that does not return there is none (`stuck`).

  Proved: `independent_iff`. The times at which an agent's requests are submitted do not
  depend on how long the submits of others take, for every trace, exactly if no trigger of
  another agent has a topic or none of its own has. `waits_for_other_agent` is a trace.
-/

import Mathlib.Algebra.Order.Ring.Cast
import Mathlib.Tactic.Linarith
import SagaAgents.Triggers.Debounce

namespace SagaAgents.Triggers.TickLoop

open Lib
open Config (Definitions)
open Executor (RunRequest)
open RedisListener (TriggerState triggerStates)
open Debounce (request config)

variable {T : Type}

/-! ## The loop -/

/-- A message and the time at which it is handled. -/
abbrev Trace (T : Type) := List (T × String)

structure Loop (T : Type) where
  states : List (TriggerState T)
  now : T
  /-- The messages to come, the next one first. -/
  inbox : Trace T
  /-- The requests submitted, and when. -/
  log : List (T × RunRequest)
  stuck : Bool

section

variable [Zero T] [LE T]

/-- How long the executor takes for a request submitted at a time. -/
structure Timing (T : Type) [Zero T] [LE T] where
  takes : RunRequest → T → Option T
  nonneg : ∀ r t d, takes r t = some d → 0 ≤ d

/-- The same for all requests of the agent. -/
def Agree (agentId : String) (x y : Timing T) : Prop := ∀ r t, r.agentId = agentId → x.takes r t = y.takes r t

end

section

variable [CommRing T] [LinearOrder T]

/-- `_TICK_INTERVAL`. -/
def tickInterval : T := 5

/-- The messages up to `now` are handled, each at its time. -/
def handled (now : T) : Trace T → List (TriggerState T) → List (TriggerState T) × Trace T
  | [], states => (states, [])
  | m :: ms, states => if m.1 ≤ now then handled now ms (states.map (·.handle m.1 m.2)) else (states, m :: ms)

/-- The listener loop has caught up. -/
def deliver (s : Loop T) : Loop T :=
  { s with states := (handled s.now s.inbox s.states).1, inbox := (handled s.now s.inbox s.states).2 }

/-- A due trigger is reset, and its request submitted. -/
def dispatch (i : Nat) (a : TriggerState T) (s : Loop T) : Loop T :=
  { s with states := s.states.set i { a with debouncer := a.debouncer.reset }, log := s.log ++ [(s.now, request a)] }

/-- To the return of the submit. -/
def await (x : Timing T) (r : RunRequest) (s : Loop T) : Loop T :=
  match x.takes r s.now with
  | some d => { s with now := s.now + d }
  | none => { s with stuck := true }

def checkNow (x : Timing T) (i : Nat) (s : Loop T) : Loop T :=
  match s.states[i]? with
  | none => s
  | some a => if a.debouncer.due s.now then await x (request a) (dispatch i a s) else s

/-- The check of trigger `i`. -/
def check (x : Timing T) (i : Nat) (s : Loop T) : Loop T := checkNow x i (deliver s)

/-- The checks of these triggers, in order. -/
def checks (x : Timing T) : List Nat → Loop T → Loop T
  | [], s => s
  | i :: is, s => if (check x i s).stuck then check x i s else checks x is (check x i s)

/-- `_check_due_and_dispatch`. -/
def checkDueAndDispatch (x : Timing T) (s : Loop T) : Loop T := checks x (List.range s.states.length) s

/-- One turn of `_tick_loop`. -/
def tick (x : Timing T) (s : Loop T) : Loop T :=
  if s.stuck then s else checkDueAndDispatch x { s with now := s.now + tickInterval }

def ticks (x : Timing T) : Nat → Loop T → Loop T
  | 0, s => s
  | n + 1, s => tick x (ticks x n s)

def begin (definitions : Definitions) (start : T) (trace : Trace T) : Loop T :=
  ⟨triggerStates definitions, start, trace, [], false⟩

/-! ## Independence -/

/-- The agent's requests, and when they were submitted. -/
def Loop.requests (s : Loop T) (agentId : String) : List (T × RunRequest) := s.log.filter (·.2.agentId == agentId)

/-- The messages are handled in order, and not before the loop starts. -/
def InOrder (start : T) (trace : Trace T) : Prop := (trace.map (·.1)).Pairwise (· ≤ ·) ∧ ∀ m ∈ trace, start ≤ m.1

/-- Whatever the messages: two executors that take the same for the agent's submits see the
    same requests of the agent at the same times, however long they take for the others. -/
def Independent (T : Type) [CommRing T] [LinearOrder T] (definitions : Definitions) (agentId : String) : Prop :=
  ∀ (start : T) (trace : Trace T), InOrder start trace → ∀ x y : Timing T, Agree agentId x y →
    ∀ n, ∃ m, (ticks x n (begin definitions start trace)).requests agentId <+:
      (ticks y m (begin definitions start trace)).requests agentId

end

/-! ## What every check keeps -/

section

variable [CommRing T] [LinearOrder T] {I : Loop T → Prop} {x : Timing T} {s : Loop T}

theorem checks_keep (hc : ∀ i s, I s → I (check x i s)) (is : List Nat) (h : I s) : I (checks x is s) := by
  induction is generalizing s with
  | nil => exact h
  | cons i is ih =>
    unfold checks
    split
    · exact hc i s h
    · exact ih (hc i s h)

theorem ticks_keep (hc : ∀ i s, I s → I (check x i s)) (hn : ∀ s, I s → I { s with now := s.now + tickInterval }) (n : Nat)
    (h : I s) : I (ticks x n s) := by
  induction n with
  | zero => exact h
  | succ n ih =>
    rw [ticks, tick]
    split
    · exact ih
    · exact checks_keep hc _ (hn _ ih)

end

/-! ## Triggers that no message can mark -/

theorem mute_handle {B : String → Prop} {states : List (TriggerState T)}
    (h : ∀ c ∈ states, B c.agentId → c.topics = [] ∧ c.debouncer.pending = false) (m : T × String) :
    ∀ c ∈ states.map (·.handle m.1 m.2), B c.agentId → c.topics = [] ∧ c.debouncer.pending = false := by
  intro c hc hb
  obtain ⟨b, hm, e⟩ := List.mem_map.mp hc
  subst e
  unfold TriggerState.handle at hb ⊢
  split
  · rename_i ht
    rw [if_pos ht] at hb
    rw [(h b hm hb).1] at ht
    cases ht
  · rename_i ht
    rw [if_neg ht] at hb
    exact h b hm hb

/-- The triggers of these agents have no topics, and so are never submitted. -/
structure Mute (B : String → Prop) (s : Loop T) : Prop where
  states : ∀ c ∈ s.states, B c.agentId → c.topics = [] ∧ c.debouncer.pending = false
  log : ∀ e ∈ s.log, ¬ B e.2.agentId

variable {B : String → Prop} {s : Loop T}

theorem mute_dispatch (h : Mute B s) {i : Nat} {a : TriggerState T} (hb : ¬ B a.agentId) : Mute B (dispatch i a s) := by
  refine ⟨fun c hc hc' => ?_, fun e he => ?_⟩
  · rcases List.mem_or_eq_of_mem_set hc with hc | e
    · exact h.states c hc hc'
    · subst e
      exact absurd hc' hb
  · rcases List.mem_append.mp he with he | he
    · exact h.log e he
    · rw [List.mem_singleton.mp he]
      exact hb

section

variable [LinearOrder T]

theorem mute_handled (now : T) (inbox : Trace T) {states : List (TriggerState T)}
    (h : ∀ c ∈ states, B c.agentId → c.topics = [] ∧ c.debouncer.pending = false) :
    ∀ c ∈ (handled now inbox states).1, B c.agentId → c.topics = [] ∧ c.debouncer.pending = false := by
  induction inbox generalizing states with
  | nil => exact h
  | cons m inbox ih =>
    unfold handled
    split
    · exact ih (mute_handle h m)
    · exact h

theorem mute_deliver (h : Mute B s) : Mute B (deliver s) := ⟨mute_handled _ _ h.states, h.log⟩

end

section

variable [CommRing T] [LinearOrder T]

/-- A trigger that is due can be marked, so it is of another agent. -/
theorem mute_due (h : Mute B s) {i : Nat} {a : TriggerState T} (ha : s.states[i]? = some a) (hd : a.debouncer.due s.now = true) :
    ¬ B a.agentId := by
  intro hb
  have := (h.states a (List.mem_of_getElem? ha) hb).2
  simp [RedisListener.Debouncer.due, this] at hd

theorem mute_await (x : Timing T) (r : RunRequest) (h : Mute B s) : Mute B (await x r s) := by
  unfold await
  split
  · exact ⟨h.states, h.log⟩
  · exact ⟨h.states, h.log⟩

theorem mute_check (x : Timing T) (i : Nat) (h : Mute B s) : Mute B (check x i s) := by
  have hd := mute_deliver h
  unfold check checkNow
  split
  · exact hd
  · rename_i a ha
    split
    · rename_i hdue
      exact mute_await x _ (mute_dispatch hd (mute_due hd ha hdue))
    · exact hd

theorem mute_ticks (x : Timing T) (n : Nat) (h : Mute B s) : Mute B (ticks x n s) :=
  ticks_keep (fun i _ h => mute_check x i h) (fun _ h => ⟨h.states, h.log⟩) n h

theorem mute_begin {definitions : Definitions} {start : T} {trace : Trace T}
    (h : ∀ c ∈ triggerStates (T := T) definitions, B c.agentId → c.topics = []) : Mute B (begin definitions start trace) := by
  refine ⟨fun c hc hb => ⟨h c hc hb, ?_⟩, fun e he => (by cases he)⟩
  have hc : c ∈ triggerStates definitions := hc
  simp only [triggerStates, List.mem_flatMap, List.mem_map] at hc
  obtain ⟨d, -, t, -, e⟩ := hc
  subst e
  rfl

/-- Where only the agent's triggers can be marked, executors that agree on it do the same. -/
theorem check_agree {agentId : String} {x y : Timing T} (hxy : Agree agentId x y) (h : Mute (· ≠ agentId) s) (i : Nat) :
    check x i s = check y i s := by
  unfold check checkNow
  split
  · rfl
  · rename_i a ha
    split
    · rename_i hdue
      have hid : a.agentId = agentId := not_not.mp (mute_due (mute_deliver h) ha hdue)
      unfold await
      rw [hxy (request a) _ hid]
    · rfl

theorem checks_agree {agentId : String} {x y : Timing T} (hxy : Agree agentId x y) (is : List Nat)
    (h : Mute (· ≠ agentId) s) : checks x is s = checks y is s := by
  induction is generalizing s with
  | nil => rfl
  | cons i is ih =>
    unfold checks
    rw [check_agree hxy h i, ih (mute_check y i h)]

theorem ticks_agree {agentId : String} {x y : Timing T} (hxy : Agree agentId x y) (n : Nat)
    (h : Mute (· ≠ agentId) s) : ticks x n s = ticks y n s := by
  induction n with
  | zero => rfl
  | succ n ih =>
    rw [ticks, ticks, ih]
    unfold tick
    split
    · rfl
    · have hm := mute_ticks y n h
      exact checks_agree hxy _ ⟨hm.states, hm.log⟩

end

/-! ## Submits that return at once, or never -/

section

variable [LinearOrder T] {s : Loop T}

/-- No message is due to be handled. -/
def Settled (s : Loop T) : Prop := ∀ m, s.inbox.head? = some m → s.now < m.1

theorem handled_head (now : T) (inbox : Trace T) (states : List (TriggerState T)) :
    ∀ m, (handled now inbox states).2.head? = some m → now < m.1 := by
  induction inbox generalizing states with
  | nil => intro m h; cases h
  | cons m inbox ih =>
    unfold handled
    split
    · exact ih _
    · rename_i hm
      intro m' h
      cases h
      exact not_le.mp hm

theorem settled_deliver (s : Loop T) : Settled (deliver s) := handled_head _ _ _

theorem deliver_settled (h : Settled s) : deliver s = s := by
  unfold deliver
  cases hb : s.inbox with
  | nil => cases s; cases hb; rfl
  | cons m inbox =>
    have hm : ¬ m.1 ≤ s.now := not_le.mpr (h m (by rw [hb]; rfl))
    simp only [handled, if_neg hm]
    cases s; cases hb; rfl

end

section

variable [CommRing T] [LinearOrder T] {x : Timing T} {s : Loop T} {i : Nat} {c : TriggerState T}

/-- Every submit returns at once or never. -/
def Abrupt (x : Timing T) : Prop := ∀ r t, x.takes r t = some 0 ∨ x.takes r t = none

theorem check_settled (h : Settled s) : check x i s = checkNow x i s := by
  unfold check
  rw [deliver_settled h]

theorem await_abrupt (hx : Abrupt x) (r : RunRequest) :
    (await x r s).now = s.now ∧ (await x r s).inbox = s.inbox ∧ (await x r s).states = s.states ∧
      (await x r s).log = s.log ∧ ((await x r s).stuck = true ↔ s.stuck = true ∨ x.takes r s.now = none) := by
  unfold await
  rcases hx r s.now with h | h <;> simp [h]

/-- What the checks of some triggers at one instant do, once the messages are handled. -/
structure Passes (x : Timing T) (s t : Loop T) : Prop where
  now : t.now = s.now
  inbox : t.inbox = s.inbox
  log : ∀ e ∈ s.log, e ∈ t.log
  new : ∀ e ∈ t.log, e ∈ s.log ∨ e.1 = s.now
  waits : ∀ (i : Nat) (c : TriggerState T), s.states[i]? = some c → c.debouncer.due s.now = false → t.states[i]? = some c
  stays : s.stuck = true → t.stuck = true

theorem Passes.refl (x : Timing T) (s : Loop T) : Passes x s s :=
  ⟨rfl, rfl, fun _ h => h, fun _ h => Or.inl h, fun _ _ h _ => h, id⟩

theorem passes_checkNow (hx : Abrupt x) (i : Nat) (s : Loop T) : Passes x s (checkNow x i s) := by
  unfold checkNow
  split
  · exact .refl x s
  · rename_i a ha
    split
    · rename_i hdue
      obtain ⟨h1, h2, h3, h4, h5⟩ := await_abrupt (s := dispatch i a s) hx (request a)
      refine ⟨h1, h2, fun e he => ?_, fun e he => ?_, fun j c hc hnd => ?_, fun h => h5.mpr (Or.inl h)⟩
      · rw [h4]
        exact List.mem_append_left _ he
      · rw [h4] at he
        rcases List.mem_append.mp he with he | he
        · exact Or.inl he
        · rw [List.mem_singleton.mp he]
          exact Or.inr rfl
      · have hne : i ≠ j := by
          intro e
          subst e
          cases ha.symm.trans hc
          rw [hnd] at hdue
          cases hdue
        rw [h3]
        exact (List.getElem?_set_ne hne).trans hc
    · exact .refl x s

theorem Passes.trans {t u : Loop T} (h : Passes x s t) (h' : Passes x t u) : Passes x s u := by
  refine ⟨h'.now.trans h.now, h'.inbox.trans h.inbox, fun e he => h'.log e (h.log e he), fun e he => ?_,
    fun i c hc hd => h'.waits i c (h.waits i c hc hd) (by rw [h.now]; exact hd), fun hs => h'.stays (h.stays hs)⟩
  rcases h'.new e he with he | he
  · exact h.new e he
  · exact Or.inr (he.trans h.now)

/-- A due trigger is submitted by its check. -/
theorem checkNow_due (hx : Abrupt x) (hc : s.states[i]? = some c) (hd : c.debouncer.due s.now = true) :
    (s.now, request c) ∈ (checkNow x i s).log ∧
      (x.takes (request c) s.now = none → (checkNow x i s).stuck = true) := by
  unfold checkNow
  rw [hc]
  simp only [hd, if_true]
  obtain ⟨-, -, -, h4, h5⟩ := await_abrupt (s := dispatch i c s) hx (request c)
  refine ⟨?_, fun h => h5.mpr (Or.inr h)⟩
  rw [h4]
  exact List.mem_append_right _ List.mem_cons_self

/-- Checking another trigger does nothing to this one. -/
theorem checkNow_ne (hx : Abrupt x) {j : Nat} (hne : j ≠ i) : (checkNow x j s).states[i]? = s.states[i]? := by
  unfold checkNow
  split
  · rfl
  · split
    · rename_i a _ _
      obtain ⟨-, -, h3, -, -⟩ := await_abrupt (s := dispatch j a s) hx (request a)
      rw [h3]
      exact List.getElem?_set_ne hne
    · rfl

theorem Passes.settled {t : Loop T} (h : Passes x s t) (hs : Settled s) : Settled t := by
  intro m hm
  rw [h.inbox] at hm
  rw [h.now]
  exact hs m hm

theorem passes_checks (hx : Abrupt x) (is : List Nat) (h : Settled s) : Passes x s (checks x is s) := by
  refine checks_keep (I := Passes x s) (fun i t ht => ?_) is (Passes.refl x s)
  rw [check_settled (ht.settled h)]
  exact ht.trans (passes_checkNow hx i t)

/-- A due trigger is submitted, unless the loop is stuck before; and it is stuck if the
    trigger's submit does not return. -/
theorem checks_due (hx : Abrupt x) {is : List Nat} (hi : i ∈ is) (h : Settled s) (hc : s.states[i]? = some c)
    (hd : c.debouncer.due s.now = true) :
    ((checks x is s).stuck = true ∨ (s.now, request c) ∈ (checks x is s).log) ∧
      (x.takes (request c) s.now = none → (checks x is s).stuck = true) := by
  induction is generalizing s with
  | nil => cases hi
  | cons j is ih =>
    unfold checks
    rw [check_settled h]
    by_cases hstuck : (checkNow x j s).stuck = true
    · rw [if_pos hstuck]
      exact ⟨Or.inl hstuck, fun _ => hstuck⟩
    · rw [if_neg hstuck]
      have hset := (passes_checkNow hx j s).settled h
      have hnow := (passes_checkNow hx j s).now
      by_cases e : j = i
      · subst e
        obtain ⟨hin, hnone⟩ := checkNow_due hx hc hd
        exact ⟨Or.inr ((passes_checks hx is hset).log _ hin), fun hn => absurd (hnone hn) hstuck⟩
      · have hi : i ∈ is := (List.mem_cons.mp hi).resolve_left (Ne.symm e)
        have := ih hi hset ((checkNow_ne hx e).trans hc) (by rw [hnow]; exact hd)
        rw [hnow] at this
        exact this

end

/-! ## The triggers stay as they are configured -/

section

variable [CommRing T] [LinearOrder T] {x : Timing T} {s : Loop T}

omit [CommRing T] in
theorem handled_config (now : T) (inbox : Trace T) (states : List (TriggerState T)) :
    (handled now inbox states).1.map config = states.map config := by
  induction inbox generalizing states with
  | nil => rfl
  | cons m inbox ih =>
    unfold handled
    split
    · rw [ih, List.map_map]
      exact List.map_congr_left fun c _ => Debounce.handle_config m.1 m.2 c
    · rfl

theorem check_config (x : Timing T) (i : Nat) (s : Loop T) : (check x i s).states.map config = s.states.map config := by
  have hd : (deliver s).states.map config = s.states.map config := handled_config _ _ _
  unfold check checkNow
  split
  · exact hd
  · rename_i a ha
    split
    · have hw : (await x (request a) (dispatch i a (deliver s))).states = (dispatch i a (deliver s)).states := by
        unfold await
        split <;> rfl
      rw [hw]
      exact (Debounce.reset_config ha).trans hd
    · exact hd

theorem checks_config (x : Timing T) (is : List Nat) (s : Loop T) :
    (checks x is s).states.map config = s.states.map config :=
  checks_keep (I := fun t => t.states.map config = s.states.map config) (fun i t h => (check_config x i t).trans h) is rfl

theorem ticks_config (x : Timing T) (n : Nat) (s : Loop T) : (ticks x n s).states.map config = s.states.map config :=
  ticks_keep (I := fun t => t.states.map config = s.states.map config) (fun i t h => (check_config x i t).trans h)
    (fun _ h => h) n rfl

/-! ## A tick of an abrupt executor -/

/-- The state in which a tick starts its checks. -/
def woken (s : Loop T) : Loop T := deliver { s with now := s.now + tickInterval }

theorem settled_woken (s : Loop T) : Settled (woken s) := settled_deliver _

theorem woken_config (s : Loop T) : (woken s).states.map config = s.states.map config := handled_config _ _ _

theorem tick_woken (hs : s.stuck = false) (hne : s.states ≠ []) :
    tick x s = checks x (List.range s.states.length) (woken s) := by
  have hfirst : ∀ i, check x i (woken s) = check x i { s with now := s.now + tickInterval } := by
    intro i
    exact check_settled (settled_deliver _)
  unfold tick checkDueAndDispatch
  rw [if_neg (by rw [hs]; exact Bool.false_ne_true)]
  cases hr : List.range s.states.length with
  | nil =>
    have := congrArg List.length hr
    rw [List.length_range] at this
    exact absurd (List.length_eq_zero_iff.mp this) hne
  | cons i is => simp only [checks, hfirst]

theorem tick_passes (hx : Abrupt x) (hs : s.stuck = false) (hne : s.states ≠ []) : Passes x (woken s) (tick x s) := by
  rw [tick_woken hs hne]
  exact passes_checks hx _ (settled_woken s)

/-- The trigger has a mark of this time. -/
def Armed (i : Nat) (time : T) (s : Loop T) : Prop :=
  ∃ c : TriggerState T, s.states[i]? = some c ∧ c.debouncer.pending = true ∧ c.debouncer.lastMark = some time

/-- A tick submits a trigger whose window has passed, unless it is stuck before; it is
    stuck if that submit does not return. Until then the trigger keeps its mark. -/
theorem tick_armed (hx : Abrupt x) (hs : s.stuck = false) {i : Nat} {time : T} {c : TriggerState T}
    (hc : s.states[i]? = some c) (ha : Armed i time (woken s)) :
    (c.debouncer.delay ≤ (woken s).now - time →
      ((tick x s).stuck = true ∨ ∃ r, ((woken s).now, r) ∈ (tick x s).log ∧ r.agentId = c.agentId) ∧
      ((∀ r t, r.agentId = c.agentId → x.takes r t = none) → (tick x s).stuck = true)) ∧
    (¬ c.debouncer.delay ≤ (woken s).now - time → Armed i time (tick x s)) := by
  have hne : s.states ≠ [] := fun e => by rw [e] at hc; cases hc
  obtain ⟨b, hb, hpending, hmark⟩ := ha
  obtain ⟨b', hb', hid, -, hdelay⟩ := Debounce.same_config (woken_config s).symm hc
  cases hb.symm.trans hb'
  have hdue : b.debouncer.due (woken s).now = decide (c.debouncer.delay ≤ (woken s).now - time) := by
    simp [RedisListener.Debouncer.due, hpending, hmark, hdelay]
  refine ⟨fun hle => ?_, fun hnle => ?_⟩
  · have hi : i ∈ List.range s.states.length := List.mem_range.mpr (List.getElem?_eq_some_iff.mp hc).1
    obtain ⟨hlog, hstuck⟩ := checks_due hx hi (settled_woken s) hb (by rw [hdue]; simpa using hle)
    rw [tick_woken hs hne]
    refine ⟨hlog.imp id fun h => ⟨_, h, hid⟩, fun h => hstuck (h _ _ hid)⟩
  · exact ⟨b, (tick_passes hx hs hne).waits i b hb (by rw [hdue]; simpa using hnle), hpending, hmark⟩

/-- Where no message is due before the next tick, only the clock moves. -/
theorem woken_quiet (h : ∀ m, s.inbox.head? = some m → s.now + tickInterval < m.1) :
    woken s = { s with now := s.now + tickInterval } := deliver_settled h

theorem stuck_stays (h : s.stuck = true) : tick x s = s := if_pos h

/-- The time of the `n`-th tick, if none was late. -/
def tickTime (start : T) (n : Nat) : T := start + tickInterval * n

/-- A loop after `n` ticks is not late, and has submitted nothing after its last one. -/
structure Timed (start : T) (n : Nat) (s : Loop T) : Prop where
  le : s.now ≤ tickTime start n
  now : s.stuck = false → s.now = tickTime start n
  log : ∀ e ∈ s.log, e.1 ≤ s.now

omit [LinearOrder T] in
theorem tickTime_add (start : T) (n m : Nat) : tickTime start (n + m) = tickTime start n + tickInterval * m := by
  rw [tickTime, tickTime, Nat.cast_add, mul_add, add_assoc]

omit [LinearOrder T] in
theorem tickTime_succ (start : T) (n : Nat) : tickTime start (n + 1) = tickTime start n + tickInterval := by
  rw [tickTime_add, Nat.cast_one, mul_one]

theorem begin_states {definitions : Definitions} {start : T} {i : Nat} {c : TriggerState T}
    (hc : (triggerStates definitions)[i]? = some c) (trace : Trace T) : (begin definitions start trace).states ≠ [] := by
  intro e
  have e : triggerStates definitions = ([] : List (TriggerState T)) := e
  rw [e] at hc
  cases hc

theorem ticks_states {definitions : Definitions} {i : Nat} {c : TriggerState T}
    (hc : (triggerStates definitions)[i]? = some c) (start : T) (trace : Trace T) (x : Timing T) (n : Nat) :
    ∃ b, (ticks x n (begin definitions start trace)).states[i]? = some b ∧ b.agentId = c.agentId ∧
      b.topics = c.topics ∧ b.debouncer.delay = c.debouncer.delay :=
  Debounce.same_config (ticks_config x n (begin definitions start trace)).symm hc

end

section

variable [CommRing T] [LinearOrder T] [IsStrictOrderedRing T] {x : Timing T} {s : Loop T} {start : T}

theorem tickInterval_pos : (0 : T) < tickInterval := by
  exact Nat.ofNat_pos

theorem tickTime_le {m n : Nat} : tickTime start m ≤ tickTime start n ↔ m ≤ n := by
  unfold tickTime
  rw [add_le_add_iff_left, mul_le_mul_iff_of_pos_left tickInterval_pos, Nat.cast_le]

theorem tickTime_lt {m n : Nat} : tickTime start m < tickTime start n ↔ m < n := by
  rw [← not_le, tickTime_le, not_le]

theorem start_le_tickTime (n : Nat) : start ≤ tickTime start n :=
  le_add_of_nonneg_right (mul_nonneg tickInterval_pos.le (Nat.cast_nonneg n))

theorem timed_ticks (hx : Abrupt x) (hne : s.states ≠ []) (h0 : s.now = start) (hl : s.log = []) (n : Nat) :
    Timed start n (ticks x n s) := by
  induction n with
  | zero =>
    have hz : tickTime start 0 = start := by simp [tickTime]
    exact ⟨by rw [hz]; exact le_of_eq h0, fun _ => by rw [hz]; exact h0, fun e he => (by rw [ticks, hl] at he; cases he)⟩
  | succ n ih =>
    cases hs : (ticks x n s).stuck with
    | true =>
      rw [ticks, stuck_stays hs]
      refine ⟨ih.le.trans (tickTime_le.mpr (Nat.le_succ n)), fun h => ?_, ih.log⟩
      rw [hs] at h
      cases h
    | false =>
      have hne' : (ticks x n s).states ≠ [] := by
        intro e
        have := ticks_config x n s
        rw [e] at this
        exact hne (List.map_eq_nil_iff.mp this.symm)
      have hp := tick_passes hx hs hne'
      have hnow : (tick x (ticks x n s)).now = tickTime start (n + 1) := by
        rw [hp.now, tickTime_succ, ← ih.now hs]
        rfl
      refine ⟨le_of_eq hnow, fun _ => hnow, fun e he => ?_⟩
      rcases hp.new e he with he | he
      · have h1 := ih.log e he
        rw [ih.now hs] at h1
        rw [ticks, hnow]
        exact h1.trans (tickTime_le.mpr (Nat.le_succ n))
      · rw [he, ticks, hp.now]

/-! ## A submit of another agent that never returns -/

/-- A message at the start, and one when the tick after the `k`-th would be. -/
def apart (start : T) (k : Nat) (first second : String) : Trace T := [(start, first), (tickTime start (k + 1), second)]

theorem apart_inOrder (start : T) (k : Nat) (first second : String) : InOrder start (apart start k first second) := by
  have hle : start ≤ tickTime start (k + 1) := start_le_tickTime _
  refine ⟨?_, fun m hm => ?_⟩
  · simpa [apart] using hle
  · simp only [apart, List.mem_cons, List.not_mem_nil, or_false] at hm
    rcases hm with e | e
    · rw [e]
    · rw [e]; exact hle

variable {definitions : Definitions} {k : Nat} {first second : String}

/-- The loop with these two messages to come. -/
abbrev twoApart (definitions : Definitions) (start : T) (k : Nat) (first second : String) : Loop T :=
  begin definitions start (apart start k first second)

/-- The first message is handled at the first tick, the second one not before tick `k + 1`. -/
theorem woken_begin (hk : 1 ≤ k) :
    woken (twoApart definitions start k first second) =
      { twoApart definitions start k first second with
        states := (triggerStates definitions).map (·.handle start first), now := tickTime start 1,
        inbox := [(tickTime start (k + 1), second)] } := by
  have hnow : start + tickInterval = tickTime start 1 := by simp [tickTime]
  have h1 : start ≤ tickTime start 1 := start_le_tickTime 1
  have h2 : ¬ tickTime start (k + 1) ≤ tickTime start 1 := by
    rw [tickTime_le]
    omega
  simp [woken, begin, deliver, apart, handled, hnow, h1, h2]

variable {i : Nat} {c : TriggerState T}

theorem ticks_timed (hx : Abrupt x) (hc : (triggerStates definitions)[i]? = some c) (n : Nat) :
    Timed start n (ticks x n (twoApart definitions start k first second)) :=
  timed_ticks hx (begin_states hc _) rfl rfl n

omit [IsStrictOrderedRing T] in
theorem ticks_passes (hx : Abrupt x) (hc : (triggerStates definitions)[i]? = some c) (trace : Trace T) {n : Nat}
    (hs : (ticks x n (begin definitions start trace)).stuck = false) :
    Passes x (woken (ticks x n (begin definitions start trace))) (ticks x (n + 1) (begin definitions start trace)) := by
  obtain ⟨b, hb, -⟩ := ticks_states hc start trace x n
  exact tick_passes hx hs fun e => by rw [e] at hb; cases hb

omit [IsStrictOrderedRing T] in
theorem not_stuck_before {n : Nat} (h : (ticks x (n + 1) s).stuck = false) : (ticks x n s).stuck = false := by
  cases hs : (ticks x n s).stuck with
  | false => rfl
  | true =>
    rw [ticks, stuck_stays hs, hs] at h
    cases h

/-- Between the two messages only the clock moves to the next tick. -/
theorem woken_between (hx : Abrupt x) (hc : (triggerStates definitions)[i]? = some c) {n : Nat} (hk : n + 1 ≤ k)
    (hs : (ticks x n (twoApart definitions start k first second)).stuck = false)
    (hi : (ticks x n (twoApart definitions start k first second)).inbox = [(tickTime start (k + 1), second)]) :
    woken (ticks x n (twoApart definitions start k first second)) =
      { ticks x n (twoApart definitions start k first second) with
        now := (ticks x n (twoApart definitions start k first second)).now + tickInterval } := by
  refine woken_quiet fun m hm => ?_
  rw [hi] at hm
  cases hm
  rw [(ticks_timed hx hc n).now hs, ← tickTime_succ, tickTime_lt]
  omega

/-- Until tick `k` the second message is to come. -/
theorem inbox_between (hx : Abrupt x) (hc : (triggerStates definitions)[i]? = some c) {n : Nat} (hn : 1 ≤ n) (hk : n ≤ k)
    (hs : (ticks x n (twoApart definitions start k first second)).stuck = false) :
    (ticks x n (twoApart definitions start k first second)).inbox = [(tickTime start (k + 1), second)] := by
  induction n with
  | zero => omega
  | succ n ih =>
    have hs' := not_stuck_before hs
    rw [(ticks_passes hx hc _ hs').inbox]
    by_cases h0 : n = 0
    · subst h0
      rw [ticks, woken_begin (by omega)]
    · have hi := ih (by omega) (by omega) hs'
      rw [woken_between hx hc (by omega) hs' hi]
      exact hi

theorem woken_now (hx : Abrupt x) (hc : (triggerStates definitions)[i]? = some c) {n : Nat}
    (hs : (ticks x n (twoApart definitions start k first second)).stuck = false) :
    (woken (ticks x n (twoApart definitions start k first second))).now = tickTime start (n + 1) := by
  rw [tickTime_succ, ← (ticks_timed hx hc n).now hs]
  rfl

/-- The trigger that has the first message keeps its mark until it is submitted. -/
theorem armed_between (hx : Abrupt x) (hc : (triggerStates definitions)[i]? = some c) (ht : first ∈ c.topics)
    (hnone : ∀ r t, r.agentId = c.agentId → x.takes r t = none) {n : Nat} (hk : n + 1 ≤ k)
    (hs : (ticks x n (twoApart definitions start k first second)).stuck = false) :
    Armed i start (woken (ticks x n (twoApart definitions start k first second))) := by
  induction n with
  | zero =>
    rw [ticks, woken_begin (by omega)]
    refine ⟨c.handle start first, by simp [hc], ?_, ?_⟩ <;> simp [TriggerState.handle, ht, RedisListener.Debouncer.mark]
  | succ n ih =>
    have hs' := not_stuck_before hs
    obtain ⟨b, hb, hid, -, -⟩ := ticks_states hc start (apart start k first second) x n
    obtain ⟨hdue, hwait⟩ := tick_armed hx hs' hb (ih (by omega) hs')
    have hnot : ¬ b.debouncer.delay ≤ (woken (ticks x n (twoApart definitions start k first second))).now - start := by
      intro hle
      have := (hdue hle).2 fun r t hr => hnone r t (hr.trans hid)
      rw [ticks, this] at hs
      cases hs
    obtain ⟨b', hb', h1, h2⟩ := hwait hnot
    rw [woken_between hx hc hk hs (inbox_between hx hc (by omega) (by omega) hs)]
    exact ⟨b', hb', h1, h2⟩

/-- The loop is stuck at tick `k` if the trigger's window has passed and its submit does
    not return. -/
theorem stuck_by (hx : Abrupt x) (hc : (triggerStates definitions)[i]? = some c) (ht : first ∈ c.topics)
    (hnone : ∀ r t, r.agentId = c.agentId → x.takes r t = none) (hd : c.debouncer.delay ≤ tickInterval * (k : T)) (hk : 1 ≤ k) :
    (ticks x k (twoApart definitions start k first second)).stuck = true := by
  obtain ⟨n, e⟩ : ∃ n, k = n + 1 := ⟨k - 1, by omega⟩
  subst e
  cases hs : (ticks x n (twoApart definitions start (n + 1) first second)).stuck with
  | true =>
    rw [ticks, stuck_stays hs]
    exact hs
  | false =>
    obtain ⟨b, hb, hid, -, hdelay⟩ := ticks_states hc start (apart start (n + 1) first second) x n
    obtain ⟨hdue, -⟩ := tick_armed hx hs hb (armed_between hx hc ht hnone (le_refl _) hs)
    refine (hdue ?_).2 fun r t hr => hnone r t (hr.trans hid)
    rw [woken_now hx hc hs, hdelay, tickTime, add_sub_cancel_left]
    exact hd

/-- A loop that is stuck after `k` ticks has submitted nothing later. -/
theorem log_before (hx : Abrupt x) (hc : (triggerStates definitions)[i]? = some c)
    (hs : (ticks x k (twoApart definitions start k first second)).stuck = true) (n : Nat) :
    ∀ e ∈ (ticks x n (twoApart definitions start k first second)).log, e.1 ≤ tickTime start k := by
  have hlate : ∀ j, ticks x (k + j) (twoApart definitions start k first second) = ticks x k (twoApart definitions start k first second) := by
    intro j
    induction j with
    | zero => rfl
    | succ j ih => rw [← Nat.add_assoc, ticks, ih, stuck_stays hs]
  intro e he
  rcases Nat.le_total n k with hn | hn
  · have ht : Timed start n (ticks x n (twoApart definitions start k first second)) := ticks_timed hx hc n
    exact (ht.log e he).trans (ht.le.trans (tickTime_le.mpr hn))
  · obtain ⟨j, rfl⟩ := Nat.exists_eq_add_of_le hn
    rw [hlate] at he
    have ht : Timed start k (ticks x k (twoApart definitions start k first second)) := ticks_timed hx hc k
    exact (ht.log e he).trans ht.le

/-! ## A loop that is never held up -/

omit [IsStrictOrderedRing T] in
theorem check_returns (hx : ∀ r t, x.takes r t = some 0) (i : Nat) (hs : s.stuck = false) : (check x i s).stuck = false := by
  unfold check checkNow
  split
  · exact hs
  · split
    · unfold await
      rw [hx]
      exact hs
    · exact hs

omit [IsStrictOrderedRing T] in
theorem ticks_return (hx : ∀ r t, x.takes r t = some 0) (n : Nat) (hs : s.stuck = false) : (ticks x n s).stuck = false :=
  ticks_keep (I := fun s => s.stuck = false) (fun i _ h => check_returns hx i h) (fun _ h => h) n hs

/-- The agent has been submitted at or after this time. -/
def Served (agentId : String) (time : T) (s : Loop T) : Prop := ∃ e ∈ s.log, time ≤ e.1 ∧ e.2.agentId = agentId

/-- At tick `k + 1` the second message is handled, and marks its trigger. -/
theorem armed_second (hx : ∀ r t, x.takes r t = some 0) (hc : (triggerStates definitions)[i]? = some c)
    (ht : second ∈ c.topics) (hk : 1 ≤ k) :
    Armed i (tickTime start (k + 1)) (woken (ticks x k (twoApart definitions start k first second))) ∧
      (woken (ticks x k (twoApart definitions start k first second))).inbox = [] := by
  have hab : Abrupt x := fun r t => Or.inl (hx r t)
  have hs : (ticks x k (twoApart definitions start k first second)).stuck = false := ticks_return hx k rfl
  obtain ⟨b, hb, -, htopics, -⟩ := ticks_states hc start (apart start k first second) x k
  have hnow : (ticks x k (twoApart definitions start k first second)).now + tickInterval = tickTime start (k + 1) := by
    rw [tickTime_succ, (ticks_timed hab hc k).now hs]
  have hinbox : (ticks x k (twoApart definitions start k first second)).inbox = [(tickTime start (k + 1), second)] :=
    inbox_between hab hc hk (le_refl k) hs
  have hw : woken (ticks x k (twoApart definitions start k first second)) =
      { ticks x k (twoApart definitions start k first second) with
        states := (ticks x k (twoApart definitions start k first second)).states.map (·.handle (tickTime start (k + 1)) second),
        now := tickTime start (k + 1), inbox := [] } := by
    simp [woken, deliver, handled, hnow, hinbox]
  have ht' : second ∈ b.topics := by
    rw [htopics]
    exact ht
  rw [hw]
  refine ⟨⟨b.handle (tickTime start (k + 1)) second, by simp [hb], ?_, ?_⟩, rfl⟩ <;>
    simp [TriggerState.handle, ht', RedisListener.Debouncer.mark]

/-- From then on the trigger keeps this mark until its agent is submitted. -/
theorem served_or_armed (hx : ∀ r t, x.takes r t = some 0) (hc : (triggerStates definitions)[i]? = some c)
    (ht : second ∈ c.topics) (hk : 1 ≤ k) (j : Nat) :
    Served c.agentId (tickTime start (k + 1)) (ticks x (k + j) (twoApart definitions start k first second)) ∨
      (Armed i (tickTime start (k + 1)) (woken (ticks x (k + j) (twoApart definitions start k first second))) ∧
        (woken (ticks x (k + j) (twoApart definitions start k first second))).inbox = []) := by
  have hab : Abrupt x := fun r t => Or.inl (hx r t)
  induction j with
  | zero => exact Or.inr (armed_second hx hc ht hk)
  | succ j ih =>
    have hs : (ticks x (k + j) (twoApart definitions start k first second)).stuck = false := ticks_return hx (k + j) rfl
    have hp := ticks_passes hab hc (apart start k first second) hs
    rcases ih with ⟨e, he, hserved⟩ | ⟨harmed, hinbox⟩
    · exact Or.inl ⟨e, hp.log e he, hserved⟩
    · obtain ⟨b, hb, hid, -, -⟩ := ticks_states hc start (apart start k first second) x (k + j)
      obtain ⟨hdue, hwait⟩ := tick_armed hab hs hb harmed
      by_cases hle : b.debouncer.delay ≤
          (woken (ticks x (k + j) (twoApart definitions start k first second))).now - tickTime start (k + 1)
      · rcases (hdue hle).1 with h | ⟨r, hr, hagent⟩
        · have hs' : (ticks x (k + j + 1) (twoApart definitions start k first second)).stuck = false := ticks_return hx _ rfl
          rw [ticks, h] at hs'
          cases hs'
        · refine Or.inl ⟨_, hr, ?_, hagent.trans hid⟩
          rw [woken_now hab hc hs, tickTime_le]
          omega
      · have hw : woken (ticks x (k + j + 1) (twoApart definitions start k first second)) = _ :=
          woken_quiet fun m hm => by rw [hp.inbox, hinbox] at hm; cases hm
        right
        rw [← Nat.add_assoc, hw]
        exact ⟨hwait hle, hp.inbox.trans hinbox⟩

/-- So a later message is not lost: its agent is submitted at or after its time. -/
theorem served (hx : ∀ r t, x.takes r t = some 0) (hc : (triggerStates definitions)[i]? = some c)
    (ht : second ∈ c.topics) (hk : 1 ≤ k) {m : Nat} (hd : c.debouncer.delay ≤ tickInterval * (m : T)) :
    ∃ n, Served c.agentId (tickTime start (k + 1)) (ticks x n (twoApart definitions start k first second)) := by
  have hab : Abrupt x := fun r t => Or.inl (hx r t)
  have hs : (ticks x (k + m) (twoApart definitions start k first second)).stuck = false := ticks_return hx (k + m) rfl
  have hm : Served c.agentId (tickTime start (k + 1)) (ticks x (k + m) (twoApart definitions start k first second)) ∨ _ :=
    served_or_armed hx hc ht hk m
  rcases hm with h | ⟨harmed, -⟩
  · exact ⟨_, h⟩
  · obtain ⟨b, hb, hid, -, hdelay⟩ := ticks_states hc start (apart start k first second) x (k + m)
    have hnow : (woken (ticks x (k + m) (twoApart definitions start k first second))).now = tickTime start (k + m + 1) :=
      woken_now hab hc hs
    have hdue := (tick_armed hab hs hb harmed).1 (by
      rw [hnow, hdelay, Nat.add_right_comm, tickTime_add, add_sub_cancel_left]
      exact hd)
    rcases hdue.1 with h | ⟨r, hr, hagent⟩
    · have hs' : (ticks x (k + m + 1) (twoApart definitions start k first second)).stuck = false := ticks_return hx _ rfl
      rw [ticks, h] at hs'
      cases hs'
    · refine ⟨k + m + 1, _, hr, ?_, hagent.trans hid⟩
      rw [hnow, tickTime_le]
      omega

/-! ## Independence, exactly -/

omit x s start definitions k first second i c in
/-- Some number of ticks is longer than the window. -/
theorem delay_le_ticks (t : Config.EventTrigger) : ∃ k : Nat, 1 ≤ k ∧ RedisListener.delay t ≤ (tickInterval : T) * (k : T) := by
  refine ⟨12 * t.debounceMinutes.toNat + 1, by omega, ?_⟩
  have hm : (t.debounceMinutes : T) ≤ ((t.debounceMinutes.toNat : Int) : T) := Int.cast_le.mpr (Int.self_le_toNat _)
  have h0 : (0 : T) ≤ (t.debounceMinutes.toNat : T) := Nat.cast_nonneg _
  rw [Int.cast_natCast] at hm
  unfold RedisListener.delay tickInterval
  push_cast
  refine max_le ?_ ?_
  · linarith
  · linarith

omit x s start k first second i in
theorem delay_reached (hc : c ∈ triggerStates definitions) : ∃ k : Nat, 1 ≤ k ∧ c.debouncer.delay ≤ tickInterval * (k : T) := by
  simp only [triggerStates, List.mem_flatMap, List.mem_map] at hc
  obtain ⟨d, -, t, -, e⟩ := hc
  subst e
  exact delay_le_ticks t

/-- All submits return at once. -/
def prompt : Timing T := ⟨fun _ _ => some 0, fun _ _ _ e => by cases e; exact le_refl _⟩

/-- Those of the other agents never return. -/
def promptFor (agentId : String) : Timing T :=
  ⟨fun r _ => if r.agentId = agentId then some 0 else none, fun r _ d e => by
    split at e
    · cases e; exact le_refl _
    · cases e⟩

/-- Both agents have a trigger with a topic: while the submit of the other one does not
    return, a message of the agent's own is not followed by a submit. -/
theorem not_independent {a : String} {c' : TriggerState T} (hc : c ∈ triggerStates definitions) (ha : c.agentId ≠ a)
    (hfirst : first ∈ c.topics) (hc' : c' ∈ triggerStates definitions) (ha' : c'.agentId = a) (hsecond : second ∈ c'.topics) :
    ¬ Independent T definitions a := by
  intro h
  obtain ⟨k, hk, hd⟩ := delay_reached hc
  obtain ⟨i, hi⟩ := List.mem_iff_getElem?.mp hc
  obtain ⟨j, hj⟩ := List.mem_iff_getElem?.mp hc'
  obtain ⟨m, -, hm⟩ := delay_reached hc'
  have hagree : Agree a (prompt (T := T)) (promptFor a) := fun r t hr => (if_pos hr).symm
  have habrupt : Abrupt (promptFor (T := T) a) := by
    intro r t
    by_cases hr : r.agentId = a
    · exact Or.inl (if_pos hr)
    · exact Or.inr (if_neg hr)
  have hnone : ∀ r t, r.agentId = c.agentId → (promptFor (T := T) a).takes r t = none := fun r t hr =>
    if_neg (by rw [hr]; exact ha)
  have hstuck : (ticks (promptFor a) k (twoApart definitions (0 : T) k first second)).stuck = true :=
    stuck_by habrupt hi hfirst hnone hd hk
  have hserved : ∃ n, Served c'.agentId (tickTime (0 : T) (k + 1)) (ticks prompt n (twoApart definitions 0 k first second)) :=
    served (fun _ _ => rfl) hj hsecond hk hm
  obtain ⟨n, e, he, hle, hid⟩ := hserved
  obtain ⟨n', hpre⟩ := h 0 _ (apart_inOrder 0 k first second) _ _ hagree n
  have hmem := hpre.subset (List.mem_filter.mpr ⟨he, by simpa using hid.trans ha'⟩)
  have hbefore := log_before habrupt hi hstuck n' e (List.mem_filter.mp hmem).1
  exact absurd (hle.trans hbefore) (not_le.mpr (tickTime_lt.mpr (Nat.lt_succ_self k)))

omit [IsStrictOrderedRing T] x s start k first second i c in
/-- No trigger of another agent has a topic. -/
theorem independent_of_mute_others {a : String}
    (h : ∀ c ∈ triggerStates (T := T) definitions, c.agentId ≠ a → c.topics = []) : Independent T definitions a := by
  intro start trace _ x y hxy n
  have hsame : ticks x n (begin definitions start trace) = ticks y n (begin definitions start trace) :=
    ticks_agree hxy n (mute_begin h)
  exact ⟨n, hsame ▸ List.prefix_rfl⟩

omit [IsStrictOrderedRing T] x s start k first second i c in
/-- No trigger of the agent has a topic: it has no requests. -/
theorem independent_of_mute {a : String}
    (h : ∀ c ∈ triggerStates (T := T) definitions, c.agentId = a → c.topics = []) : Independent T definitions a := by
  intro start trace _ x y _ n
  refine ⟨0, ?_⟩
  have hm : Mute (· = a) (ticks x n (begin definitions start trace)) := mute_ticks x n (mute_begin h)
  have : (ticks x n (begin definitions start trace)).requests a = [] :=
    List.filter_eq_nil_iff.mpr fun e he => by simpa using hm.log e he
  rw [this]
  exact List.nil_prefix

omit x s start k first second i c in
/-- An agent's requests are submitted when they would be whatever the submits of the others
    take, exactly if no trigger of another agent has a topic or none of its own has. -/
theorem independent_iff (definitions : Definitions) (a : String) :
    Independent T definitions a ↔
      (∀ c ∈ triggerStates (T := T) definitions, c.agentId ≠ a → c.topics = []) ∨
        ∀ c ∈ triggerStates (T := T) definitions, c.agentId = a → c.topics = [] := by
  constructor
  · intro h
    by_contra hnot
    simp only [not_or, not_forall] at hnot
    obtain ⟨⟨c, hc, ha, ht⟩, c', hc', ha', ht'⟩ := hnot
    obtain ⟨first, hfirst⟩ := List.exists_mem_of_ne_nil _ ht
    obtain ⟨second, hsecond⟩ := List.exists_mem_of_ne_nil _ ht'
    exact not_independent hc ha hfirst hc' ha' hsecond h
  · rintro (h | h)
    · exact independent_of_mute_others h
    · exact independent_of_mute h

end

/-! Two agents on one topic: with the messages of `apart`, the first agent's submit holds up
    the second one's. -/

def twoAgents : Definitions :=
  Keyed.ofList Config.AgentDefinition.id
    [{ id := "event-deduplicator", triggers := [.event { topics := ["document.ingested"] }] },
      { id := "re-categorizer", triggers := [.event { topics := ["document.ingested"] }] }]

theorem independent_iff_alone : Independent Int RedisListener.onIngest "event-deduplicator" :=
  (independent_iff RedisListener.onIngest "event-deduplicator").mpr (by decide)

theorem waits_for_other_agent : ¬ Independent Int twoAgents "re-categorizer" := by
  obtain ⟨c, hc, ha, ht⟩ : ∃ c ∈ triggerStates (T := Int) twoAgents,
      c.agentId ≠ "re-categorizer" ∧ "document.ingested" ∈ c.topics := by decide
  obtain ⟨c', hc', ha', ht'⟩ : ∃ c ∈ triggerStates (T := Int) twoAgents,
      c.agentId = "re-categorizer" ∧ "document.ingested" ∈ c.topics := by decide
  exact not_independent hc ha ht hc' ha' ht'

end SagaAgents.Triggers.TickLoop
