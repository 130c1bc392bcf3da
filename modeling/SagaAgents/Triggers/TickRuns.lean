/-
  SagaAgents.Triggers.TickRuns — the timed tick loop as runs of the listener.

  The timed loop computes what the listener does when the messages and the durations of the
  submits are given. Here each of its steps is carried out by events of the listener: the
  clock moves to a message's time before the message is handled, a submit enters its run
  and ends when the loop says so, and one that never returns stays in progress.

  Proved: `ticks_run`. After any number of ticks the listener has a run to a state with the
  same triggers and the same submissions at the same times, so what holds of every run of
  the listener holds of the timed loop.
-/

import SagaAgents.Triggers.TickLoop

namespace SagaAgents.Triggers.TickLoop

open Lib
open Config (Definitions)
open Executor (RunRequest)
open RedisListener (TriggerState triggerStates)
open Debounce (request)

variable {T : Type}

variable [CommRing T] [LinearOrder T]

/-- `RedisListener.step`, with every enabled event allowed. -/
abbrev ListenerRun : RedisListener.St T → RedisListener.St T → Prop := Run RedisListener.step fun _ _ => True

/-- Sorted, and not before this time. -/
def From (time : T) (inbox : Trace T) : Prop := (inbox.map (·.1)).Pairwise (· ≤ ·) ∧ ∀ m ∈ inbox, time ≤ m.1

/-- The listener of the other model has handled the same messages and submitted the same
    requests. -/
structure Follows (loop : RedisListener.Loop) (s : Loop T) (t : RedisListener.St T) : Prop where
  loop : t.loop = loop
  states : t.states = (deliver s).states
  now : t.now = s.now
  log : t.subs.map (fun u => (u.issuedAt, u.request)) = s.log
  inbox : From s.now (deliver s).inbox

omit [CommRing T] in
theorem handled_from {time now : T} {inbox : Trace T} (h : From time inbox) (states : List (TriggerState T)) :
    From now (handled now inbox states).2 := by
  induction inbox generalizing states with
  | nil => exact ⟨List.Pairwise.nil, fun m hm => (by cases hm)⟩
  | cons m inbox ih =>
    obtain ⟨hsorted, hle⟩ := h
    rw [List.map_cons, List.pairwise_cons] at hsorted
    unfold handled
    split
    · exact ih ⟨hsorted.2, fun b hb => hle b (List.mem_cons_of_mem _ hb)⟩ _
    · rename_i hm
      refine ⟨List.pairwise_cons.mpr hsorted, fun b hb => ?_⟩
      rcases List.mem_cons.mp hb with e | hb
      · subst e
        exact (not_le.mp hm).le
      · exact (not_le.mp hm).le.trans (hsorted.1 _ (List.mem_map_of_mem hb))

/-- The messages up to `now`, each after the clock has reached its time. -/
theorem handled_run {now : T} {inbox : Trace T} {t : RedisListener.St T} (h : From t.now inbox) (hn : t.now ≤ now) :
    ListenerRun t { t with states := (handled now inbox t.states).1, now := now } := by
  induction inbox generalizing t with
  | nil => exact .single (.clock now) trivial (if_pos hn)
  | cons m inbox ih =>
    obtain ⟨hsorted, hle⟩ := h
    rw [List.map_cons, List.pairwise_cons] at hsorted
    unfold handled
    split
    · rename_i hm
      have hclock : ListenerRun t { t with now := m.1 } :=
        .single (.clock m.1) trivial (if_pos (hle m List.mem_cons_self))
      have hmessage : ListenerRun { t with now := m.1 } { t with now := m.1, states := t.states.map (·.handle m.1 m.2) } :=
        .single (.message m.2) trivial rfl
      have hrest : From m.1 inbox := ⟨hsorted.2, fun b hb => hsorted.1 _ (List.mem_map_of_mem hb)⟩
      exact (hclock.trans hmessage).trans (ih (t := { t with now := m.1, states := t.states.map (·.handle m.1 m.2) }) hrest hm)
    · exact .single (.clock now) trivial (if_pos hn)

omit [CommRing T] in
theorem handled_handled {before now : T} (h : before ≤ now) (inbox : Trace T) (states : List (TriggerState T)) :
    handled now (handled before inbox states).2 (handled before inbox states).1 = handled now inbox states := by
  induction inbox generalizing states with
  | nil => rfl
  | cons m inbox ih =>
    by_cases hm : m.1 ≤ before
    · simp only [handled, if_pos hm, if_pos (hm.trans h), ih]
    · simp only [handled, if_neg hm]

variable {s : Loop T} {t : RedisListener.St T} {loop : RedisListener.Loop} {x : Timing T} {i : Nat}

/-- Time passes. -/
theorem follows_later (h : Follows loop s t) {now : T} (hn : s.now ≤ now) :
    ∃ t', ListenerRun t t' ∧ t'.subs = t.subs ∧ Follows loop { s with now := now } t' := by
  refine ⟨{ t with states := (handled now (deliver s).inbox t.states).1, now := now },
    handled_run (h.now ▸ h.inbox) (h.now ▸ hn), rfl, h.loop, ?_, rfl, h.log, ?_⟩
  · rw [h.states]
    exact congrArg Prod.fst (handled_handled hn s.inbox s.states)
  · have hfrom : From now (handled now (deliver s).inbox (deliver s).states).2 := handled_from h.inbox _
    rw [deliver, handled_handled hn] at hfrom
    exact hfrom

/-- The trigger that is due is submitted, and its submit enters a run. -/
theorem follows_dispatch (h : Follows (.checking i) s t) {a : TriggerState T} (ha : (deliver s).states[i]? = some a)
    (hd : a.debouncer.due s.now = true) :
    ∃ t' k u, ListenerRun t t' ∧ Follows (.awaiting i k) (dispatch i a (deliver s)) t' ∧
      t'.subs[k]? = some u ∧ u.entered = true := by
  have ha' : t.states[i]? = some a := by rw [h.states]; exact ha
  let u : RedisListener.Submission T := { trigger := i, request := request a, issuedAt := t.now }
  let issued : RedisListener.St T :=
    { t with
      states := t.states.set i { a with debouncer := a.debouncer.reset }, subs := t.subs ++ [u],
      loop := .awaiting i t.subs.length }
  have hcheck : RedisListener.step t .check = some issued := by
    simp only [RedisListener.step, h.loop, RedisListener.check, ha', h.now, hd, if_true]
    rw [← h.now]
    rfl
  have hk : issued.subs[t.subs.length]? = some u := by simp [issued]
  have henters : RedisListener.step issued .enters =
      some { issued with subs := issued.subs.set t.subs.length { u with entered := true } } := by
    simp only [RedisListener.step, issued]
    rw [show (t.subs ++ [u])[t.subs.length]? = some u from hk]
    rfl
  have hsettled : deliver (dispatch i a (deliver s)) = dispatch i a (deliver s) :=
    deliver_settled (s := dispatch i a (deliver s)) (settled_deliver s)
  refine ⟨_, t.subs.length, { u with entered := true }, (Run.single .check trivial hcheck).tail .enters trivial henters,
    ⟨rfl, ?_, h.now, ?_, ?_⟩, ?_, rfl⟩
  · rw [hsettled]
    exact congrArg (fun l => l.set i { a with debouncer := a.debouncer.reset }) h.states
  · simp [issued, u, dispatch, deliver, h.log, h.now]
  · rw [hsettled]
    exact h.inbox
  · simp [issued]

/-- The submit returns. -/
theorem follows_returns {k : Nat} {u : RedisListener.Submission T} (h : Follows (.awaiting i k) s t)
    (hu : t.subs[k]? = some u) (he : u.entered = true) :
    ∃ t', ListenerRun t t' ∧ Follows (.checking (i + 1)) s t' := by
  have hends : RedisListener.step t (.ends (.completed true)) =
      some { t with subs := t.subs.set k { u with outcome := some (.completed true) }, loop := .checking (i + 1) } := by
    simp [RedisListener.step, h.loop, hu, RedisListener.possible, he]
  refine ⟨_, .single _ trivial hends, rfl, h.states, h.now, ?_, h.inbox⟩
  rw [← h.log]
  exact Tasks.map_move hu rfl

/-- The listener starts with no triggers marked; at the start it handles the messages that
    are there. -/
theorem follows_begin {definitions : Definitions} {start : T} {trace : Trace T} (h : InOrder start trace) :
    ∃ t, ListenerRun (RedisListener.init definitions start) t ∧ Follows .sleeping (begin definitions start trace) t :=
  ⟨_, handled_run (t := RedisListener.init definitions start) h (le_refl start), rfl, rfl, rfl, rfl, handled_from h _⟩

omit [CommRing T] [LinearOrder T] in
theorem config_length {as bs : List (TriggerState T)} (h : as.map Debounce.config = bs.map Debounce.config) :
    as.length = bs.length := by
  have := congrArg List.length h
  rwa [List.length_map, List.length_map] at this

variable [IsStrictOrderedRing T]

/-- The check of a trigger. -/
theorem follows_check (h : Follows (.checking i) s t) (hi : i < s.states.length) :
    ∃ t' loop', ListenerRun t t' ∧ ((check x i s).stuck = false → loop' = .checking (i + 1)) ∧ Follows loop' (check x i s) t' := by
  have hsettled : deliver (deliver s) = deliver s := deliver_settled (settled_deliver s)
  have hlen : i < (deliver s).states.length := (config_length (handled_config s.now s.inbox s.states)).symm ▸ hi
  obtain ⟨a, ha⟩ : ∃ a, (deliver s).states[i]? = some a := ⟨_, List.getElem?_eq_getElem hlen⟩
  unfold check checkNow
  simp only [ha]
  split
  · rename_i hd
    obtain ⟨t₁, k, u, hr₁, h₁, hu, he⟩ := follows_dispatch h ha hd
    unfold await
    split
    · rename_i d hx
      have hle : (dispatch i a (deliver s)).now ≤ (dispatch i a (deliver s)).now + d :=
        le_add_of_nonneg_right (x.nonneg _ _ d hx)
      obtain ⟨t₂, hr₂, hsubs, h₂⟩ := follows_later h₁ hle
      obtain ⟨t₃, hr₃, h₃⟩ := follows_returns h₂ (hsubs ▸ hu) he
      exact ⟨t₃, _, (hr₁.trans hr₂).trans hr₃, fun _ => rfl, h₃⟩
    · exact ⟨t₁, _, hr₁, fun hf => (by cases hf), h₁.loop, h₁.states, h₁.now, h₁.log, h₁.inbox⟩
  · rename_i hd
    have ha' : t.states[i]? = some a := by rw [h.states]; exact ha
    have hcheck : RedisListener.step t .check = some { t with loop := .checking (i + 1) } := by
      have hd : a.debouncer.due t.now = false := by rw [h.now]; exact Bool.eq_false_iff.mpr hd
      simp [RedisListener.step, h.loop, RedisListener.check, ha', hd]
    exact ⟨_, _, .single .check trivial hcheck, fun _ => rfl, rfl, by rw [hsettled]; exact h.states, h.now, h.log,
      by rw [hsettled]; exact h.inbox⟩

/-- The checks of the triggers from `i` on. -/
theorem follows_checks {n : Nat} (h : Follows (.checking i) s t) (hs : s.stuck = false) (hn : i + n = s.states.length) :
    ∃ t' loop', ListenerRun t t' ∧
      ((checks x (List.range' i n) s).stuck = false → loop' = .checking s.states.length) ∧
      Follows loop' (checks x (List.range' i n) s) t' := by
  induction n generalizing i s t with
  | zero =>
    rw [Nat.add_zero] at hn
    subst hn
    exact ⟨t, _, .refl t, fun _ => rfl, h⟩
  | succ n ih =>
    obtain ⟨t₁, loop₁, hr₁, hloop, h₁⟩ := follows_check (x := x) h (by omega)
    rw [List.range'_succ]
    unfold checks
    cases hstuck : (check x i s).stuck with
    | true =>
      rw [if_pos rfl, hstuck]
      exact ⟨t₁, loop₁, hr₁, fun hf => (by cases hf), h₁⟩
    | false =>
      rw [if_neg Bool.false_ne_true]
      rw [hloop hstuck] at h₁
      obtain ⟨t₂, loop₂, hr₂, h₂⟩ := ih h₁ hstuck (by rw [config_length (check_config x i s)]; omega)
      rw [config_length (check_config x i s)] at h₂
      exact ⟨t₂, loop₂, hr₁.trans hr₂, h₂⟩

/-- One turn of the tick loop. -/
theorem follows_tick (h : Follows .sleeping s t) (hs : s.stuck = false) :
    ∃ t' loop', ListenerRun t t' ∧ ((tick x s).stuck = false → loop' = .sleeping) ∧ Follows loop' (tick x s) t' := by
  obtain ⟨t₁, hr₁, -, h₁⟩ := follows_later h (le_add_of_nonneg_right (tickInterval_pos (T := T)).le)
  have hwake : RedisListener.step t₁ .wake = some { t₁ with loop := .checking 0 } := by
    simp [RedisListener.step, h₁.loop]
  have h₂ : Follows (.checking 0) { s with now := s.now + tickInterval } { t₁ with loop := .checking 0 } :=
    ⟨rfl, h₁.states, h₁.now, h₁.log, h₁.inbox⟩
  obtain ⟨t₃, loop₃, hr₃, hloop, h₃⟩ := follows_checks (x := x) h₂ hs (Nat.zero_add _)
  have htick : tick x s = checks x (List.range' 0 s.states.length) { s with now := s.now + tickInterval } := by
    rw [tick, if_neg (by rw [hs]; exact Bool.false_ne_true), checkDueAndDispatch, List.range_eq_range']
  rw [htick]
  have hr : ListenerRun t t₃ := (hr₁.tail .wake trivial hwake).trans hr₃
  cases hstuck : (checks x (List.range' 0 s.states.length) { s with now := s.now + tickInterval }).stuck with
  | true => exact ⟨t₃, loop₃, hr, fun hf => (by cases hf), h₃⟩
  | false =>
    -- past the last trigger the loop goes back to sleep
    have hlast : RedisListener.step t₃ .check = some { t₃ with loop := .sleeping } := by
      have hlen : t₃.states.length = s.states.length := by
        rw [h₃.states, deliver, config_length (handled_config _ _ _), config_length (checks_config x _ _)]
      have hnone : t₃.states[s.states.length]? = none := List.getElem?_eq_none_iff.mpr (le_of_eq hlen)
      simp [RedisListener.step, h₃.loop.trans (hloop hstuck), RedisListener.check, hnone]
    exact ⟨_, _, hr.tail .check trivial hlast, fun _ => rfl, rfl, h₃.states, h₃.now, h₃.log, h₃.inbox⟩

/-- After any number of ticks, the listener has a run to a state with the same triggers and
    the same requests submitted at the same times. -/
theorem ticks_run {definitions : Definitions} {start : T} {trace : Trace T} (h : InOrder start trace) (x : Timing T) (n : Nat) :
    ∃ t loop, ListenerRun (RedisListener.init definitions start) t ∧
      ((ticks x n (begin definitions start trace)).stuck = false → loop = .sleeping) ∧
      Follows loop (ticks x n (begin definitions start trace)) t := by
  induction n with
  | zero =>
    obtain ⟨t, hr, ht⟩ := follows_begin h
    exact ⟨t, .sleeping, hr, fun _ => rfl, ht⟩
  | succ n ih =>
    obtain ⟨t, loop, hr, hloop, ht⟩ := ih
    cases hs : (ticks x n (begin definitions start trace)).stuck with
    | true =>
      rw [ticks, stuck_stays hs]
      exact ⟨t, loop, hr, fun hf => (by rw [hs] at hf; cases hf), ht⟩
    | false =>
      rw [hloop hs] at ht
      obtain ⟨t', loop', hr', h'⟩ := follows_tick (x := x) ht hs
      exact ⟨t', loop', hr.trans hr', h'⟩

end SagaAgents.Triggers.TickLoop
