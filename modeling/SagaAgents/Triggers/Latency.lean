/-
  SagaAgents.Triggers.Latency — how long after an event its agent is submitted.

  The timed loop of `TickLoop`, where every submit returns after at most `d`. A trigger is
  checked once in each turn, after the submits of the triggers before it; between two of
  its checks are one sleep and the submits of all others, and its own if it was due.

  Proved: `served_within`. The last message of a quiet period is followed by a request for
  its topic, `delay` after it at the earliest and before
  `max delay d + 5 + (triggers - 1) * d`.
-/

import SagaAgents.Triggers.TickLoop

namespace SagaAgents.Triggers.TickLoop

open Lib
open Config (Definitions)
open Executor (RunRequest)
open RedisListener (TriggerState triggerStates)
open Debounce (request config)

variable {T : Type}

section

variable [LinearOrder T]

/-- No message of the trigger is handled before `limit`. -/
def Quiet (c : TriggerState T) (limit : T) (trace : Trace T) : Prop := ∀ e ∈ trace, e.2 ∈ c.topics → limit ≤ e.1

/-- The trigger is pending since this message. -/
structure Marked (c : TriggerState T) (m : T × String) (a : TriggerState T) : Prop where
  config : config a = config c
  topic : a.lastTopic = m.2
  pending : a.debouncer.pending = true
  mark : a.debouncer.lastMark = some m.1

/-- Trigger `i` waits: the message is still to come, or has marked it. -/
inductive Waits (c : TriggerState T) (i : Nat) (m : T × String) (limit : T) (s : Loop T) : Prop
  | coming {a : TriggerState T} {pre post : Trace T} (ha : s.states[i]? = some a) (hc : config a = config c)
      (hin : s.inbox = pre ++ m :: post) (hpre : ∀ e ∈ pre, e.1 ≤ m.1) (hq : Quiet c limit post)
  | marked {a : TriggerState T} (ha : s.states[i]? = some a) (hm : Marked c m a) (hq : Quiet c limit s.inbox)

variable {c a : TriggerState T} {m : T × String} {limit : T} {s : Loop T} {i : Nat}

/-! ## Messages are handled -/

omit [LinearOrder T] in
theorem config_eq (h : config a = config c) : a.agentId = c.agentId ∧ a.topics = c.topics ∧ a.debouncer.delay = c.debouncer.delay := by
  simp only [config, Prod.mk.injEq] at h
  exact h

/-- Messages of other topics, and later ones. -/
theorem handled_marked {now : T} (hn : now < limit) {inbox : Trace T} (hq : Quiet c limit inbox) {states : List (TriggerState T)}
    (ha : states[i]? = some a) (hc : config a = config c) :
    (handled now inbox states).1[i]? = some a ∧ Quiet c limit (handled now inbox states).2 := by
  induction inbox generalizing states with
  | nil => exact ⟨ha, hq⟩
  | cons e inbox ih =>
    unfold handled
    split
    · rename_i hle
      have hother : e.2 ∉ a.topics := by
        intro hmem
        rw [(config_eq hc).2.1] at hmem
        exact absurd (hn.trans_le (hq e List.mem_cons_self hmem)) (not_lt.mpr hle)
      refine ih (fun e' he' => hq e' (List.mem_cons_of_mem _ he')) ?_
      rw [List.getElem?_map, ha, Option.map_some, RedisListener.TriggerState.handle, if_neg hother]
    · exact ⟨ha, hq⟩

omit [LinearOrder T] in
theorem marked_handle (hc : config a = config c) (ht : m.2 ∈ c.topics) : Marked c m (a.handle m.1 m.2) := by
  have hmem : m.2 ∈ a.topics := by
    rw [(config_eq hc).2.1]
    exact ht
  refine ⟨(Debounce.handle_config m.1 m.2 a).trans hc, ?_, ?_, ?_⟩ <;>
    simp [RedisListener.TriggerState.handle, hmem, RedisListener.Debouncer.mark]

/-- The messages up to the waited-for one, and from then on. -/
theorem handled_coming {now : T} (hn : now < limit) (ht : m.2 ∈ c.topics) {pre post : Trace T} (hpre : ∀ e ∈ pre, e.1 ≤ m.1)
    (hq : Quiet c limit post) {states : List (TriggerState T)} (ha : states[i]? = some a) (hc : config a = config c) :
    ∃ b, (handled now (pre ++ m :: post) states).1[i]? = some b ∧ config b = config c ∧
      ((Marked c m b ∧ Quiet c limit (handled now (pre ++ m :: post) states).2) ∨
        (now < m.1 ∧ ∃ pre', (handled now (pre ++ m :: post) states).2 = pre' ++ m :: post ∧ ∀ e ∈ pre', e.1 ≤ m.1)) := by
  induction pre generalizing states a with
  | nil =>
    rw [List.nil_append]
    unfold handled
    split
    · have hmark := marked_handle hc ht
      have ha' : (states.map (·.handle m.1 m.2))[i]? = some (a.handle m.1 m.2) := by
        rw [List.getElem?_map, ha]
        rfl
      obtain ⟨hb, hq'⟩ := handled_marked hn hq ha' hmark.config
      exact ⟨_, hb, hmark.config, Or.inl ⟨hmark, hq'⟩⟩
    · rename_i hle
      exact ⟨a, ha, hc, Or.inr ⟨not_le.mp hle, [], rfl, fun e he => (by cases he)⟩⟩
  | cons e pre ih =>
    rw [List.cons_append]
    unfold handled
    split
    · have ha' : (states.map (·.handle e.1 e.2))[i]? = some (a.handle e.1 e.2) := by
        rw [List.getElem?_map, ha]
        rfl
      exact ih (fun e' he' => hpre e' (List.mem_cons_of_mem _ he')) ha' ((Debounce.handle_config e.1 e.2 a).trans hc)
    · rename_i hle
      exact ⟨a, ha, hc, Or.inr ⟨(not_le.mp hle).trans_le (hpre e List.mem_cons_self), e :: pre, rfl, hpre⟩⟩

/-- The listener catches up: the message has marked the trigger, or its time has not come. -/
theorem waits_deliver (hn : s.now < limit) (ht : m.2 ∈ c.topics) (h : Waits c i m limit s) :
    ∃ b, (deliver s).states[i]? = some b ∧ config b = config c ∧
      ((Marked c m b ∧ Quiet c limit (deliver s).inbox) ∨ (s.now < m.1 ∧ ∃ pre post, (deliver s).inbox = pre ++ m :: post ∧
        (∀ e ∈ pre, e.1 ≤ m.1) ∧ Quiet c limit post)) := by
  cases h with
  | @coming a pre post ha hc hin hpre hq =>
    have hstates : (deliver s).states = (handled s.now (pre ++ m :: post) s.states).1 := by rw [← hin]; rfl
    have hinbox : (deliver s).inbox = (handled s.now (pre ++ m :: post) s.states).2 := by rw [← hin]; rfl
    obtain ⟨b, hb, hbc, hcase⟩ := handled_coming hn ht hpre hq ha hc
    rw [← hstates] at hb
    rcases hcase with ⟨hm, hq'⟩ | ⟨hlt, pre', he, hpre'⟩
    · exact ⟨b, hb, hbc, Or.inl ⟨hm, hinbox ▸ hq'⟩⟩
    · exact ⟨b, hb, hbc, Or.inr ⟨hlt, pre', post, hinbox.trans he, hpre', hq⟩⟩
  | marked ha hm hq =>
    obtain ⟨hb, hq'⟩ := handled_marked hn hq ha hm.config
    exact ⟨_, hb, hm.config, Or.inl ⟨hm, hq'⟩⟩

end

section

variable [CommRing T] [LinearOrder T]

/-- Every submit returns, after at most `d`. -/
def Within (x : Timing T) (d : T) : Prop := ∀ r t, ∃ e, x.takes r t = some e ∧ e ≤ d

/-- The request for the message has been submitted. -/
def Answered (c : TriggerState T) (m : T × String) (limit : T) (s : Loop T) : Prop :=
  ∃ time, (time, (⟨c.agentId, "event:" ++ m.2⟩ : RunRequest)) ∈ s.log ∧ m.1 + c.debouncer.delay ≤ time ∧ time < limit

variable [IsStrictOrderedRing T] {c a : TriggerState T} {m : T × String} {limit d : T} {x : Timing T} {s : Loop T} {i : Nat}

/-! ## One check -/

omit [IsStrictOrderedRing T] in
theorem await_within (hx : Within x d) (r : RunRequest) (s : Loop T) :
    ∃ e, 0 ≤ e ∧ e ≤ d ∧ await x r s = { s with now := s.now + e } := by
  obtain ⟨e, he, hle⟩ := hx r s.now
  refine ⟨e, x.nonneg _ _ _ he, hle, ?_⟩
  unfold await
  rw [he]

/-- What a check changes besides its trigger: time passes, and the log grows. -/
structure Passed (j : Nat) (d : T) (s t : Loop T) : Prop where
  stuck : t.stuck = s.stuck
  later : s.now ≤ t.now
  soon : t.now ≤ s.now + d
  inbox : t.inbox = s.inbox
  log : ∀ e ∈ s.log, e ∈ t.log
  others : ∀ i, i ≠ j → t.states[i]? = s.states[i]?

theorem checkNow_within (hx : Within x d) (hd : 0 ≤ d) (j : Nat) (s : Loop T) : Passed j d s (checkNow x j s) := by
  have hsame : Passed j d s s := ⟨rfl, le_refl _, le_add_of_nonneg_right hd, rfl, fun _ he => he, fun _ _ => rfl⟩
  unfold checkNow
  split
  · exact hsame
  · rename_i a _
    split
    · obtain ⟨e, hpos, hle, hawait⟩ := await_within hx (request a) (dispatch j a s)
      rw [hawait]
      exact ⟨rfl, le_add_of_nonneg_right hpos, add_le_add_right hle s.now, rfl, fun e he => List.mem_append_left _ he,
        fun i hne => List.getElem?_set_ne (Ne.symm hne)⟩
    · exact hsame

theorem answered_check (hx : Within x d) (hd : 0 ≤ d) (j : Nat) (h : Answered c m limit s) :
    Answered c m limit (check x j s) := by
  obtain ⟨time, hin, hle, hlt⟩ := h
  exact ⟨time, (checkNow_within hx hd j (deliver s)).log _ hin, hle, hlt⟩

/-- The check of another trigger. -/
theorem waits_other (hx : Within x d) (hd : 0 ≤ d) {j : Nat} (hne : i ≠ j) (hn : s.now < limit)
    (ht : m.2 ∈ c.topics) (h : Waits c i m limit s) : Waits c i m limit (check x j s) := by
  have hp := checkNow_within hx hd j (deliver s)
  obtain ⟨b, hb, hc, ⟨hm, hq⟩ | ⟨-, pre, post, hin, hpre, hq⟩⟩ := waits_deliver hn ht h
  · refine .marked ((hp.others i hne).trans hb) hm ?_
    rw [check, hp.inbox]
    exact hq
  · exact .coming ((hp.others i hne).trans hb) hc (hp.inbox.trans hin) hpre hq

/-- Its own check: it is submitted, or it is too early. -/
theorem waits_own (hx : Within x d) (hd : 0 ≤ d) (hn : s.now < limit) (ht : m.2 ∈ c.topics) (h : Waits c i m limit s) :
    Answered c m limit (check x i s) ∨
      (Waits c i m limit (check x i s) ∧ (check x i s).now < m.1 + max c.debouncer.delay d) := by
  have hp := checkNow_within hx hd i (deliver s)
  obtain ⟨b, hb, hc, hcase⟩ := waits_deliver hn ht h
  obtain ⟨hid, -, hdelay⟩ := config_eq hc
  have hcheck : check x i s = if b.debouncer.due s.now then await x (request b) (dispatch i b (deliver s)) else deliver s := by
    unfold check checkNow
    rw [hb]
    rfl
  rcases hcase with ⟨hm, hq⟩ | ⟨hearly, pre, post, hin, hpre, hq⟩
  · have hdue : b.debouncer.due s.now = decide (c.debouncer.delay ≤ s.now - m.1) := by
      simp [RedisListener.Debouncer.due, hm.pending, hm.mark, hdelay]
    by_cases hle : c.debouncer.delay ≤ s.now - m.1
    · left
      obtain ⟨e, -, -, hawait⟩ := await_within hx (request b) (dispatch i b (deliver s))
      rw [hcheck, hdue, if_pos (decide_eq_true hle), hawait]
      refine ⟨s.now, List.mem_append_right _ ?_, le_sub_iff_add_le'.mp hle, hn⟩
      rw [request, hid, hm.topic]
      exact List.mem_singleton.mpr rfl
    · right
      have hsame : check x i s = deliver s := by
        rw [hcheck, hdue, if_neg (by simp [hle])]
      rw [hsame]
      refine ⟨.marked hb hm hq, ?_⟩
      have hlt : s.now < m.1 + c.debouncer.delay := sub_lt_iff_lt_add'.mp (not_le.mp hle)
      exact hlt.trans_le (add_le_add_right (le_max_left _ _) _)
  · -- the message is still to come; the trigger may be due since an earlier one
    right
    refine ⟨?_, hp.soon.trans_lt (add_lt_add_of_lt_of_le hearly (le_max_right _ _))⟩
    by_cases hdue : b.debouncer.due s.now = true
    · obtain ⟨e, -, -, hawait⟩ := await_within hx (request b) (dispatch i b (deliver s))
      rw [hcheck, if_pos hdue, hawait]
      exact .coming (a := { b with debouncer := b.debouncer.reset }) (Tasks.get_moved hb) hc hin hpre hq
    · rw [hcheck, if_neg hdue]
      exact .coming hb hc hin hpre hq

/-! ## The turns of the loop -/

/-- The request is submitted, or it is before `time` and the trigger waits. -/
def OnTrack (c : TriggerState T) (i : Nat) (m : T × String) (limit time : T) (s : Loop T) : Prop :=
  s.stuck = false ∧ (Answered c m limit s ∨ (Waits c i m limit s ∧ s.now < time))

omit [IsStrictOrderedRing T] in
theorem checks_cons {j : Nat} (is : List Nat) (h : (check x j s).stuck = false) :
    checks x (j :: is) s = checks x is (check x j s) := by
  rw [checks, h]
  rfl

theorem check_stuck (hx : Within x d) (hd : 0 ≤ d) (j : Nat) (hs : s.stuck = false) : (check x j s).stuck = false :=
  (checkNow_within hx hd j (deliver s)).stuck.trans hs

/-- The checks of other triggers take `d` each. -/
theorem onTrack_others (hx : Within x d) (hd : 0 ≤ d) (ht : m.2 ∈ c.topics) {time : T} (htime : time ≤ limit) {is : List Nat}
    (hi : i ∉ is) (h : OnTrack c i m limit (time - (is.length : T) * d) s) : OnTrack c i m limit time (checks x is s) := by
  induction is generalizing s with
  | nil =>
    rw [List.length_nil, Nat.cast_zero, zero_mul, sub_zero] at h
    exact h
  | cons j is ih =>
    obtain ⟨hs, h⟩ := h
    have hs' := check_stuck hx hd j hs
    rw [checks_cons is hs']
    refine ih (fun hmem => hi (List.mem_cons_of_mem _ hmem)) ⟨hs', ?_⟩
    rcases h with h | ⟨h, hn⟩
    · exact Or.inl (answered_check hx hd j h)
    · have hlen : (0 : T) ≤ (is.length : T) * d := mul_nonneg (Nat.cast_nonneg _) hd
      rw [List.length_cons, Nat.cast_succ, add_mul, one_mul] at hn
      have hsoon : (check x j s).now ≤ s.now + d := (checkNow_within hx hd j (deliver s)).soon
      have hne : i ≠ j := fun e => hi (e ▸ List.mem_cons_self)
      refine Or.inr ⟨waits_other hx hd hne (by linarith) ht h, by linarith⟩

theorem checks_append (hx : Within x d) (hd : 0 ≤ d) (is js : List Nat) (hs : s.stuck = false) :
    checks x (is ++ js) s = checks x js (checks x is s) := by
  induction is generalizing s with
  | nil => rfl
  | cons j is ih =>
    have hs' := check_stuck hx hd j hs
    rw [List.cons_append, checks_cons _ hs', checks_cons _ hs', ih hs']

/-- One turn: the triggers before `i`, then `i`, then the `r` after it. -/
theorem onTrack_tick (hx : Within x d) (hd : 0 ≤ d) (ht : m.2 ∈ c.topics) {r : Nat} (hlen : s.states.length = i + (r + 1))
    (hlimit : limit = m.1 + max c.debouncer.delay d + tickInterval + ((i + r : Nat) : T) * d)
    (h : OnTrack c i m limit (m.1 + max c.debouncer.delay d + (r : T) * d) s) :
    OnTrack c i m limit (m.1 + max c.debouncer.delay d + (r : T) * d) (tick x s) := by
  obtain ⟨hs, h⟩ := h
  have hfive : (0 : T) < tickInterval := tickInterval_pos
  have hi0 : (0 : T) ≤ (i : T) * d := mul_nonneg (Nat.cast_nonneg _) hd
  have hr0 : (0 : T) ≤ (r : T) * d := mul_nonneg (Nat.cast_nonneg _) hd
  rw [Nat.cast_add, add_mul] at hlimit
  have hrange : List.range (i + (r + 1)) = List.range i ++ i :: List.range' (i + 1) r := by
    rw [List.range_eq_range', List.range_eq_range', ← List.range'_append_1, Nat.zero_add, List.range'_succ]
  have hgoes : ¬ s.stuck = true := by rw [hs]; exact Bool.false_ne_true
  rw [tick, if_neg hgoes, checkDueAndDispatch, hlen, hrange]
  let w : Loop T := { s with now := s.now + tickInterval }
  show OnTrack c i m limit _ (checks x _ w)
  rw [checks_append (s := w) hx hd _ _ hs]
  have hbefore : OnTrack c i m limit limit (checks x (List.range i) w) := by
    refine onTrack_others hx hd ht (le_refl _) (by simp) ⟨hs, ?_⟩
    rcases h with h | ⟨h, hn⟩
    · exact Or.inl h
    · refine Or.inr ⟨?_, ?_⟩
      · cases h with
        | coming ha hc hin hpre hq => exact .coming ha hc hin hpre hq
        | marked ha hm hq => exact .marked ha hm hq
      · rw [List.length_range]
        show s.now + tickInterval < _
        linarith
  obtain ⟨hs₁, h₁⟩ := hbefore
  have hs₂ := check_stuck hx hd i hs₁
  rw [checks_cons _ hs₂]
  refine onTrack_others hx hd ht (by linarith) ?_ ⟨hs₂, ?_⟩
  · simp
  · rw [List.length_range', add_sub_cancel_right]
    rcases h₁ with h₁ | ⟨h₁, hn⟩
    · exact Or.inl (answered_check hx hd i h₁)
    · exact waits_own hx hd hn ht h₁

theorem checks_later (hx : Within x d) (hd : 0 ≤ d) (is : List Nat) (hs : s.stuck = false) : s.now ≤ (checks x is s).now := by
  induction is generalizing s with
  | nil => exact le_refl _
  | cons j is ih =>
    have hs' := check_stuck hx hd j hs
    rw [checks_cons is hs']
    exact (checkNow_within hx hd j (deliver s)).later.trans (ih hs')

theorem tick_later (hx : Within x d) (hd : 0 ≤ d) (hs : s.stuck = false) : s.now + tickInterval ≤ (tick x s).now := by
  rw [tick, if_neg (by rw [hs]; exact Bool.false_ne_true)]
  exact checks_later (s := { s with now := s.now + tickInterval }) hx hd _ hs

/-! ## From a message to its request -/

/-- With this many triggers, and submits that take at most `d`. -/
def latest (triggers : Nat) (c : TriggerState T) (d : T) (time : T) : T :=
  time + max c.debouncer.delay d + tickInterval + ((triggers - 1 : Nat) : T) * d

theorem delay_pos {definitions : Definitions} (hc : c ∈ triggerStates definitions) : 0 < c.debouncer.delay := by
  simp only [triggerStates, List.mem_flatMap, List.mem_map] at hc
  obtain ⟨e, -, t, -, e'⟩ := hc
  subst e'
  exact zero_lt_one.trans_le (le_max_right _ _)

/-- When every submit returns after at most `d`: a message that is not followed by another
    one of the trigger until then is answered by a request for its topic, not before the
    trigger's delay is over, and before `latest`. -/
theorem served_within {definitions : Definitions} {start : T} {pre post : Trace T}
    (ho : InOrder start (pre ++ m :: post)) (hc : (triggerStates definitions)[i]? = some c) (ht : m.2 ∈ c.topics)
    (hx : Within x d) (hq : Quiet c (latest (triggerStates (T := T) definitions).length c d m.1) post) {n : Nat}
    (hn : latest (triggerStates (T := T) definitions).length c d m.1 ≤ tickTime start n) :
    Answered c m (latest (triggerStates (T := T) definitions).length c d m.1)
      (ticks x n (begin definitions start (pre ++ m :: post))) := by
  have hd : 0 ≤ d := by
    obtain ⟨e, he, hle⟩ := hx ⟨"", ""⟩ start
    exact (x.nonneg _ _ _ he).trans hle
  have hlt : i < (triggerStates (T := T) definitions).length := (List.getElem?_eq_some_iff.mp hc).1
  obtain ⟨r, hr⟩ : ∃ r, (triggerStates (T := T) definitions).length = i + (r + 1) :=
    ⟨(triggerStates (T := T) definitions).length - i - 1, by omega⟩
  have hdelay := delay_pos (List.mem_of_getElem? hc)
  have hmax : c.debouncer.delay ≤ max c.debouncer.delay d := le_max_left _ _
  have hr0 : (0 : T) ≤ (r : T) * d := mul_nonneg (Nat.cast_nonneg _) hd
  have hi0 : (0 : T) ≤ (i : T) * d := mul_nonneg (Nat.cast_nonneg _) hd
  have hfive : (0 : T) < tickInterval := tickInterval_pos
  have hsorted := List.pairwise_append.mp ((List.map_append ▸ ho.1) : ((pre.map (·.1)) ++ (m :: post).map (·.1)).Pairwise (· ≤ ·))
  have hstart : start ≤ m.1 := ho.2 m (List.mem_append_right _ List.mem_cons_self)
  generalize hlimit : latest (triggerStates (T := T) definitions).length c d m.1 = limit at hq hn ⊢
  have hlimit' : limit = m.1 + max c.debouncer.delay d + tickInterval + ((i + r : Nat) : T) * d := by
    rw [← hlimit, latest, hr]
    rfl
  have hrun : ∀ n, OnTrack c i m limit (m.1 + max c.debouncer.delay d + (r : T) * d)
      (ticks x n (begin definitions start (pre ++ m :: post))) ∧
      tickTime start n ≤ (ticks x n (begin definitions start (pre ++ m :: post))).now := by
    intro n
    induction n with
    | zero =>
      refine ⟨⟨rfl, Or.inr ⟨.coming hc rfl rfl (fun e he => ?_) hq, ?_⟩⟩, ?_⟩
      · exact hsorted.2.2 e.1 (List.mem_map_of_mem he) m.1 (List.mem_map_of_mem List.mem_cons_self)
      · show start < _
        linarith
      · show start + tickInterval * ((0 : Nat) : T) ≤ start
        rw [Nat.cast_zero, mul_zero, add_zero]
    | succ n ih =>
      obtain ⟨hon, hnow⟩ := ih
      have hlen : (ticks x n (begin definitions start (pre ++ m :: post))).states.length = i + (r + 1) := by
        have := congrArg List.length (ticks_config x n (begin definitions start (pre ++ m :: post)))
        rw [List.length_map, List.length_map] at this
        exact this.trans hr
      refine ⟨onTrack_tick hx hd ht hlen hlimit' hon, ?_⟩
      rw [tickTime_succ]
      exact (add_le_add_left hnow _).trans (tick_later hx hd hon.1)
  obtain ⟨⟨-, h⟩, hnow⟩ := hrun n
  rcases h with h | ⟨-, hearly⟩
  · exact h
  · rw [Nat.cast_add, add_mul] at hlimit'
    linarith

end

/-! Two agents on one topic, whose submits take a minute each. -/

def aMinute : Timing Int := ⟨fun _ _ => some 60, fun _ _ _ e => by cases e; decide⟩

theorem served_within_two :
    ∃ time, (time, (⟨"re-categorizer", "event:document.ingested"⟩ : RunRequest)) ∈
      (ticks aMinute 26 (begin twoAgents 0 [(3, "document.ingested")])).log ∧ 4 ≤ time ∧ time < 128 := by
  have ho : InOrder (0 : Int) ([] ++ (3, "document.ingested") :: []) := ⟨by decide, by decide⟩
  have hc : (triggerStates twoAgents)[1]? =
      some (⟨"re-categorizer", ["document.ingested"], { delay := (1 : Int) }, "debounced"⟩ : TriggerState Int) := by decide
  have hx : Within aMinute 60 := fun _ _ => ⟨60, rfl, le_refl _⟩
  exact served_within ho hc (by decide) hx (fun _ he => (by cases he)) (n := 26) (by decide)

end SagaAgents.Triggers.TickLoop
