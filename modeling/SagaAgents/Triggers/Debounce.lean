/-
  SagaAgents.Triggers.Debounce — what the debouncers of `RedisListener` compute.

  The triggers of the listener with the whole history beside them: every message handled
  and every submit, the newest first. A check of a trigger is one step (`due`, `reset`,
  the request), and checks come in any order, with messages and the clock between them;
  the tick loop's order is one of these (`listener_run`).

  Times and delays are exact, in an ordered ring; the code computes with binary64 numbers,
  and rounds `debounce_minutes * 60.0` and `now - last_mark`.

  The two flags of a debouncer and its `last_topic` are a memory of one entry of the
  history: the latest matching message since the trigger's last submit (`latest`).

  Proved, over every run: `debounce_exact`.
-/

import SagaAgents.Lib.Tasks
import SagaAgents.Triggers.RedisListener

namespace SagaAgents.Triggers.Debounce

open Lib
open Config (Definitions EventTrigger)
open Executor (RunRequest)
open RedisListener (TriggerState Debouncer triggerStates)

variable {T : Type}

/-! ## The triggers and their history -/

inductive Entry (T : Type) where
  | message (time : T) (topic : String)
  | submit (i : Nat) (time : T) (request : RunRequest)
  deriving DecidableEq, Repr

structure St (T : Type) where
  states : List (TriggerState T)
  now : T
  /-- The newest entry first. -/
  log : List (Entry T)

inductive Ev (T : Type) where
  | message (topic : String)
  | clock (t : T)
  | check (i : Nat)
  deriving DecidableEq, Repr

def request (a : TriggerState T) : RunRequest := ⟨a.agentId, "event:" ++ a.lastTopic⟩

/-- The message has one of the topics. -/
def matching (topics : List String) : Entry T → Bool
  | .message _ topic => decide (topic ∈ topics)
  | .submit _ _ _ => false

/-- A submit of trigger `i`. -/
def submits (i : Nat) : Entry T → Bool
  | .message _ _ => false
  | .submit j _ _ => j == i

/-- The latest message with one of the topics, if trigger `i` has not been submitted since. -/
def latest (topics : List String) (i : Nat) : List (Entry T) → Option (T × String)
  | [] => none
  | .message time topic :: log => if topic ∈ topics then some (time, topic) else latest topics i log
  | .submit j _ _ :: log => if j = i then none else latest topics i log

/-- `latest`, read off the history. -/
def Latest (topics : List String) (i : Nat) (log : List (Entry T)) (time : T) (topic : String) : Prop :=
  ∃ newer older, log = newer ++ .message time topic :: older ∧ topic ∈ topics ∧
    ∀ e ∈ newer, matching topics e = false ∧ submits i e = false

/-- An entry that is neither a matching message nor a submit of the trigger does not count. -/
theorem latest_skip {topics : List String} {i : Nat} {e : Entry T} {log : List (Entry T)} {time : T} {topic : String}
    (hm : matching topics e = false) (hs : submits i e = false) :
    Latest topics i log time topic ↔ Latest topics i (e :: log) time topic := by
  constructor
  · rintro ⟨newer, older, hl, ht, hn⟩
    refine ⟨e :: newer, older, by rw [hl]; rfl, ht, fun d hd => ?_⟩
    rcases List.mem_cons.mp hd with hd | hd
    · rw [hd]; exact ⟨hm, hs⟩
    · exact hn d hd
  · rintro ⟨newer, older, hl, ht, hn⟩
    cases newer with
    | nil =>
      cases hl
      simp [matching, ht] at hm
    | cons d newer =>
      cases hl
      exact ⟨newer, older, rfl, ht, fun d hd => hn d (List.mem_cons_of_mem _ hd)⟩

/-- One that is, ends the search. -/
theorem latest_stops {topics : List String} {i : Nat} {e : Entry T} {log : List (Entry T)} {time : T} {topic : String}
    (he : matching topics e = true ∨ submits i e = true) :
    Latest topics i (e :: log) time topic ↔ e = .message time topic ∧ topic ∈ topics := by
  constructor
  · rintro ⟨newer, older, hl, ht, hn⟩
    cases newer with
    | nil =>
      cases hl
      exact ⟨rfl, ht⟩
    | cons d newer =>
      cases hl
      obtain ⟨hm, hs⟩ := hn _ List.mem_cons_self
      rw [hm, hs] at he
      rcases he with he | he <;> cases he
  · rintro ⟨rfl, ht⟩
    exact ⟨[], log, rfl, ht, fun e he => (by cases he)⟩

theorem latest_some {topics : List String} {i : Nat} {log : List (Entry T)} {time : T} {topic : String} :
    latest topics i log = some (time, topic) ↔ Latest topics i log time topic := by
  induction log with
  | nil =>
    refine ⟨fun h => (by cases h), fun h => ?_⟩
    obtain ⟨newer, older, hl, -⟩ := h
    cases newer <;> cases hl
  | cons e log ih =>
    cases e with
    | message time' topic' =>
      by_cases ht : topic' ∈ topics
      · rw [latest, if_pos ht, latest_stops (Or.inl (by simp [matching, ht]))]
        constructor
        · intro h
          cases h
          exact ⟨rfl, ht⟩
        · rintro ⟨e, -⟩
          cases e
          rfl
      · rw [latest, if_neg ht, ih]
        exact latest_skip (by simp [matching, ht]) rfl
    | submit j time' r =>
      by_cases hj : j = i
      · rw [latest, if_pos hj, latest_stops (Or.inr (by simp [submits, hj]))]
        exact ⟨fun h => (by cases h), fun h => (by cases h.1)⟩
      · rw [latest, if_neg hj, ih]
        exact latest_skip rfl (by simp [submits, hj])

section

variable [CommRing T] [LinearOrder T]

def init (definitions : Definitions) (now : T) : St T := ⟨triggerStates definitions, now, []⟩

def step (s : St T) : Ev T → Option (St T)
  | .message topic =>
    some { s with states := s.states.map (·.handle s.now topic), log := .message s.now topic :: s.log }
  | .clock t => if s.now ≤ t then some { s with now := t } else none
  | .check i =>
    s.states[i]?.map fun a =>
      if a.debouncer.due s.now then
        { s with states := s.states.set i { a with debouncer := a.debouncer.reset },
                 log := .submit i s.now (request a) :: s.log }
      else s

/-- A check of trigger `i` now submits `r`. -/
def Issues (s : St T) (i : Nat) (r : RunRequest) : Prop :=
  ∃ t, step s (.check i) = some t ∧ t.log = .submit i s.now r :: s.log

end

/-! ## A debouncer remembers the latest message -/

/-- What a trigger remembers. -/
def armed (a : TriggerState T) : Option (T × String) :=
  if a.debouncer.pending then a.debouncer.lastMark.map fun time => (time, a.lastTopic) else none

/-- What does not change about a trigger. -/
def config (a : TriggerState T) : String × List String × T := (a.agentId, a.topics, a.debouncer.delay)

theorem handle_config (now : T) (topic : String) (a : TriggerState T) : config (a.handle now topic) = config a := by
  unfold TriggerState.handle
  split <;> rfl

theorem handle_armed (now : T) (topic : String) (a : TriggerState T) :
    armed (a.handle now topic) = if topic ∈ a.topics then some (now, topic) else armed a := by
  unfold TriggerState.handle
  split <;> rfl

theorem request_armed {a : TriggerState T} {m : T × String} (h : armed a = some m) :
    request a = ⟨a.agentId, "event:" ++ m.2⟩ := by
  unfold armed at h
  split at h
  · obtain ⟨time, -, e⟩ := Option.map_eq_some_iff.mp h
    rw [← e]
    rfl
  · cases h

/-- Lists of the same configurations have them in the same places. -/
theorem same_config {as bs : List (TriggerState T)} (h : as.map config = bs.map config) {i : Nat} {a : TriggerState T}
    (ha : as[i]? = some a) : ∃ b, bs[i]? = some b ∧ b.agentId = a.agentId ∧ b.topics = a.topics ∧
      b.debouncer.delay = a.debouncer.delay := by
  have hi := congrArg (·[i]?) h.symm
  simp only [List.getElem?_map, ha, Option.map_some] at hi
  obtain ⟨b, hb, e⟩ := Option.map_eq_some_iff.mp hi
  simp only [config, Prod.mk.injEq] at e
  exact ⟨b, hb, e⟩

theorem reset_config {states : List (TriggerState T)} {i : Nat} {a : TriggerState T} (ha : states[i]? = some a) :
    (states.set i { a with debouncer := a.debouncer.reset }).map config = states.map config :=
  Tasks.map_move ha rfl

section

variable [CommRing T] [LinearOrder T]

/-- A debouncer is due when its message is old enough. -/
theorem due_iff {a : TriggerState T} {now : T} :
    a.debouncer.due now = true ↔ ∃ m, armed a = some m ∧ a.debouncer.delay ≤ now - m.1 := by
  unfold Debouncer.due armed
  cases a.debouncer.pending with
  | false => simp
  | true =>
    cases a.debouncer.lastMark with
    | none => simp
    | some m => simp

/-- A submit is of a trigger that had a message, for the latest one, in time. -/
def Justified (cs : List (TriggerState T)) : List (Entry T) → Prop
  | [] => True
  | .message _ _ :: log => Justified cs log
  | .submit i time r :: log =>
    (∃ c m, cs[i]? = some c ∧ latest c.topics i log = some m ∧ c.debouncer.delay ≤ time - m.1 ∧
      r = ⟨c.agentId, "event:" ++ m.2⟩) ∧ Justified cs log

/-- The triggers are those of the start, and each remembers its latest message. -/
structure Tracks (cs : List (TriggerState T)) (s : St T) : Prop where
  config : s.states.map config = cs.map config
  latest : ∀ (i : Nat) (a : TriggerState T), s.states[i]? = some a → armed a = latest a.topics i s.log
  justified : Justified cs s.log

theorem Tracks.trigger {cs : List (TriggerState T)} {s : St T} (hs : Tracks cs s) {i : Nat} {c : TriggerState T}
    (hc : cs[i]? = some c) : ∃ a, s.states[i]? = some a ∧ a.agentId = c.agentId ∧ a.topics = c.topics ∧
      a.debouncer.delay = c.debouncer.delay := same_config hs.config.symm hc

theorem Tracks.start {cs : List (TriggerState T)} {s : St T} (hs : Tracks cs s) {i : Nat} {a : TriggerState T}
    (ha : s.states[i]? = some a) : ∃ c, cs[i]? = some c ∧ a.agentId = c.agentId ∧ a.topics = c.topics ∧
      a.debouncer.delay = c.debouncer.delay := by
  obtain ⟨c, hc, h1, h2, h3⟩ := same_config hs.config ha
  exact ⟨c, hc, h1.symm, h2.symm, h3.symm⟩

theorem tracks_message {cs : List (TriggerState T)} {s : St T} (hs : Tracks cs s) (topic : String) :
    Tracks cs { s with states := s.states.map (·.handle s.now topic), log := .message s.now topic :: s.log } := by
  refine ⟨?_, ?_, hs.justified⟩
  · rw [List.map_map, ← hs.config]
    exact List.map_congr_left fun a _ => handle_config s.now topic a
  · intro i b hb
    rw [List.getElem?_map] at hb
    obtain ⟨a, ha, e⟩ := Option.map_eq_some_iff.mp hb
    subst e
    have htopics : (a.handle s.now topic).topics = a.topics := (Prod.ext_iff.mp (Prod.ext_iff.mp (handle_config s.now topic a)).2).1
    rw [handle_armed, htopics, Debounce.latest, hs.latest i a ha]

theorem tracks_submit {cs : List (TriggerState T)} {s : St T} (hs : Tracks cs s) {i : Nat} {a : TriggerState T}
    (ha : s.states[i]? = some a) (hd : a.debouncer.due s.now = true) :
    Tracks cs { s with states := s.states.set i { a with debouncer := a.debouncer.reset },
                       log := .submit i s.now (request a) :: s.log } := by
  obtain ⟨m, hm, hle⟩ := due_iff.mp hd
  obtain ⟨c, hc, hid, htopics, hdelay⟩ := hs.start ha
  refine ⟨?_, ?_, ⟨c, m, hc, ?_, ?_, ?_⟩, hs.justified⟩
  · rw [← hs.config]
    exact reset_config ha
  · intro j b hb
    rcases (Tasks.get_move ha).mp hb with ⟨e₁, e₂⟩ | ⟨hne, hb⟩
    · subst e₁ e₂
      rw [Debounce.latest, if_pos rfl]
      rfl
    · rw [Debounce.latest, if_neg (Ne.symm hne)]
      exact hs.latest j b hb
  · rw [← htopics, ← hs.latest i a ha]
    exact hm
  · rw [← hdelay]
    exact hle
  · rw [request_armed hm, hid]

theorem tracks_step {cs : List (TriggerState T)} (s : St T) (e : Ev T) (t : St T) (hs : Tracks cs s)
    (h : step s e = some t) : Tracks cs t := by
  cases e with
  | message topic =>
    cases h
    exact tracks_message hs topic
  | clock t' =>
    simp only [step] at h
    split at h
    · cases h
      exact ⟨hs.config, hs.latest, hs.justified⟩
    · cases h
  | check i =>
    obtain ⟨a, ha, e⟩ := Option.map_eq_some_iff.mp h
    subst e
    split
    · rename_i hd
      exact tracks_submit hs ha hd
    · exact hs

theorem tracks_init (definitions : Definitions) (now : T) : Tracks (triggerStates definitions) (init definitions now) := by
  refine ⟨rfl, fun i a ha => ?_, trivial⟩
  have hm : a ∈ triggerStates definitions := List.mem_of_getElem? ha
  simp only [triggerStates, List.mem_flatMap, List.mem_map] at hm
  obtain ⟨d, -, t, -, e⟩ := hm
  subst e
  rfl

/-! ## Submits and messages -/

/-- A trigger has had a message for each of its submits, and one more if it waits for its
    next one. -/
theorem justified_count {cs : List (TriggerState T)} {log : List (Entry T)} (hj : Justified cs log) {i : Nat}
    {c : TriggerState T} (hc : cs[i]? = some c) :
    log.countP (submits i) + (latest c.topics i log).isSome.toNat ≤ log.countP (matching c.topics) := by
  induction log with
  | nil => simp [latest]
  | cons e log ih =>
    cases e with
    | message time topic =>
      have := ih hj
      by_cases ht : topic ∈ c.topics
      · simp only [latest, List.countP_cons, submits, matching, ht, decide_true, if_true, Option.isSome_some,
          Bool.toNat_true, Bool.false_eq_true, if_false]
        omega
      · simp only [latest, List.countP_cons, submits, matching, ht, decide_false, Bool.false_eq_true, if_false]
        omega
    | submit j time r =>
      obtain ⟨⟨c', m, hc', hm, -, -⟩, hj⟩ := hj
      have := ih hj
      by_cases e : j = i
      · subst e
        cases hc.symm.trans hc'
        simp only [hm, Option.isSome_some, Bool.toNat_true] at this
        simp only [latest, if_true, List.countP_cons, submits, matching, beq_self_eq_true, Option.isSome_none,
          Bool.toNat_false, Bool.false_eq_true, if_false]
        omega
      · simp only [latest, if_neg e, List.countP_cons, submits, matching, beq_eq_false_iff_ne.mpr e, Bool.false_eq_true,
          if_false]
        omega

theorem justified_older {cs : List (TriggerState T)} {newer older : List (Entry T)} (hj : Justified cs (newer ++ older)) :
    Justified cs older := by
  induction newer with
  | nil => exact hj
  | cons e newer ih =>
    cases e with
    | message time topic => exact ih hj
    | submit i time r => exact ih hj.2

end

/-- A message that is the latest one since a submit came after that submit. -/
theorem latest_since {topics : List String} {i : Nat} {mid older : List (Entry T)} {b : Entry T} {m : T × String}
    (hb : submits i b = true) (h : latest topics i (mid ++ b :: older) = some m) : ∃ e ∈ mid, matching topics e = true := by
  induction mid with
  | nil =>
    cases b with
    | message time topic => cases hb
    | submit j time r =>
      have hj : j = i := by simpa [submits] using hb
      simp [latest, hj] at h
  | cons d mid ih =>
    have hmore : latest topics i (mid ++ b :: older) = some m → ∃ e ∈ d :: mid, matching topics e = true := by
      intro h
      obtain ⟨e, he, hm⟩ := ih h
      exact ⟨e, List.mem_cons_of_mem _ he, hm⟩
    cases d with
    | message time topic =>
      by_cases ht : topic ∈ topics
      · exact ⟨_, List.mem_cons_self, by simp [matching, ht]⟩
      · simp only [List.cons_append, latest, if_neg ht] at h
        exact hmore h
    | submit j time r =>
      by_cases hj : j = i
      · simp [latest, hj] at h
      · simp only [List.cons_append, latest, if_neg hj] at h
        exact hmore h

section

variable [CommRing T] [LinearOrder T]

theorem justified_between {cs : List (TriggerState T)} {i : Nat} {c : TriggerState T} (hc : cs[i]? = some c)
    {newer mid older : List (Entry T)} {a b : Entry T} (hj : Justified cs (newer ++ a :: mid ++ b :: older))
    (ha : submits i a = true) (hb : submits i b = true) : ∃ e ∈ mid, matching c.topics e = true := by
  rw [List.append_assoc] at hj
  have hj := justified_older hj
  cases a with
  | message time topic => cases ha
  | submit j time r =>
    have e : j = i := by simpa [submits] using ha
    subst e
    obtain ⟨⟨c', m, hc', hm, -, -⟩, -⟩ := hj
    cases hc.symm.trans hc'
    exact latest_since hb hm

/-- A check of a trigger submits a request exactly if a message on its topics came since
    its last submit and the latest one is `delay` old; the request names the agent and that
    message's topic. So a trigger is submitted at most once for each of its messages, with
    a message between two submits. -/
theorem debounce_exact {definitions : Definitions} {start : T} {s : St T}
    (h : Run step (fun _ _ => True) (init definitions start) s) {i : Nat} {c : TriggerState T}
    (hc : (triggerStates definitions)[i]? = some c) :
    (∃ d ∈ definitions.rows, d.enabled = true ∧ ∃ t ∈ d.eventTriggers, c.agentId = d.id ∧ c.topics = t.topics ∧
      c.debouncer.delay = max (60 * (t.debounceMinutes : T)) 1) ∧
    (∀ r, Issues s i r ↔ ∃ time topic, Latest c.topics i s.log time topic ∧ c.debouncer.delay ≤ s.now - time ∧
      r = ⟨c.agentId, "event:" ++ topic⟩) ∧
    s.log.countP (submits i) ≤ s.log.countP (matching c.topics) ∧
    ∀ newer mid older a b, s.log = newer ++ a :: mid ++ b :: older → submits i a = true → submits i b = true →
      ∃ e ∈ mid, matching c.topics e = true := by
  have hs : Tracks (triggerStates definitions) s :=
    h.invariant (fun s e t hs _ h => tracks_step s e t hs h) (tracks_init definitions start)
  obtain ⟨a, ha, hid, htopics, hdelay⟩ := hs.trigger hc
  have hlatest : armed a = latest c.topics i s.log := by rw [hs.latest i a ha, htopics]
  refine ⟨?_, fun r => ⟨?_, ?_⟩, ?_, ?_⟩
  · have hm : c ∈ triggerStates definitions := List.mem_of_getElem? hc
    simp only [triggerStates, List.mem_flatMap, List.mem_map, List.mem_filter] at hm
    obtain ⟨d, ⟨hd, he⟩, t, ht, e⟩ := hm
    subst e
    exact ⟨d, hd, he, t, ht, rfl, rfl, by rw [mul_comm]; rfl⟩
  · rintro ⟨t, hst, hlog⟩
    simp only [step, ha, Option.map_some, Option.some.injEq] at hst
    subst hst
    split at hlog
    · rename_i hd
      obtain ⟨m, hm, hle⟩ := due_iff.mp hd
      simp only [List.cons.injEq, Entry.submit.injEq, true_and, and_true] at hlog
      refine ⟨m.1, m.2, latest_some.mp (hlatest.symm.trans hm), hdelay ▸ hle, ?_⟩
      rw [← hlog, request_armed hm, hid]
    · exact absurd (congrArg List.length hlog) (by simp)
  · rintro ⟨time, topic, hl, hle, e⟩
    have hm : armed a = some (time, topic) := hlatest.trans (latest_some.mpr hl)
    have hd : a.debouncer.due s.now = true := due_iff.mpr ⟨_, hm, hdelay.symm ▸ hle⟩
    refine ⟨{ s with states := s.states.set i { a with debouncer := a.debouncer.reset },
                     log := .submit i s.now (request a) :: s.log }, ?_, ?_⟩
    · simp only [step, ha, Option.map_some, hd, if_true]
    · rw [e, request_armed hm, hid]
  · have := justified_count hs.justified hc
    omega
  · intro newer mid older a b hlog ha hb
    exact justified_between hc (hlog ▸ hs.justified) ha hb

/-- So a submit's reason names one of its trigger's topics. -/
theorem justified_topic {cs : List (TriggerState T)} {log : List (Entry T)} (hj : Justified cs log) {i : Nat} {time : T}
    {r : RunRequest} (h : .submit i time r ∈ log) :
    ∃ c ∈ cs, ∃ topic ∈ c.topics, r = ⟨c.agentId, "event:" ++ topic⟩ := by
  induction log with
  | nil => cases h
  | cons e log ih =>
    cases e with
    | message time' topic => exact ih hj ((List.mem_cons.mp h).resolve_left (fun e => by cases e))
    | submit j time' r' =>
      rcases List.mem_cons.mp h with e | h
      · cases e
        obtain ⟨c, m, hc, hlatest, -, hr⟩ := hj.1
        obtain ⟨-, -, -, htopic, -⟩ := latest_some.mp hlatest
        exact ⟨c, List.mem_of_getElem? hc, m.2, htopic, hr⟩
      · exact ih hj.2 h

/-! ## The tick loop's order -/

/-- A submit of the history, as the listener records it. -/
def submission : Entry T → Option (Nat × T × RunRequest)
  | .message _ _ => none
  | .submit i time r => some (i, time, r)

def issued (u : RedisListener.Submission T) : Nat × T × RunRequest := (u.trigger, u.issuedAt, u.request)

/-- The history `d` goes with the listener's state. -/
structure Mirrors (d : St T) (s : RedisListener.St T) : Prop where
  states : d.states = s.states
  now : d.now = s.now
  submissions : d.log.reverse.filterMap submission = s.subs.map issued

omit [CommRing T] [LinearOrder T] in
/-- What becomes of a submission is not in the history. -/
theorem mirrors_set {d : St T} {s : RedisListener.St T} (hm : Mirrors d s) {k : Nat} {u v : RedisListener.Submission T}
    (hu : s.subs[k]? = some u) (hv : issued v = issued u) (loop : RedisListener.Loop) :
    Mirrors d { s with subs := s.subs.set k v, loop := loop } := by
  refine ⟨hm.states, hm.now, ?_⟩
  show _ = (s.subs.set k v).map issued
  rw [Tasks.map_move hu hv]
  exact hm.submissions

/-- A step of the listener is one of the triggers with their history, or none. -/
theorem mirrors_step {d : St T} {s t : RedisListener.St T} {e : RedisListener.Ev T} (hm : Mirrors d s)
    (h : RedisListener.step s e = some t) : Mirrors d t ∨ ∃ e' d', step d e' = some d' ∧ Mirrors d' t := by
  cases RedisListener.step_cases h with
  | message topic =>
    right
    refine ⟨.message topic, _, rfl, ?_, hm.now, ?_⟩
    · rw [hm.states, hm.now]
    · simp [submission, hm.submissions]
  | @clock t' hn =>
    right
    exact ⟨.clock t', { d with now := t' }, by rw [step, if_pos (hm.now ▸ hn)], hm.states, rfl, hm.submissions⟩
  | wake | allChecked | notDue => exact Or.inl ⟨hm.states, hm.now, hm.submissions⟩
  | @issues i a _ ha hd =>
    right
    have hstep : step d (.check i) = some { d with
        states := d.states.set i { a with debouncer := a.debouncer.reset }
        log := .submit i d.now (request a) :: d.log } := by
      rw [step, hm.states, ha, Option.map_some, hm.now, if_pos hd]
    refine ⟨.check i, _, hstep, ?_, hm.now, ?_⟩
    · rw [hm.states]
    · simp [submission, hm.submissions, request, issued, hm.now]
  | enters _ hu => exact Or.inl (mirrors_set hm hu (by rfl) _)
  | ends _ hu => exact Or.inl (mirrors_set hm hu (by rfl) _)

/-- Every run of the listener is one of its triggers with their history. -/
theorem listener_run {definitions : Definitions} {start : T} {ok : RedisListener.St T → RedisListener.Ev T → Prop}
    {s : RedisListener.St T} (h : Run RedisListener.step ok (RedisListener.init definitions start) s) :
    ∃ d, Run step (fun _ _ => True) (init definitions start) d ∧ Mirrors d s := by
  induction h with
  | refl => exact ⟨_, .refl _, rfl, rfl, rfl⟩
  | tail e _ _ hst ih =>
    obtain ⟨d, hr, hm⟩ := ih
    rcases mirrors_step hm hst with hm | ⟨e', d', hd, hm⟩
    · exact ⟨d, hr, hm⟩
    · exact ⟨d', hr.tail e' trivial hd, hm⟩

end

/-! Two messages, one second apart, on the agent's topic, whose window is one second: the
    check at 1 is too early for the second one. -/

def twoMessages : List (Ev Int) :=
  [.message "document.ingested", .clock 1, .message "document.ingested", .check 0, .clock 2]

theorem debounce_exact_two_messages :
    ∃ s, Run step (fun _ _ => True) (init RedisListener.onIngest (0 : Int)) s ∧ s.log.length = 2 ∧
      Issues s 0 ⟨"event-deduplicator", "event:document.ingested"⟩ := by
  obtain ⟨s, hr, hp⟩ := Run.exists_of_exec step (fun _ _ => True) (init RedisListener.onIngest (0 : Int)) twoMessages
    (fun s => s.now == 2 && s.log == [.message 1 "document.ingested", .message 0 "document.ingested"]) (by decide)
  simp only [Bool.and_eq_true, beq_iff_eq] at hp
  obtain ⟨hnow, hlog⟩ := hp
  obtain ⟨c, hc, hid, hdelay, ht⟩ : ∃ c : TriggerState Int, (triggerStates RedisListener.onIngest)[0]? = some c ∧
      c.agentId = "event-deduplicator" ∧ c.debouncer.delay = 1 ∧ c.topics = ["document.ingested"] :=
    ⟨_, rfl, rfl, by decide, rfl⟩
  obtain ⟨-, hissue, -⟩ := debounce_exact hr hc
  refine ⟨s, hr, by rw [hlog]; rfl, ?_⟩
  rw [hissue]
  refine ⟨1, "document.ingested", ⟨[], _, hlog, by simp [ht], fun e he => (by cases he)⟩, ?_, by rw [hid]; rfl⟩
  rw [hdelay, hnow]
  decide

end SagaAgents.Triggers.Debounce
