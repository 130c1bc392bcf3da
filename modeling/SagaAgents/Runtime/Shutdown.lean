/-
  SagaAgents.Runtime.Shutdown — submits that are cancelled while their run is under way.

  The executor and the runs it enters, side by side: a submit that gets its permits and the
  lock enters a run, and goes on with its `finally` when the run has ended. A shutdown
  cancels the task that awaits the submit (`RedisListener.stop` the tick task), wherever it
  waits: for a permit, for Redis, or inside the run. A cancellation is no `Exception`, so
  `run` does not catch it, and what it has not handed to the sink by then stays there.

  Proved:
  - `shutdown_keeps_acknowledged`: if no run is cancelled while its agent is running with
    a proposal it has acknowledged, or while it waits for the sink with another one to come,
    then every run whose submit has ended has handed over all it has acknowledged. A run
    that is cancelled there never does.
  - `acknowledged_lost`: a proposal is recorded, and the submit cancelled.
-/

import SagaAgents.Runtime.HandOver
import SagaAgents.Triggers.Executor

namespace SagaAgents.Runtime.Shutdown

open Lib
open HandOver (Handed Inv Fresh proposedBy addsOf addOf)
open Runner (AgentRunner RunState Move Advance advance)
open Triggers
open Triggers.Executor (RunExecutor RunRequest RunEnd Sub)

variable {Args : Type}

/-! ## Runs that are cancelled -/

/-- What the run has acknowledged has been handed to the sink, once and in order. -/
def HandedAll (s : HandOver.St Args) (r : RunState Args) : Prop :=
  addsOf s.adds r.runId = (proposedBy s.proposed r.runId).map fun p =>
    { agentId := r.definition.id, runId := r.runId, action := p.action, arguments := p.arguments, rationale := p.rationale }

/-- The run has an acknowledged proposal that it has not handed over. -/
def owes (r : RunState Args) : Bool :=
  match r.pc with
  | .agent => !r.proposals.isEmpty
  | .persisting _ k => decide (k + 1 < r.proposals.length)
  | _ => false

/-- No run is cancelled while it owes the sink a proposal. -/
def Spares (s : HandOver.St Args) : HandOver.Ev Args → Prop
  | .run k .cancel => ∀ r, s.runs[k]? = some r → owes r = false
  | _ => True

instance (s : HandOver.St Args) : (e : HandOver.Ev Args) → Decidable (Spares s e)
  | .start _ _ _ => inferInstanceAs (Decidable True)
  | .run k m => match m with
    | .cancel => inferInstanceAs (Decidable (∀ r ∈ s.runs[k]?, owes r = false))
    | .resolved | .guidanceFails _ | .raises | .toolCall _ _ | .propose _ _ _ | .agentEnds _ | .added | .addFails _ =>
      inferInstanceAs (Decidable True)

/-- How the run's task goes on in `submit`, once the run is over. -/
def endOf (r : RunState Args) : Option RunEnd :=
  match r.pc with
  | .ended report => some (.report (report.status == .ok))
  | .raised => some .raised
  | .cancelled => some .cancelled
  | _ => none

variable {y : AgentRunner} {s t : HandOver.St Args} {r r' : RunState Args} {n : Nat}

theorem handedAll_of (h : Handed y s.proposed s.adds r n) (hn : n = r.proposals.length) : HandedAll s r := by
  rw [HandedAll, h.adds, h.proposed, hn, List.take_length]
  rfl

theorem not_handedAll (h : Handed y s.proposed s.adds r n) (hn : n < r.proposals.length) : ¬ HandedAll s r := by
  intro he
  rw [HandedAll, h.adds, h.proposed] at he
  have := congrArg List.length he
  rw [List.length_map, List.length_map, List.length_take] at this
  omega

/-- A run that owes a proposal has not handed over all of them. -/
theorem handed_owes (h : Handed y s.proposed s.adds r n) (ho : owes r = true) : n < r.proposals.length := by
  have hstage := h.stage
  unfold owes at ho
  split at ho
  · rename_i hp
    simp only [HandOver.Stage, hp] at hstage
    have : r.proposals ≠ [] := by simpa using ho
    have := List.length_pos_of_ne_nil this
    omega
  · rename_i o k hp
    simp only [HandOver.Stage, hp] at hstage
    have : k + 1 < r.proposals.length := by simpa using ho
    omega
  · cases ho

/-- One that waits and owes none has. -/
theorem handed_spared (h : Handed y s.proposed s.adds r n)
    (hp : r.pc = .resolving ∨ r.pc = .agent ∨ ∃ o k, r.pc = .persisting o k) (ho : owes r = false) :
    n = r.proposals.length := by
  have hstage := h.stage
  have hle := h.le
  rcases hp with hp | hp | ⟨o, k, hp⟩
  · simp only [HandOver.Stage, hp] at hstage
    rw [hstage.1, hstage.2]
    rfl
  · simp only [HandOver.Stage, hp] at hstage
    have : r.proposals = [] := by simpa [owes, hp] using ho
    rw [this, hstage]
    rfl
  · simp only [HandOver.Stage, hp] at hstage
    have : ¬ k + 1 < r.proposals.length := by simpa [owes, hp] using ho
    omega

/-- A run that is over does not move. -/
theorem Advance.not_over {m : Move Args} (h : Advance y r m r') : endOf r = none := by
  unfold endOf
  cases h with
  | cancel hp => rcases hp with hp | hp | ⟨o, k, hp⟩ <;> simp [hp]
  | _ => simp [*]

/-- Only a cancellation leaves a run cancelled. -/
theorem cancelled_by {m : Move Args} (h : Advance y r m r') (hp : r'.pc = .cancelled) : m = .cancel := by
  have hpersist (q : RunState Args) (o : Runner.Outcome) (k : Nat) : (q.persistFrom y o k).pc ≠ .cancelled := by
    unfold RunState.persistFrom
    split <;> exact fun e => by cases e
  cases h with
  | cancel => rfl
  | resolved | guidanceFails | raises => cases hp
  | toolCall tool arguments hq | propose action arguments rationale hq => cases hq.symm.trans hp
  | agentEnds | added | addFails => exact absurd hp (hpersist _ _ _)

/-- Every run that was cancelled had handed over all it had acknowledged. -/
def Spared (s : HandOver.St Args) : Prop := ∀ r ∈ s.runs, r.pc = .cancelled → HandedAll s r

theorem spared_step {e : HandOver.Ev Args} (hi : Inv y s) (hs : Spared s) (ho : Spares s e) (h : HandOver.step y s e = some t) :
    Spared t := by
  rcases HandOver.step_cases h with ⟨d, runId, traceId, e1, e2⟩ | ⟨i, m, r, r', e1, hr, ha, e2⟩
  · subst e1 e2
    intro q hq hp
    rcases List.mem_append.mp hq with hq | hq
    · exact hs q hq hp
    · rw [List.mem_singleton.mp hq] at hp
      cases hp
  · subst e1 e2
    intro q hq hp
    rcases Tasks.mem_move hq with e | ⟨j, hne, hj⟩
    · subst e
      have hm := cancelled_by ha hp
      subst hm
      obtain ⟨n, hn⟩ := hi.handed r (List.mem_of_getElem? hr)
      cases ha with
      | cancel hw =>
        have hall := handed_spared hn hw (ho r hr)
        exact handedAll_of (HandOver.handed_to hn rfl trivial) hall
    · have hother := (HandOver.other_id hi.ids hr hj hne).symm
      have hid := (HandOver.Advance.grows ha).2
      have := hs q (List.mem_of_getElem? hj) hp
      unfold HandedAll at this ⊢
      rw [HandOver.addsOf_other _ (hid ▸ hother), HandOver.proposedBy_other _ hother]
      exact this

/-- Run `k` was cancelled while it owed the sink a proposal. -/
def Lost (y : AgentRunner) (k : Nat) (s : HandOver.St Args) : Prop :=
  ∃ r n, s.runs[k]? = some r ∧ r.pc = .cancelled ∧ Handed y s.proposed s.adds r n ∧ n < r.proposals.length

theorem lost_step {k : Nat} {e : HandOver.Ev Args} (hi : Inv y s) (hl : Lost y k s) (h : HandOver.step y s e = some t) :
    Lost y k t := by
  obtain ⟨q, n, hq, hp, hn, hlt⟩ := hl
  rcases HandOver.step_cases h with ⟨d, runId, traceId, e1, e2⟩ | ⟨i, m, r, r', e1, hr, ha, e2⟩
  · subst e1 e2
    exact ⟨q, n, Tasks.get_kept hq, hp, hn, hlt⟩
  · subst e1 e2
    by_cases e : k = i
    · subst e
      cases hr.symm.trans hq
      have := Advance.not_over ha
      simp [endOf, hp] at this
    · have hother := (HandOver.other_id hi.ids hr hq e).symm
      exact ⟨q, n, Tasks.get_other hq e, hp, HandOver.handed_other hn hother (HandOver.Advance.grows ha).2, hlt⟩

theorem lost_cancel {k : Nat} (hi : Inv y s) (hr : s.runs[k]? = some r) (ho : owes r = true)
    (h : HandOver.step y s (.run k .cancel) = some t) : Lost y k t := by
  rcases HandOver.step_cases h with ⟨d, runId, traceId, e1, -⟩ | ⟨i, m, q, q', e1, hq, ha, e2⟩
  · cases e1
  · cases e1
    subst e2
    cases hr.symm.trans hq
    obtain ⟨n, hn⟩ := hi.handed r (List.mem_of_getElem? hr)
    have hlt := handed_owes hn ho
    cases ha with
    | cancel hw =>
      exact ⟨_, n, Tasks.get_moved hr, rfl, HandOver.handed_to hn rfl trivial, hlt⟩

/-! ## The executor and its runs -/

structure St (Args : Type) where
  executor : Executor.St
  runs : HandOver.St Args
  /-- The submit of each run. -/
  submitOf : List Nat

inductive Ev (Args : Type) where
  /-- An event of the executor; if a submit enters its run, the run has this id. -/
  | executor (e : Executor.Ev) (runId : String) (traceId : Option String)
  | run (k : Nat) (m : Move Args)

def init (x : RunExecutor) : St Args := ⟨Executor.init x, HandOver.init, []⟩

/-- If submit `i` has entered its run, the run begins. -/
def enterRun (x : RunExecutor) (i : Nat) (runId : String) (traceId : Option String) (s : St Args) : St Args :=
  match s.executor.subs[i]?.bind fun u => if u.pc = .running then x.runnable u.req else none with
  | some d =>
    { s with runs := { s.runs with runs := s.runs.runs ++ [Runner.begin d runId traceId] }, submitOf := s.submitOf ++ [i] }
  | none => s

/-- A run's end is the end its submit has waited for. -/
def step (x : RunExecutor) (y : AgentRunner) (s : St Args) : Ev Args → Option (St Args)
  | .executor (.runEnd _ _) _ _ => none
  | .executor e runId traceId =>
    (Executor.step x s.executor e).map fun t =>
      enterRun x (e.index.getD s.executor.subs.length) runId traceId { s with executor := t }
  | .run k m =>
    (HandOver.step y s.runs (.run k m)).bind fun runs =>
      match runs.runs[k]?.bind endOf with
      | none => some { s with runs := runs }
      | some r =>
        s.submitOf[k]?.bind fun i => (Executor.step x s.executor (.runEnd i r)).map fun t =>
          { s with executor := t, runs := runs }

/-- A run that starts has an id of its own. -/
def Distinct (s : St Args) : Ev Args → Prop
  | .executor _ runId _ => ∀ r ∈ s.runs.runs, r.runId ≠ runId
  | .run _ _ => True

instance (s : St Args) : (e : Ev Args) → Decidable (Distinct s e)
  | .executor _ runId _ => inferInstanceAs (Decidable (∀ r ∈ s.runs.runs, r.runId ≠ runId))
  | .run _ _ => inferInstanceAs (Decidable True)

/-- The sink does not fail. -/
def Reliable : Ev Args → Prop
  | .run _ (.addFails _) => False
  | _ => True

instance : (e : Ev Args) → Decidable (Reliable e)
  | .executor _ _ _ => inferInstanceAs (Decidable True)
  | .run _ m => match m with
    | .addFails _ => inferInstanceAs (Decidable False)
    | .resolved | .guidanceFails _ | .raises | .toolCall _ _ | .propose _ _ _ | .agentEnds _ | .added | .cancel =>
      inferInstanceAs (Decidable True)

/-- No run is cancelled while it owes the sink a proposal. -/
def Careful (s : St Args) : Ev Args → Prop
  | .executor _ _ _ => True
  | .run k m => Spares s.runs (.run k m)

instance (s : St Args) : (e : Ev Args) → Decidable (Careful s e)
  | .executor _ _ _ => inferInstanceAs (Decidable True)
  | .run k m => inferInstanceAs (Decidable (Spares s.runs (.run k m)))

/-! ## A submit and its run -/

def left : Executor.Pc → Bool
  | .releasing _ | .ended _ => true
  | _ => false

/-- A submit is in its run as long as that goes on. -/
structure Linked (s : St Args) : Prop where
  length : s.submitOf.length = s.runs.runs.length
  nodup : s.submitOf.Nodup
  link : ∀ (k i : Nat) (r : RunState Args), s.submitOf[k]? = some i → s.runs.runs[k]? = some r →
    ∃ u, s.executor.subs[i]? = some u ∧ (u.pc = .running ∨ (left u.pc = true ∧ endOf r ≠ none))

theorem acquiring_waits {p : Executor.Pc} (h : p.acquiring) : p ≠ .running ∧ left p = false := by
  cases p with
  | running | locking | releasing | ended => cases h
  | active | waitGlobal | waitAgent => exact ⟨fun e => (by cases e), rfl⟩

/-- Only the end of its run takes a submit out of it, and none goes back. -/
theorem moves_left {x : RunExecutor} {u v : Sub} {e : Executor.Ev} (hm : Executor.Moves x u e v)
    (he : ∀ i r, e ≠ .runEnd i r) :
    u.pc ≠ .running ∧ (left u.pc = true → left v.pc = true ∧ v.pc ≠ .running) := by
  have hacquiring (hp : u.pc.acquiring) : u.pc ≠ .running ∧ (left u.pc = true → left v.pc = true ∧ v.pc ≠ .running) := by
    obtain ⟨h1, h2⟩ := acquiring_waits hp
    exact ⟨h1, fun h => by rw [h2] at h; cases h⟩
  have hother (hp : u.pc ≠ .running) (hl : left u.pc = false) :
      u.pc ≠ .running ∧ (left u.pc = true → left v.pc = true ∧ v.pc ≠ .running) :=
    ⟨hp, fun h => by rw [hl] at h; cases h⟩
  cases hm with
  | skip hp | queueGlobal hp => exact hother (by rw [hp]; intro e; cases e) (by rw [hp]; rfl)
  | queueAgent hp | lock hp | start hp => exact hacquiring hp
  | locked hp | lockHeld hp | setRaises hp => exact hother (by rw [hp]; intro e; cases e) (by rw [hp]; rfl)
  | unlock hp | finish hp => exact absurd rfl (he _ _)
  | unlocked e hp => exact ⟨(by rw [hp]; intro e; cases e), fun _ => ⟨rfl, fun e => (by cases e)⟩⟩
  | cancelled hp =>
    refine ⟨?_, fun _ => ⟨rfl, fun e => (by cases e)⟩⟩
    rcases hp with hp | hp | hp | ⟨e, hp⟩ <;> rw [hp] <;> exact fun e => by cases e

/-- The end of its run takes it out. -/
theorem moves_out {x : RunExecutor} {u v : Sub} {i : Nat} {e : RunEnd} (hm : Executor.Moves x u (.runEnd i e) v)
    (hp : u.pc = .running) : left v.pc = true := by
  cases hm with
  | queueAgent hq | lock hq | start hq => exact absurd hp (acquiring_waits hq).1
  | unlock | finish => rfl

variable {x : RunExecutor} {c c' : St Args}

/-- An event of the executor leaves every submit in its run, or out of it. -/
theorem linked_executor (h : Linked c) {e : Executor.Ev} (he : ∀ i r, e ≠ .runEnd i r) {ex : Executor.St}
    (hst : Executor.step x c.executor e = some ex) : Linked { c with executor := ex } := by
  refine ⟨h.length, h.nodup, fun k i r hk hr => ?_⟩
  obtain ⟨u, hu, hlink⟩ := h.link k i r hk hr
  rcases Executor.step_subs hst with ⟨req, v, -, -, hsubs⟩ | ⟨j, w, v, -, hw, hm, hsubs⟩
  · exact ⟨u, (congrArg (·[i]?) hsubs).trans (Tasks.get_kept hu), hlink⟩
  · by_cases e : i = j
    · subst e
      cases hu.symm.trans hw
      obtain ⟨hnot, hleft⟩ := moves_left hm he
      obtain ⟨hl, hend⟩ := hlink.resolve_left hnot
      exact ⟨v, (congrArg (·[i]?) hsubs).trans (Tasks.get_moved hu), Or.inr ⟨(hleft hl).1, hend⟩⟩
    · exact ⟨u, (congrArg (·[i]?) hsubs).trans (Tasks.get_other hu e), hlink⟩

/-- A submit that is found in its run after such an event has just entered it: it has no
    run yet. -/
theorem enters_first (h : Linked c) {e : Executor.Ev} (he : ∀ i r, e ≠ .runEnd i r) {ex : Executor.St}
    (hst : Executor.step x c.executor e = some ex) {u : Sub} (hu : ex.subs[e.index.getD c.executor.subs.length]? = some u)
    (hp : u.pc = .running) : e.index.getD c.executor.subs.length ∉ c.submitOf := by
  intro hmem
  obtain ⟨k, hk⟩ := List.mem_iff_getElem?.mp hmem
  obtain ⟨r, hr⟩ : ∃ r, c.runs.runs[k]? = some r :=
    ⟨_, List.getElem?_eq_getElem (h.length ▸ (List.getElem?_eq_some_iff.mp hk).1)⟩
  obtain ⟨w, hw, hlink⟩ := h.link k _ r hk hr
  rcases Executor.step_subs hst with ⟨req, v, e', -, -⟩ | ⟨j, w', v, hj, hw', hm, hsubs⟩
  · -- a new submit has no run yet
    subst e'
    have := (List.getElem?_eq_some_iff.mp hw).1
    exact absurd this (Nat.lt_irrefl _)
  · rw [hj, Option.getD_some] at hw hu
    cases hw.symm.trans hw'
    rw [hsubs, Tasks.get_moved hw] at hu
    cases hu
    obtain ⟨hnot, hleft⟩ := moves_left hm he
    exact (hleft (hlink.resolve_left hnot).1).2 hp

theorem linked_enter (h : Linked c) {e : Executor.Ev} (he : ∀ i r, e ≠ .runEnd i r) {ex : Executor.St}
    (hst : Executor.step x c.executor e = some ex) (runId : String) (traceId : Option String) :
    Linked (enterRun x (e.index.getD c.executor.subs.length) runId traceId { c with executor := ex }) := by
  have hlinked := linked_executor h he hst
  unfold enterRun
  split
  · rename_i d hd
    obtain ⟨u, hu, hd⟩ := Option.bind_eq_some_iff.mp hd
    have hp : u.pc = .running := by
      by_contra hne
      rw [if_neg hne] at hd
      cases hd
    have hnew := enters_first h he hst hu hp
    refine ⟨by simp [h.length], Tasks.nodup_start h.nodup hnew, fun k i r hk hr => ?_⟩
    have hk : (c.submitOf ++ [e.index.getD c.executor.subs.length])[k]? = some i := hk
    have hr : (c.runs.runs ++ [Runner.begin d runId traceId])[k]? = some r := hr
    rcases Tasks.get_start.mp hk with hk | ⟨e₁, e₂⟩
    · have hlt : k < c.runs.runs.length := h.length ▸ (List.getElem?_eq_some_iff.mp hk).1
      rw [List.getElem?_append_left hlt] at hr
      exact hlinked.link k i r hk hr
    · subst e₂
      exact ⟨u, hu, Or.inl hp⟩
  · exact hlinked

/-- A run that goes on keeps its submit in it; one that ends lets it out. -/
theorem linked_run (h : Linked c) {k : Nat} (hr : c.runs.runs[k]? = some r) {m : Move Args} (ha : Advance y r m r')
    {runs : HandOver.St Args} (hruns : runs.runs = c.runs.runs.set k r') :
    (endOf r' = none → Linked { c with runs := runs }) ∧
      ∀ i e ex, c.submitOf[k]? = some i → Executor.step x c.executor (.runEnd i e) = some ex → endOf r' ≠ none →
        Linked { c with executor := ex, runs := runs } := by
  have hlen : c.submitOf.length = runs.runs.length := by rw [hruns, List.length_set]; exact h.length
  have hget {j : Nat} {q : RunState Args} (hq : runs.runs[j]? = some q) : (j = k ∧ r' = q) ∨ (j ≠ k ∧ c.runs.runs[j]? = some q) := by
    rw [hruns] at hq
    exact (Tasks.get_move hr).mp hq
  refine ⟨fun hn => ⟨hlen, h.nodup, fun j i q hj hq => ?_⟩, fun i e ex hi hst hne => ⟨hlen, h.nodup, fun j i' q hj hq => ?_⟩⟩
  · rcases hget hq with ⟨e, -⟩ | ⟨-, hq⟩
    · subst e
      obtain ⟨u, hu, hlink⟩ := h.link j i r hj hr
      exact ⟨u, hu, Or.inl (hlink.resolve_right fun hl => hl.2 (Advance.not_over ha))⟩
    · exact h.link j i q hj hq
  · obtain ⟨w, hw, hlink⟩ := h.link k i r hi hr
    have hp : w.pc = .running := hlink.resolve_right fun hl => hl.2 (Advance.not_over ha)
    rcases Executor.step_subs hst with ⟨req, v, e', -, -⟩ | ⟨i₁, w₁, v, hi₁, hw₁, hm, hsubs⟩
    · cases e'
    · cases hi₁
      cases hw.symm.trans hw₁
      rcases hget hq with ⟨e₁, e₂⟩ | ⟨hjk, hq⟩
      · subst e₁ e₂
        cases hi.symm.trans hj
        exact ⟨v, (congrArg (·[i]?) hsubs).trans (Tasks.get_moved hw), Or.inr ⟨moves_out hm hp, hne⟩⟩
      · have hne' : i' ≠ i := by
          intro e'
          subst e'
          exact hjk ((List.getElem?_inj (List.getElem?_eq_some_iff.mp hj).1 h.nodup).mp (hj.trans hi.symm))
        obtain ⟨u, hu, hlink⟩ := h.link j i' q hj hq
        exact ⟨u, (congrArg (·[i']?) hsubs).trans (Tasks.get_other hu hne'), hlink⟩

theorem step_cases {e : Ev Args} (h : step x y c e = some c') :
    (∃ e₀ runId traceId ex, e = .executor e₀ runId traceId ∧ (∀ i r, e₀ ≠ .runEnd i r) ∧
      Executor.step x c.executor e₀ = some ex ∧
      c' = enterRun x (e₀.index.getD c.executor.subs.length) runId traceId { c with executor := ex }) ∨
    ∃ k m runs, e = .run k m ∧ HandOver.step y c.runs (.run k m) = some runs ∧
      ((runs.runs[k]?.bind endOf = none ∧ c' = { c with runs := runs }) ∨
        ∃ r i ex, runs.runs[k]?.bind endOf = some r ∧ c.submitOf[k]? = some i ∧
          Executor.step x c.executor (.runEnd i r) = some ex ∧ c' = { c with executor := ex, runs := runs }) := by
  cases e with
  | executor e₀ runId traceId =>
    left
    have hne : ∀ i r, e₀ ≠ .runEnd i r := by
      intro i r e
      subst e
      cases h
    rw [step] at h
    · obtain ⟨ex, hex, e⟩ := Option.map_eq_some_iff.mp h
      exact ⟨e₀, runId, traceId, ex, rfl, hne, hex, e.symm⟩
    · exact hne
  | run k m =>
    right
    obtain ⟨runs, hruns, h⟩ := Option.bind_eq_some_iff.mp h
    refine ⟨k, m, runs, rfl, hruns, ?_⟩
    split at h
    · rename_i hn
      exact Or.inl ⟨hn, (Option.some.inj h).symm⟩
    · rename_i r hr
      obtain ⟨i, hi, h⟩ := Option.bind_eq_some_iff.mp h
      obtain ⟨ex, hex, e⟩ := Option.map_eq_some_iff.mp h
      exact Or.inr ⟨r, i, ex, hr, hi, hex, e.symm⟩

theorem linked_step {e : Ev Args} (h : Linked c) (hst : step x y c e = some c') : Linked c' := by
  rcases step_cases hst with ⟨e₀, runId, traceId, ex, -, hne, hex, e'⟩ | ⟨k, m, runs, -, hruns, hend⟩
  · subst e'
    exact linked_enter h hne hex runId traceId
  · rcases HandOver.step_cases hruns with ⟨d, runId, traceId, e1, -⟩ | ⟨k', m', r, r', e1, hr, ha, e2⟩
    · cases e1
    · cases e1
      have hset : runs.runs = c.runs.runs.set k r' := by rw [e2]
      have hself : runs.runs[k]? = some r' := by rw [hset, Tasks.get_moved hr]
      rw [hself, Option.bind_some] at hend
      rcases hend with ⟨hn, e'⟩ | ⟨e, i, ex, he, hi, hex, e'⟩
      · subst e'
        exact (linked_run (x := x) h hr ha hset).1 hn
      · subst e'
        exact (linked_run h hr ha hset).2 i e ex hi hex (by rw [he]; exact Option.some_ne_none e)

theorem linked_init (x : RunExecutor) : Linked (init x : St Args) :=
  ⟨rfl, List.nodup_nil, fun k i r hk => (by cases hk)⟩

/-! ## What the runs hand over -/

/-- What a step does to the runs is a step of theirs. -/
theorem runs_step {e : Ev Args} (h : step x y c e = some c') :
    c'.runs = c.runs ∨ ∃ e', HandOver.step y c.runs e' = some c'.runs ∧ (Distinct c e → Fresh c.runs e') ∧
      (Careful c e → Spares c.runs e') := by
  rcases step_cases h with ⟨e₀, runId, traceId, ex, e', -, -, e''⟩ | ⟨k, m, runs, e', hruns, hend⟩
  · subst e' e''
    unfold enterRun
    split
    · rename_i d _
      exact Or.inr ⟨.start d runId traceId, rfl, id, fun _ => trivial⟩
    · exact Or.inl rfl
  · subst e'
    have hc : c'.runs = runs := by
      rcases hend with ⟨-, e⟩ | ⟨_, _, _, -, -, -, e⟩ <;> rw [e]
    rw [hc]
    exact Or.inr ⟨.run k m, hruns, fun _ => trivial, id⟩

/-- The submits and their runs, and what the runs have handed over. -/
structure Accounted (y : AgentRunner) (c : St Args) : Prop where
  linked : Linked c
  runs : Inv y c.runs

theorem accounted_step (c : St Args) (e : Ev Args) (c' : St Args) (h : Accounted y c) (hd : Distinct c e)
    (hst : step x y c e = some c') : Accounted y c' := by
  refine ⟨linked_step h.linked hst, ?_⟩
  rcases runs_step hst with e' | ⟨e', hr, hf, -⟩
  · rw [e']
    exact h.runs
  · exact HandOver.inv_step _ e' _ h.runs (hf hd) hr

theorem spared_run_step (c : St Args) (e : Ev Args) (c' : St Args) (h : Accounted y c ∧ Spared c.runs)
    (ho : Distinct c e ∧ Careful c e) (hst : step x y c e = some c') : Accounted y c' ∧ Spared c'.runs := by
  refine ⟨accounted_step c e c' h.1 ho.1 hst, ?_⟩
  rcases runs_step hst with e' | ⟨e', hr, -, hs⟩
  · rw [e']
    exact h.2
  · exact spared_step h.1.runs h.2 (hs ho.2) hr

theorem lost_run_step {k : Nat} (c : St Args) (e : Ev Args) (c' : St Args) (h : Accounted y c ∧ Lost y k c.runs)
    (hd : Distinct c e) (hst : step x y c e = some c') : Accounted y c' ∧ Lost y k c'.runs := by
  refine ⟨accounted_step c e c' h.1 hd hst, ?_⟩
  rcases runs_step hst with e' | ⟨e', hr, -, -⟩
  · rw [e']
    exact h.2
  · exact lost_step h.1.runs h.2 hr

theorem accounted_init (x : RunExecutor) (y : AgentRunner) : Accounted y (init x : St Args) :=
  ⟨linked_init x, HandOver.inv_init y⟩

/-- A run that is over, and was not cancelled owing a proposal, has handed over all. -/
theorem handedAll_over (hsink : y.proposalSink = true) (hi : Inv y s) (hs : Spared s) (hr : r ∈ s.runs) (ho : endOf r ≠ none) :
    HandedAll s r := by
  obtain ⟨n, hn⟩ := hi.handed r hr
  have hstage := hn.stage
  have hle := hn.le
  unfold endOf at ho
  split at ho
  · rename_i report hp
    simp only [HandOver.Stage, hp] at hstage
    by_cases hne : r.proposals = []
    · refine handedAll_of hn ?_
      rw [hne] at hle ⊢
      exact Nat.le_zero.mp hle
    · exact handedAll_of hn (hstage.2 hsink (hn.mode hne))
  · rename_i hp
    simp only [HandOver.Stage, hp] at hstage
    refine handedAll_of hn ?_
    rw [hstage.1, hstage.2]
    rfl
  · rename_i hp
    exact hs r hr hp
  · exact absurd rfl ho

theorem spared_run (h : Run (step x y) (fun c e => Distinct c e ∧ Careful c e) (init x) c) : Accounted y c ∧ Spared c.runs :=
  h.invariant (I := fun c => Accounted y c ∧ Spared c.runs) spared_run_step
    ⟨accounted_init x y, fun _ hr => (by cases hr)⟩

/-- What was lost stays lost. -/
theorem lost_run {k : Nat} (h : Run (step x y) Distinct c c') (ha : Accounted y c) (hl : Lost y k c.runs) :
    Accounted y c' ∧ Lost y k c'.runs :=
  h.invariant (I := fun c => Accounted y c ∧ Lost y k c.runs) lost_run_step ⟨ha, hl⟩

/-- A run that is cancelled owing a proposal is lost. -/
theorem lost_careless {k : Nat} (ha : Accounted y c) (hc : ¬ Careful c (.run k .cancel))
    (hst : step x y c (.run k .cancel) = some c') : Lost y k c'.runs := by
  obtain ⟨r, hr, ho⟩ : ∃ r, c.runs.runs[k]? = some r ∧ owes r = true := by
    by_contra hnot
    exact hc fun r hr => Bool.eq_false_iff.mpr fun ho => hnot ⟨r, hr, ho⟩
  rcases step_cases hst with ⟨_, _, _, _, e, -⟩ | ⟨k', m, runs, e, hs, hend⟩
  · cases e
  · cases e
    have hruns : c'.runs = runs := by
      rcases hend with ⟨-, e⟩ | ⟨_, _, _, -, -, -, e⟩ <;> rw [e]
    rw [hruns]
    exact lost_cancel ha.runs hr ho hs

/-- When a submit has ended, its run has handed over all it has acknowledged, if no run was
    cancelled while it owed the sink a proposal. A run that was never does. -/
theorem shutdown_keeps_acknowledged (x : RunExecutor) (y : AgentRunner) (hsink : y.proposalSink = true) :
    (∀ c : St Args, Run (step x y) (fun c e => Distinct c e ∧ Careful c e) (init x) c →
      ∀ (k i : Nat) (r : RunState Args) (u : Sub) (e : Executor.Ending), c.submitOf[k]? = some i → c.runs.runs[k]? = some r →
        c.executor.subs[i]? = some u → u.pc = .ended e → HandedAll c.runs r) ∧
    ∀ (c : St Args) (k : Nat) (c' : St Args), Run (step x y) Distinct (init x) c → ¬ Careful c (.run k .cancel) →
      step x y c (.run k .cancel) = some c' → ∀ t, Run (step x y) Distinct c' t →
        ∃ r, t.runs.runs[k]? = some r ∧ ¬ HandedAll t.runs r := by
  constructor
  · intro c hc k i r u e hk hr hu he
    obtain ⟨ha, hs⟩ := spared_run hc
    obtain ⟨u', hu', hlink⟩ := ha.linked.link k i r hk hr
    cases hu.symm.trans hu'
    have hover : endOf r ≠ none := (hlink.resolve_left fun h => by rw [he] at h; cases h).2
    exact handedAll_over hsink ha.runs hs (List.mem_of_getElem? hr) hover
  · intro c k c' hr hc hst t ht
    have ha : Accounted y c := hr.invariant accounted_step (accounted_init x y)
    have ha' : Accounted y c' := accounted_step c (.run k .cancel) c' ha trivial hst
    obtain ⟨-, q, n, hq, -, hn, hlt⟩ := lost_run ht ha' (lost_careless ha hc hst)
    exact ⟨q, hq, not_handedAll hn hlt⟩

/-! A deduplicator's submit is cancelled after its run has acknowledged a proposal. -/

def stopped : List (Ev Unit) :=
  [.executor Executor.scheduled "r1" none, .executor (.setReply 0 .truthy) "r1" none, .run 0 .resolved,
    .run 0 (.propose "merge_events" () "same event"), .run 0 .cancel, .executor (.evalReply 0 false) "r2" none]

/-- The submit has ended, one proposal is acknowledged, and the sink has got none. -/
def lostOne (c : St Unit) : Bool :=
  c.submitOf == [0] && (c.executor.subs[0]?).any (·.pc == .ended .cancelled) && (c.runs.runs[0]?).any (·.runId == "r1") &&
    proposedBy c.runs.proposed "r1" == [⟨"merge_events", (), "same event"⟩] && c.runs.adds == []

theorem acknowledged_lost :
    ∃ c : St Unit, Run (step Executor.oneAgent HandOver.runner) (fun c e => Distinct c e ∧ Reliable e) (init Executor.oneAgent) c ∧
      ∃ r u, c.submitOf[0]? = some 0 ∧ c.runs.runs[0]? = some r ∧ c.executor.subs[0]? = some u ∧
        u.pc = .ended .cancelled ∧ ¬ HandedAll c.runs r := by
  obtain ⟨c, hc, hl⟩ := Run.exists_of_exec (step Executor.oneAgent HandOver.runner) (fun c e => Distinct c e ∧ Reliable e)
    (init Executor.oneAgent) stopped lostOne (by decide)
  simp only [lostOne, Bool.and_eq_true, beq_iff_eq, Option.any_eq_true] at hl
  obtain ⟨⟨⟨⟨hsub, u, hu, hend⟩, r, hr, hid⟩, hproposed⟩, hadds⟩ := hl
  refine ⟨c, hc, r, u, by rw [hsub]; rfl, hr, hu, hend, fun hall => ?_⟩
  rw [HandedAll, hid, hproposed, hadds] at hall
  cases hall

/-- The same run, cancelled while it waits for the sink with its only proposal. -/
def stoppedLater : List (Ev Unit) :=
  [.executor Executor.scheduled "r1" none, .executor (.setReply 0 .truthy) "r1" none, .run 0 .resolved,
    .run 0 (.propose "merge_events" () "same event"), .run 0 (.agentEnds (.returned "done" 0)), .run 0 .cancel,
    .executor (.evalReply 0 false) "r2" none]

def handedOne (c : St Unit) : Bool :=
  c.submitOf == [0] && (c.executor.subs[0]?).any (·.pc == .ended .cancelled) && (c.runs.runs[0]?).isSome &&
    c.runs.proposed.length == 1

theorem shutdown_keeps_acknowledged_later :
    ∃ c : St Unit, c.runs.proposed.length = 1 ∧ ∃ r u, c.runs.runs[0]? = some r ∧ c.executor.subs[0]? = some u ∧
      u.pc = .ended .cancelled ∧ HandedAll c.runs r := by
  obtain ⟨c, hc, hl⟩ := Run.exists_of_exec (step Executor.oneAgent HandOver.runner) (fun c e => Distinct c e ∧ Careful c e)
    (init Executor.oneAgent) stoppedLater handedOne (by decide)
  simp only [handedOne, Bool.and_eq_true, beq_iff_eq, Option.any_eq_true, Option.isSome_iff_exists] at hl
  obtain ⟨⟨⟨hsub, u, hu, hend⟩, r, hr⟩, hproposed⟩ := hl
  refine ⟨c, hproposed, r, u, hr, hu, hend, ?_⟩
  exact (shutdown_keeps_acknowledged Executor.oneAgent HandOver.runner rfl).1 c hc 0 0 r u .cancelled (by rw [hsub]; rfl) hr hu hend

end SagaAgents.Runtime.Shutdown
