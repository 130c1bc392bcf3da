/-
  SagaAgents.Triggers.Waiting — how long a submit of one `RunExecutor` waits.

  The executor with a clock beside it. A tick passes when no task is ready to run, so a
  permit that is handed over is used at once. What a tick counts is the time that each
  submit has had both its permits (for Redis, for its run and for giving the lock back),
  and the time that it has been in the two queues. `ahead` is the number of submits that it
  found under way.

  Proved: `waits_at_most`. With every limit positive, and where nobody has both permits for
  longer than `d`, no submit waits longer than `d * (ahead + (global_limit - 1))`, with or
  without Redis and whatever ends the submits: `d` for each submit that it found, and once
  more for each that can get in front of it at its agent's semaphore.
-/

import SagaAgents.Lib.Work
import SagaAgents.Triggers.Fairness

namespace SagaAgents.Triggers.Executor

open Lib Lib.Semaphore

variable {x : RunExecutor}

/-! ## The clock -/

/-- The submit has both its permits. -/
def hasBoth (s : St) (j : Nat) : Bool := (s.subs[j]?).any fun u => u.pc.agentStand == .holds

def inQueue (s : St) (j : Nat) : Bool := (s.subs[j]?).any waiting

def live (s : St) (j : Nat) : Bool := (s.subs[j]?).any fun u => !hasEnded u

/-- The submits in front of this number that have not ended. -/
def before (s : St) (i : Nat) : Finset Nat := (Finset.range i).filter fun j => live s j = true

structure Timed where
  executor : St
  age : Nat → Nat
  waited : Nat → Nat
  ahead : Nat → Nat

inductive Clocked where
  | step (e : Ev)
  | tick

def Timed.init (x : RunExecutor) : Timed := ⟨Executor.init x, fun _ => 0, fun _ => 0, fun _ => 0⟩

/-- The submits that a new one finds under way. -/
def noteAhead (s : Timed) : Ev → Nat → Nat
  | .submit _ => Function.update s.ahead s.executor.subs.length (before s.executor s.executor.subs.length).card
  | _ => s.ahead

def Timed.step (x : RunExecutor) (s : Timed) : Clocked → Option Timed
  | .step e => (Executor.step x s.executor e).map fun t => { s with executor := t, ahead := noteAhead s e }
  | .tick =>
    some { s with age := fun j => s.age j + (hasBoth s.executor j).toNat,
                  waited := fun j => s.waited j + (inQueue s.executor j).toNat }

/-- Time passes when no hand-over is pending, and nobody has both permits for longer than `d`. -/
def Within (d : Nat) (s : Timed) : Clocked → Prop
  | .tick => NoHandOver s.executor ∧ ∀ j, hasBoth s.executor j = true → s.age j < d
  | .step _ => True

/-! ## Who is in front of a submit -/

/-- In its agent's queue in front of the submit, or past that queue. -/
def inFront (s : St) (agentId : String) (i : Nat) : Finset Nat :=
  (Finset.range s.subs.length).filter fun j =>
    j ∈ (s.agentSems agentId).ahead i ∨ (s.subs.map (agentStand agentId))[j]? = some .holds

variable {s t : St} {i j k : Nat} {u v w : Sub}

theorem mem_before : j ∈ before s i ↔ j < i ∧ live s j = true := by
  simp [before]

theorem stand_get {f : Sub → Stand} {c : Stand} (h : (s.subs.map f)[j]? = some c) : ∃ v, s.subs[j]? = some v ∧ f v = c := by
  rw [List.getElem?_map] at h
  exact Option.map_eq_some_iff.mp h

theorem agentStand_holds {id : String} (h : agentStand id v = .holds) : v.req.agentId = id ∧ v.pc.agentStand = .holds := by
  unfold agentStand at h
  split at h
  · rename_i e
    exact ⟨e, h⟩
  · cases h

/-- Who has its agent's permit has a global one. -/
theorem both_global (h : v.pc.agentStand = .holds) : globalStand v = .holds := by
  unfold globalStand
  cases hp : v.pc with
  | active p => cases p <;> simp_all [Pc.agentStand, Pc.globalStand]
  | _ => simp_all [Pc.agentStand, Pc.globalStand]

theorem hasBoth_of {id : String} (h : (s.subs.map (agentStand id))[j]? = some .holds) : hasBoth s j = true := by
  obtain ⟨v, hv, hst⟩ := stand_get h
  simp [hasBoth, hv, (agentStand_holds hst).2]

/-- Holders of global permits are no more than there are permits. -/
theorem holders_card (h : Inv x s) {F : Finset Nat} (hF : ∀ j ∈ F, (s.subs.map globalStand)[j]? = some .holds) :
    F.card ≤ x.globalLimit := by
  have hsub : F ⊆ ((List.range (s.subs.map globalStand).length).filter
      fun j => (s.subs.map globalStand)[j]? == some .holds).toFinset := by
    intro j hj
    have hget := hF j hj
    rw [List.mem_toFinset, List.mem_filter, List.mem_range, beq_iff_eq]
    exact ⟨(List.getElem?_eq_some_iff.mp hget).1, hget⟩
  have hlen := (Finset.card_le_card hsub).trans (List.toFinset_card_le _)
  rw [← List.countP_eq_length_filter, count_range] at hlen
  exact hlen.trans h.global.holders_le

/-- A submit in its agent's queue has fewer in front of it than there are global permits:
    each of them holds one, and so does it. -/
theorem inFront_card (h : Inv x s) (hi : s.subs[i]? = some u) (hp : u.pc = .waitAgent) :
    (inFront s u.req.agentId i).card ≤ x.globalLimit - 1 := by
  have hout : i ∉ inFront s u.req.agentId i := by
    intro hm
    rcases (Finset.mem_filter.mp hm).2 with hm | hm
    · exact (mem_ahead hm).2 rfl
    · obtain ⟨v, hv, hst⟩ := stand_get hm
      cases hi.symm.trans hv
      have := (agentStand_holds hst).2
      rw [hp] at this
      cases this
  have hF : ∀ j ∈ insert i (inFront s u.req.agentId i), (s.subs.map globalStand)[j]? = some .holds := by
    intro j hj
    have hwait : ∀ {v}, s.subs[j]? = some v → v.pc = .waitAgent → (s.subs.map globalStand)[j]? = some .holds := by
      intro v hv hvp
      simp [hv, globalStand, hvp, Pc.globalStand]
    rcases Finset.mem_insert.mp hj with e | hj
    · rw [e] at hwait ⊢
      exact hwait hi hp
    · rcases (Finset.mem_filter.mp hj).2 with hj | hj
      · obtain ⟨v, hv, hst⟩ := stand_get (((h.agent _).queue j).mp (mem_ahead hj).1)
        exact hwait hv (queued_agent hst).2
      · obtain ⟨v, hv, hst⟩ := stand_get hj
        simp [hv, both_global (agentStand_holds hst).2]
  have hcard := holders_card h hF
  rw [Finset.card_insert_of_notMem hout] at hcard
  omega

/-! ## Somebody in front has both permits -/

theorem ordered_run {ok : St → Ev → Prop} (h : Run (step x) ok (Executor.init x) s) : Ordered s := by
  have hboth : Inv x s ∧ Ordered s :=
    h.invariant (I := fun s => Inv x s ∧ Ordered s)
      (fun s e t hs _ h => ⟨inv_step s e t hs.1 h, ordered_step hs.1 hs.2 h⟩) ⟨inv_init x, ordered_init⟩
  exact hboth.2

/-- A submit that was let in has permits to wait for, where every definition has them. -/
theorem waits_for_some (hx : ∀ d ∈ x.definitions.rows, 1 ≤ x.globalLimit ∧ 1 ≤ d.limits.maxConcurrentRuns)
    {ok : St → Ev → Prop} (h : Run (step x) ok (Executor.init x) s) (hi : s.subs[i]? = some u) (hp : u.pc ≠ .ended .skipped) :
    1 ≤ x.globalLimit ∧ 1 ≤ x.permits u.req.agentId := by
  have hk := (known_run h u (List.mem_of_getElem? hi)).resolve_left hp
  obtain ⟨d, hf⟩ := Option.isSome_iff_exists.mp hk
  have hg := (Option.filter_eq_some_iff.mp hf).1
  have hlimits := hx d (Keyed.get_some hg).1
  refine ⟨hlimits.1, ?_⟩
  simp only [RunExecutor.permits, hg, Option.elim_some]
  omega

/-- Where nothing is handed over, the agent's permits are held when somebody queues for one. -/
theorem agent_holder (hx : ∀ d ∈ x.definitions.rows, 1 ≤ x.globalLimit ∧ 1 ≤ d.limits.maxConcurrentRuns) {ok : St → Ev → Prop}
    (h : Run (step x) ok (Executor.init x) s) (hq : NoHandOver s) (hi : s.subs[i]? = some u) (hp : u.pc = .waitAgent) :
    ∃ j : Nat, (s.subs.map (agentStand u.req.agentId))[j]? = some Stand.holds := by
  have hserves := (inv_run h (inv_init x)).agent u.req.agentId
  have hpos := (waits_for_some hx h hi (by rw [hp]; exact fun h => by cases h)).2
  have hfull := hserves.full (hq.2 _) (i := i) (by simp [hi, agentStand, hp, Pc.agentStand])
  exact List.getElem?_of_mem (List.count_pos_iff.mp (by omega))

/-- A submit that waits for a global permit: who holds one was made before it. -/
theorem holder_before {ok : St → Ev → Prop} (h : Run (step x) ok (Executor.init x) s) (hq : NoHandOver s)
    (hi : s.subs[i]? = some u) (hp : u.pc = .waitGlobal) (hv : s.subs[j]? = some v) (hholds : globalStand v = .holds) :
    j < i := by
  by_contra hle
  have hne : i ≠ j := by
    intro e
    subst e
    cases hi.symm.trans hv
    rw [globalStand, hp] at hholds
    cases hholds
  have hnot : ¬ s.globalSem.Handed i := by
    rintro ⟨w, hw, -, hwoken⟩
    rw [hq.1 w hw] at hwoken
    cases hwoken
  obtain ⟨-, hpc | ⟨e, hpc⟩⟩ := (ordered_run h).behind i j u v (by omega) hi hp hnot hv
  · rw [globalStand, hpc] at hholds
    cases hholds
  · rw [globalStand, hpc] at hholds
    cases hholds

theorem live_of_both (h : hasBoth s j = true) : live s j = true := by
  obtain ⟨v, hv, hst⟩ := (Option.any_eq_true _ _).mp h
  rw [beq_iff_eq] at hst
  simp only [live, hv, Option.any_some, hasEnded]
  cases hp : v.pc with
  | ended e => rw [hp] at hst; cases hst
  | _ => rfl

theorem global_pays (hx : ∀ d ∈ x.definitions.rows, 1 ≤ x.globalLimit ∧ 1 ≤ d.limits.maxConcurrentRuns)
    {ok : St → Ev → Prop} (h : Run (step x) ok (Executor.init x) s) (hq : NoHandOver s) (hi : s.subs[i]? = some u)
    (hp : u.pc = .waitGlobal) : ∃ j ∈ before s i, hasBoth s j = true := by
  have hserves := (inv_run h (inv_init x)).global
  have hpos := (waits_for_some hx h hi (by rw [hp]; exact fun h => by cases h)).1
  have hfull := hserves.full hq.1 (i := i) (by simp [hi, globalStand, hp, Pc.globalStand])
  obtain ⟨j, hj⟩ := List.getElem?_of_mem (List.count_pos_iff.mp (by omega : 0 < (s.subs.map globalStand).count .holds))
  obtain ⟨v, hv, hst⟩ := stand_get hj
  by_cases hwait : v.pc = .waitAgent
  · -- it holds its permit while its agent is full
    obtain ⟨k, hk⟩ := agent_holder hx h hq hv hwait
    obtain ⟨w, hw, hwst⟩ := stand_get hk
    have hlt := holder_before h hq hi hp hw (both_global (agentStand_holds hwst).2)
    exact ⟨k, mem_before.mpr ⟨hlt, live_of_both (hasBoth_of hk)⟩, hasBoth_of hk⟩
  · have hlt := holder_before h hq hi hp hv hst
    have hboth : hasBoth s j = true := by
      have ha := not_active h v (List.mem_of_getElem? hv)
      simp only [hasBoth, hv, Option.any_some]
      unfold globalStand at hst
      cases hvp : v.pc with
      | active p => exact absurd hvp (ha p)
      | waitAgent => exact absurd hvp hwait
      | waitGlobal => rw [hvp] at hst; cases hst
      | ended e => rw [hvp] at hst; cases hst
      | _ => rfl
    exact ⟨j, mem_before.mpr ⟨hlt, live_of_both hboth⟩, hboth⟩

theorem agent_pays (hx : ∀ d ∈ x.definitions.rows, 1 ≤ x.globalLimit ∧ 1 ≤ d.limits.maxConcurrentRuns) {ok : St → Ev → Prop}
    (h : Run (step x) ok (Executor.init x) s) (hq : NoHandOver s) (hi : s.subs[i]? = some u) (hp : u.pc = .waitAgent) :
    ∃ j ∈ inFront s u.req.agentId i, hasBoth s j = true := by
  obtain ⟨j, hj⟩ := agent_holder hx h hq hi hp
  have hlt := (List.getElem?_eq_some_iff.mp hj).1
  rw [List.length_map] at hlt
  exact ⟨j, Finset.mem_filter.mpr ⟨Finset.mem_range.mpr hlt, Or.inr hj⟩, hasBoth_of hj⟩

/-! ## Nobody gets in front -/

theorem ended_rank : v.pc.rank = 0 ↔ hasEnded v = true := by
  unfold hasEnded
  cases hp : v.pc with
  | active p => cases p <;> simp [Pc.rank]
  | _ => simp [Pc.rank]

theorem live_back (hw : Waited j s t) (hj : j < s.subs.length) (h : live t j = true) : live s j = true := by
  obtain ⟨v, hv⟩ : ∃ v, s.subs[j]? = some v := ⟨_, List.getElem?_eq_getElem hj⟩
  obtain ⟨w, hw, -, hrank⟩ := hw.goes v hv
  simp only [live, hv, hw, Option.any_some, Bool.not_eq_true'] at h ⊢
  by_contra hne
  have hz := ended_rank.mpr (Bool.of_not_eq_false hne)
  rw [hz, Nat.le_zero] at hrank
  rw [ended_rank.mp hrank] at h
  cases h

theorem waits_on (hw : Waited i s t) (hi : s.subs[i]? = some u) (ha : ∀ p, u.pc ≠ .active p) (hv : t.subs[i]? = some v)
    (hp : v.pc = .waitAgent) : v.req = u.req ∧ (u.pc = .waitAgent ∨ u.pc = .waitGlobal) := by
  obtain ⟨w, hw, hreq, hrank⟩ := hw.goes u hi
  cases hv.symm.trans hw
  refine ⟨hreq, ?_⟩
  rw [hp] at hrank
  cases hpc : u.pc with
  | active p => exact absurd hpc (ha p)
  | waitAgent => exact Or.inl rfl
  | waitGlobal => exact Or.inr rfl
  | _ =>
    rw [hpc] at hrank
    simp [Pc.rank] at hrank

theorem before_shrinks (hw : ∀ j, j < s.subs.length → Waited j s t) (hi : i ≤ s.subs.length) : before t i ⊆ before s i := by
  intro j hj
  obtain ⟨hlt, hlive⟩ := mem_before.mp hj
  exact mem_before.mpr ⟨hlt, live_back (hw j (by omega)) (by omega) hlive⟩

/-- Who has both permits has been granted them, and has not ended. -/
theorem granted_run {ok : St → Ev → Prop} (h : Run (step x) ok (Executor.init x) s) :
    ∀ u ∈ s.subs, (u.pc.agentStand = .holds → u.granted = true) ∧
      (u.granted = true → u.pc.agentStand = .holds ∨ hasEnded u = true) := by
  have hm : ∀ u e v, Moves x u e v → ((u.pc.agentStand = .holds → u.granted = true) ∧
      (u.granted = true → u.pc.agentStand = .holds ∨ hasEnded u = true)) →
      (v.pc.agentStand = .holds → v.granted = true) ∧ (v.granted = true → v.pc.agentStand = .holds ∨ hasEnded v = true) := by
    intro u e v hm hu
    have hacq : u.pc.acquiring → u.granted = false := by
      intro hp
      by_contra hg
      rcases hu.2 (Bool.of_not_eq_false hg) with h | h
      · cases hpc : u.pc with
        | active p => cases p <;> simp_all [Pc.acquiring, Pc.agentStand]
        | _ => simp_all [Pc.acquiring, Pc.agentStand]
      · cases hpc : u.pc with
        | active p => simp_all [hasEnded]
        | _ => simp_all [Pc.acquiring, hasEnded]
    cases hm with
    | skip hp hd => exact ⟨fun h => (by cases h), fun _ => Or.inr rfl⟩
    | queueGlobal hp hd =>
      refine ⟨fun h => (by cases h), fun h => ?_⟩
      have := hacq (by rw [hp]; trivial)
      rw [show (u.to .waitGlobal).granted = u.granted from rfl, this] at h
      cases h
    | queueAgent hp hd =>
      refine ⟨fun h => (by cases h), fun h => ?_⟩
      rw [show (u.to .waitAgent).granted = u.granted from rfl, hacq hp] at h
      cases h
    | lock hp hd hr => exact ⟨fun _ => rfl, fun _ => Or.inl rfl⟩
    | start hp hd hr => exact ⟨fun _ => rfl, fun _ => Or.inl rfl⟩
    | locked hp => exact ⟨fun _ => hu.1 (by rw [hp]; rfl), fun _ => Or.inl rfl⟩
    | unlock hp hr => exact ⟨fun _ => hu.1 (by rw [hp]; rfl), fun _ => Or.inl rfl⟩
    | _ => exact ⟨fun h => (by cases h), fun _ => Or.inr rfl⟩
  exact subs_run (fun _ req v _ h => hm _ _ v h ⟨fun h => (by cases h), fun h => (by cases h)⟩)
    (fun _ e u v _ hu h => hm u e v h hu) h

theorem inFront_shrinks (hs : Run (step x) (fun _ _ => True) (Executor.init x) s)
    (ht : Run (step x) (fun _ _ => True) (Executor.init x) t) (hw : ∀ j, j < s.subs.length → Waited j s t)
    (hi : s.subs[i]? = some u) (hp : u.pc = .waitAgent) (hv : t.subs[i]? = some v) (hq : v.pc = .waitAgent)
    (hn : ¬ (t.agentSems u.req.agentId).Handed i) : inFront t u.req.agentId i ⊆ inFront s u.req.agentId i := by
  have hlt := (List.getElem?_eq_some_iff.mp hi).1
  obtain ⟨-, hahead, hgrants⟩ := (hw i hlt).queue u v hi hp hv hq
  have hfrom : ∀ k ∈ (s.agentSems u.req.agentId).ahead i, k ∈ inFront s u.req.agentId i := by
    intro k hk
    have hks := task_lt ((inv_run hs (inv_init x)).agent _) (mem_ahead hk).1
    exact Finset.mem_filter.mpr ⟨Finset.mem_range.mpr hks, Or.inl hk⟩
  intro j hj
  rcases (Finset.mem_filter.mp hj).2 with hj | hj
  · exact hfrom j (hahead j hj)
  · obtain ⟨w, hwt, hst⟩ := stand_get hj
    obtain ⟨hid, hboth⟩ := agentStand_holds hst
    have hgt : hasGrant t u.req.agentId j = true := by
      rw [hasGrant_of hwt, (granted_run ht w (List.mem_of_getElem? hwt)).1 hboth, hid, beq_self_eq_true]
      rfl
    cases hgs : hasGrant s u.req.agentId j with
    | false => exact hfrom j (hgrants hn j hgt hgs)
    | true =>
      -- it had both permits before, and still has
      obtain ⟨w0, hw0, hg0⟩ := (Option.any_eq_true _ _).mp hgs
      rw [Bool.and_eq_true, beq_iff_eq] at hg0
      have hjs := (List.getElem?_eq_some_iff.mp hw0).1
      obtain ⟨w', hw', -, hrank⟩ := (hw j hjs).goes w0 hw0
      cases hwt.symm.trans hw'
      rcases (granted_run hs w0 (List.mem_of_getElem? hw0)).2 hg0.1 with hst0 | hend
      · refine Finset.mem_filter.mpr ⟨Finset.mem_range.mpr hjs, Or.inr ?_⟩
        rw [List.getElem?_map, hw0, Option.map_some, agentStand_own hg0.2, hst0]
      · rw [ended_rank.mpr hend, Nat.le_zero] at hrank
        have hended := ended_rank.mp hrank
        unfold hasEnded at hended
        cases hpc : w.pc with
        | ended e => rw [hpc] at hboth; cases hboth
        | _ => rw [hpc] at hended; cases hended

/-! ## What a wait is paid with -/

/-- What a submit has waited, and what those in front of it have left. -/
structure Budget (x : RunExecutor) (d : Nat) (s : Timed) (i : Nat) (u : Sub) : Prop where
  total : s.waited i ≤ d * (s.ahead i + (x.globalLimit - 1))
  global : u.pc = .waitGlobal → s.waited i + work d s.age (before s.executor i) ≤ d * s.ahead i
  agent : u.pc = .waitAgent → ¬ (s.executor.agentSems u.req.agentId).Handed i →
    s.waited i + work d s.age (inFront s.executor u.req.agentId i) ≤ d * (s.ahead i + (x.globalLimit - 1))

structure Bounded (x : RunExecutor) (d : Nat) (s : Timed) : Prop where
  reach : Run (step x) (fun _ _ => True) (Executor.init x) s.executor
  new : ∀ i, s.executor.subs.length ≤ i → s.waited i = 0
  budget : ∀ i u, s.executor.subs[i]? = some u → Budget x d s i u

variable {d : Nat} {a b : Timed} {e : Ev}

theorem le_share (n m : Nat) : d * n ≤ d * (n + m) := Nat.mul_le_mul_left d (Nat.le_add_right n m)

/-- A tick that passes while a submit waits is a tick of somebody in front of it. -/
theorem budget_tick (hx : ∀ definition ∈ x.definitions.rows, 1 ≤ x.globalLimit ∧ 1 ≤ definition.limits.maxConcurrentRuns)
    (hreach : Run (step x) (fun _ _ => True) (Executor.init x) a.executor) (hok : Within d a .tick)
    (hi : a.executor.subs[i]? = some u) (h : Budget x d a i u) (hb : Timed.step x a .tick = some b) : Budget x d b i u := by
  cases hb
  obtain ⟨hq, hyoung⟩ := hok
  have hpays : ∀ {F : Finset Nat}, (∃ j ∈ F, hasBoth a.executor j = true) →
      work d (fun j => a.age j + (hasBoth a.executor j).toNat) F < work d a.age F := by
    rintro F ⟨j, hj, hboth⟩
    refine work_tick (fun k => Nat.le_add_right _ _) hj (hyoung j hboth) ?_
    simp [hboth]
  cases hp : u.pc with
  | waitGlobal =>
    have hin : inQueue a.executor i = true := by simp [inQueue, hi, waiting, hp]
    have hless := hpays (global_pays hx hreach hq hi hp)
    have hold := h.global hp
    have hglobal : a.waited i + 1 + work d (fun j => a.age j + (hasBoth a.executor j).toNat) (before a.executor i) ≤
        d * a.ahead i := by omega
    refine ⟨?_, fun _ => ?_, fun e => (by rw [hp] at e; cases e)⟩
    · have hshare := le_share (d := d) (a.ahead i) (x.globalLimit - 1)
      simp only [hin, Bool.toNat_true]
      omega
    · simpa only [hin, Bool.toNat_true] using hglobal
  | waitAgent =>
    have hin : inQueue a.executor i = true := by simp [inQueue, hi, waiting, hp]
    have hless := hpays (agent_pays hx hreach hq hi hp)
    have hnot : ¬ (a.executor.agentSems u.req.agentId).Handed i := by
      rintro ⟨w, hw, -, hwoken⟩
      rw [hq.2 _ w hw] at hwoken
      cases hwoken
    have hold := h.agent hp hnot
    refine ⟨?_, fun e => (by rw [hp] at e; cases e), fun _ _ => ?_⟩
    · simp only [hin, Bool.toNat_true]
      omega
    · simp only [hin, Bool.toNat_true]
      omega
  | _ =>
    have hin : inQueue a.executor i = false := by simp [inQueue, hi, waiting, hp]
    refine ⟨?_, fun e => (by rw [hp] at e; cases e), fun e => (by rw [hp] at e; cases e)⟩
    simp only [hin, Bool.toNat_false, Nat.add_zero]
    exact h.total

theorem noteAhead_old (hi : i < a.executor.subs.length) : noteAhead a e i = a.ahead i := by
  cases e with
  | submit req => exact Function.update_of_ne (Nat.ne_of_lt hi) _ _
  | _ => rfl

/-- A submit that enters its agent's queue finds few in front of it. -/
theorem budget_enters {age waited ahead : Nat → Nat} (hreach : Run (step x) (fun _ _ => True) (Executor.init x) t)
    (hi : t.subs[i]? = some u) (hp : u.pc = .waitAgent) (hwaited : waited i ≤ d * ahead i) :
    waited i + work d age (inFront t u.req.agentId i) ≤ d * (ahead i + (x.globalLimit - 1)) := by
  have hcard := inFront_card (inv_run hreach (inv_init x)) hi hp
  have hwork : work d age (inFront t u.req.agentId i) ≤ d * (inFront t u.req.agentId i).card := work_le
  have hless := Nat.mul_le_mul_left d hcard
  rw [Nat.mul_add]
  omega

/-- A step takes no time, and nobody gets in front of a submit. -/
theorem budget_old (hs : Bounded x d a) (hreach : Run (step x) (fun _ _ => True) (Executor.init x) t)
    (h : step x a.executor e = some t) (hi : i < a.executor.subs.length) (hv : t.subs[i]? = some v) :
    Budget x d { a with executor := t, ahead := noteAhead a e } i v := by
  have hw : ∀ j, j < a.executor.subs.length → Waited j a.executor t := fun j hj =>
    waited_step (fronts_run hs.reach).1 (fronts_run hs.reach).2 h j hj
  obtain ⟨u, hu⟩ : ∃ u, a.executor.subs[i]? = some u := ⟨_, List.getElem?_eq_getElem hi⟩
  have hold := hs.budget i u hu
  have hnote : noteAhead a e i = a.ahead i := noteAhead_old hi
  refine ⟨?_, fun hp => ?_, fun hp hn => ?_⟩
  · show a.waited i ≤ d * (noteAhead a e i + _)
    rw [hnote]
    exact hold.total
  · show a.waited i + work d a.age (before t i) ≤ d * noteAhead a e i
    have hsame : u.pc = .waitGlobal := by
      rcases step_move h with ⟨req, -, ht⟩ | ⟨k, w, -, hk, hm⟩
      · obtain ⟨n, -, hsubs⟩ := submit_subs (x := x) req a.executor
        rw [ht, hsubs, List.getElem?_append_left hi] at hv
        cases hu.symm.trans hv
        exact hp
      · obtain ⟨n, -, hsubs⟩ := move_subs hm
        have hik : i ≠ k := by
          intro e
          subst e
          exact move_leaves hm hk hv hp
        rw [hsubs, List.getElem?_set_ne (Ne.symm hik)] at hv
        cases hu.symm.trans hv
        exact hp
    have hmono : work d a.age (before t i) ≤ work d a.age (before a.executor i) :=
      work_mono (before_shrinks hw (Nat.le_of_lt hi))
    have hglobal := hold.global hsame
    rw [hnote]
    omega
  · show a.waited i + work d a.age (inFront t v.req.agentId i) ≤ d * (noteAhead a e i + _)
    rw [hnote]
    obtain ⟨hreq, hq⟩ := waits_on (hw i hi) hu (not_active hs.reach u (List.mem_of_getElem? hu)) hv hp
    rcases hq with hq | hq
    · rw [hreq] at hn ⊢
      have hhanded : ¬ (a.executor.agentSems u.req.agentId).Handed i := fun hh => hn (((hw i hi).queue u v hu hq hv hp).1 hh)
      have hmono : work d a.age (inFront t u.req.agentId i) ≤ work d a.age (inFront a.executor u.req.agentId i) :=
        work_mono (inFront_shrinks hs.reach hreach hw hu hq hv hp hn)
      have hagent := hold.agent hq hhanded
      omega
    · have hglobal := hold.global hq
      exact budget_enters hreach hv hp (by omega)

/-- A new submit has not waited. -/
theorem budget_new {req : RunRequest} (hs : Bounded x d a) (hreach : Run (step x) (fun _ _ => True) (Executor.init x) t)
    (h : step x a.executor (.submit req) = some t) (hv : t.subs[a.executor.subs.length]? = some v) :
    Budget x d { a with executor := t, ahead := noteAhead a (.submit req) } a.executor.subs.length v := by
  have hw : ∀ j, j < a.executor.subs.length → Waited j a.executor t := fun j hj =>
    waited_step (fronts_run hs.reach).1 (fronts_run hs.reach).2 h j hj
  have hzero : a.waited a.executor.subs.length = 0 := hs.new _ (Nat.le_refl _)
  have hnote : noteAhead a (.submit req) a.executor.subs.length = (before a.executor a.executor.subs.length).card :=
    Function.update_self ..
  refine ⟨?_, fun hp => ?_, fun hp _ => ?_⟩
  · show a.waited _ ≤ _
    rw [hzero]
    exact Nat.zero_le _
  · show a.waited _ + work d a.age (before t _) ≤ d * noteAhead a (.submit req) _
    have hmono : work d a.age (before t a.executor.subs.length) ≤ work d a.age (before a.executor a.executor.subs.length) :=
      work_mono (before_shrinks hw (Nat.le_refl _))
    have hwork : work d a.age (before a.executor a.executor.subs.length) ≤
        d * (before a.executor a.executor.subs.length).card := work_le
    rw [hzero, hnote]
    omega
  · show a.waited _ + work d a.age (inFront t v.req.agentId _) ≤ d * (noteAhead a (.submit req) _ + _)
    exact budget_enters hreach hv hp (by rw [hzero]; exact Nat.zero_le _)

theorem bounded_step (hx : ∀ definition ∈ x.definitions.rows, 1 ≤ x.globalLimit ∧ 1 ≤ definition.limits.maxConcurrentRuns)
    (a : Timed) (c : Clocked) (b : Timed) (hs : Bounded x d a) (hok : Within d a c) (h : Timed.step x a c = some b) :
    Bounded x d b := by
  cases c with
  | tick =>
    refine ⟨?_, fun i hi => ?_, fun i u hu => ?_⟩
    · cases h
      exact hs.reach
    · cases h
      have hin : inQueue a.executor i = false := by simp [inQueue, List.getElem?_eq_none hi]
      show a.waited i + (inQueue a.executor i).toNat = 0
      rw [hin, hs.new i hi]
      rfl
    · have hold : a.executor.subs[i]? = some u := by
        cases h
        exact hu
      exact budget_tick hx hs.reach hok hold (hs.budget i u hold) h
  | step e =>
    obtain ⟨t, ht, e'⟩ := Option.map_eq_some_iff.mp h
    subst e'
    have hreach : Run (step x) (fun _ _ => True) (Executor.init x) t := hs.reach.tail e trivial ht
    refine ⟨hreach, fun i hi => hs.new i ?_, fun i v hv => ?_⟩
    · rcases step_subs ht with ⟨req, v, -, -, e'⟩ | ⟨k, u, v, -, -, -, e'⟩
      · rw [show ({ a with executor := t, ahead := noteAhead a e } : Timed).executor.subs = _ from e', List.length_append] at hi
        omega
      · rw [show ({ a with executor := t, ahead := noteAhead a e } : Timed).executor.subs = _ from e', List.length_set] at hi
        exact hi
    · by_cases hi : i < a.executor.subs.length
      · exact budget_old hs hreach ht hi hv
      · rcases step_subs ht with ⟨req, w, he, -, hsubs⟩ | ⟨k, u, w, -, -, -, hsubs⟩
        · have hlt := (List.getElem?_eq_some_iff.mp hv).1
          rw [show ({ a with executor := t, ahead := noteAhead a e } : Timed).executor.subs = _ from hsubs, List.length_append,
            List.length_singleton] at hlt
          have hlast : i = a.executor.subs.length := by omega
          subst he hlast
          exact budget_new hs hreach ht hv
        · have hlt := (List.getElem?_eq_some_iff.mp hv).1
          rw [show ({ a with executor := t, ahead := noteAhead a e } : Timed).executor.subs = _ from hsubs, List.length_set] at hlt
          exact absurd hlt hi

theorem bounded_init (x : RunExecutor) (d : Nat) : Bounded x d (Timed.init x) :=
  ⟨.refl _, fun _ _ => rfl, fun i u hu => (by cases hu)⟩

theorem bounded_run (hx : ∀ definition ∈ x.definitions.rows, 1 ≤ x.globalLimit ∧ 1 ≤ definition.limits.maxConcurrentRuns)
    {s : Timed} (h : Run (Timed.step x) (Within d) (Timed.init x) s) : Bounded x d s :=
  Run.invariant (I := Bounded x d) (fun a c b hs hok h => bounded_step hx a c b hs hok h) h (bounded_init x d)

theorem Bounded.waited_le (hs : Bounded x d a) (i : Nat) : a.waited i ≤ d * (a.ahead i + (x.globalLimit - 1)) := by
  by_cases hi : i < a.executor.subs.length
  · exact (hs.budget i _ (List.getElem?_eq_getElem hi)).total
  · rw [hs.new i (by omega)]
    exact Nat.zero_le _

/-- No submit waits longer than one `d` for each submit that it found under way and for each
    other global permit. -/
theorem waits_at_most (hG : 1 ≤ x.globalLimit)
    (hd : ∀ definition ∈ x.definitions.rows, 1 ≤ definition.limits.maxConcurrentRuns) {s : Timed}
    (h : Run (Timed.step x) (Within d) (Timed.init x) s) (i : Nat) :
    s.waited i ≤ d * (s.ahead i + (x.globalLimit - 1)) :=
  (bounded_run (fun definition hm => ⟨hG, hd definition hm⟩) h).waited_le i

/-! One permit, and runs of two ticks: the second submit waits for the whole first run. -/

def onePermit : RunExecutor := { oneAgent with globalLimit := 1, redis := false }

/-- What `Within` asks for, where only this agent has a queue. -/
def mayTick (d : Nat) (s : Timed) : Clocked → Bool
  | .tick => oneInside s.executor &&
      (List.range s.executor.subs.length).all fun j => !hasBoth s.executor j || decide (s.age j < d)
  | .step _ => true

theorem within_of (hs : Bounded x d a) {c : Clocked} (h : mayTick d a c = true) : Within d a c := by
  cases c with
  | step e => trivial
  | tick =>
    simp only [mayTick, Bool.and_eq_true, List.all_eq_true, List.mem_range, Bool.or_eq_true, Bool.not_eq_true',
      decide_eq_true_iff] at h
    refine ⟨noHandOver_of_oneInside hs.reach h.1, fun j hj => ?_⟩
    obtain ⟨v, hv, -⟩ := (Option.any_eq_true _ _).mp hj
    rcases h.2 j (List.getElem?_eq_some_iff.mp hv).1 with hno | hyoung
    · rw [hno] at hj
      cases hj
    · exact hyoung

theorem waits_at_most_whole_run :
    ∃ s, Run (Timed.step onePermit) (Within 2) (Timed.init onePermit) s ∧ s.ahead 1 = 1 ∧ s.waited 1 = 2 ∧
      s.waited 1 ≤ 2 * (s.ahead 1 + (onePermit.globalLimit - 1)) := by
  obtain ⟨s, hr, hp⟩ := Run.exists_of_exec (Timed.step onePermit) (fun s c => mayTick 2 s c = true) (Timed.init onePermit)
    [.step scheduled, .step scheduled, .tick, .tick, .step (.runEnd 0 (.report true))]
    (fun s => s.ahead 1 == 1 && s.waited 1 == 2) (by decide)
  rw [Bool.and_eq_true, beq_iff_eq, beq_iff_eq] at hp
  have hkeep : ∀ a c b, Bounded onePermit 2 a → mayTick 2 a c = true → Timed.step onePermit a c = some b →
      Bounded onePermit 2 b := fun a c b hs hok h =>
    bounded_step (by decide) a c b hs (within_of hs hok) h
  have hrun : Run (Timed.step onePermit) (Within 2) (Timed.init onePermit) s :=
    Run.simulate (I := Bounded onePermit 2) id hkeep
      (fun a c b hs hok h => Run.single c (within_of hs hok) h) hr (bounded_init onePermit 2)
  exact ⟨s, hrun, hp.1, hp.2, waits_at_most (by decide) (by decide) hrun 1⟩

end SagaAgents.Triggers.Executor
