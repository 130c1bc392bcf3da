/-
  SagaAgents.Triggers.LockTtl — for how long the advisory lock keeps a submission out.

  The processes of `Cluster`, over any run: processes may stop taking steps at any point
  (they crash, or Redis cannot be reached), and then their scripts are never executed.

  Proved: `refused_iff_held`. A SET is refused exactly while another submission of the agent
  has set the key, less than its `timeout_seconds` ago, and has not given it back. So what a
  process that crashed has locked is free again after the agent's timeout.
-/

import SagaAgents.Triggers.Drops

namespace SagaAgents.Triggers.Cluster

open Lib
open Executor (RunExecutor RunRequest Sub Reply)

variable {T : Type} {xs : List RunExecutor} {s t : St T}

theorem sub_init (xs : List RunExecutor) (now : T) (k : Token) : (init xs now).sub k = none := by
  cases hk : (init xs now).sub k with
  | none => rfl
  | some u =>
    obtain ⟨st, hp, hi⟩ := Option.bind_eq_some_iff.mp hk
    obtain ⟨x, -, e⟩ := List.mem_map.mp (List.mem_of_getElem? hp)
    subst e
    cases hi

/-- With Redis a run is entered on a truthy reply only. -/
theorem moves_entered {x : RunExecutor} (hx : x.redis = true) {e : Executor.Ev} {u v : Sub} (h : Executor.Moves x u e v)
    (hv : v.entered = true) : u.entered = true ∨ ∃ i, e = .setReply i .truthy := by
  cases h with
  | start _ _ hr =>
    rw [hx] at hr
    cases hr
  | locked hp => exact Or.inr ⟨_, rfl⟩
  | _ => exact Or.inl hv

variable [CommRing T] [LinearOrder T]

/-- What the server's keys say of the submissions, and these of the keys. -/
structure Locks (xs : List RunExecutor) (s : St T) : Prop where
  unknown : ∀ k, s.sub k = none → (s.tasks k).set = none
  entered : ∀ k u, s.sub k = some u → u.entered = true → (s.tasks k).set ≠ none
  kept : ∀ k, (s.tasks k).set = none → (s.tasks k).evaled = false
  /-- A live key was set by a submission of its agent that has not given it back. -/
  stored : ∀ key k v, s.redis key = some ⟨k, v⟩ → s.now < v → ∃ u, s.sub k = some u ∧ key = lockKey u.req.agentId ∧
    (s.tasks k).set = some (.truthy, v) ∧ (s.tasks k).evaled = false
  owns : ∀ k u v, s.sub k = some u → (s.tasks k).set = some (.truthy, v) → (s.tasks k).evaled = false → s.now < v →
    Lease.Holds s.redis (lockKey u.req.agentId) k v
  ttl : ∀ k u v, s.sub k = some u → (s.tasks k).set = some (.truthy, v) →
    ∃ x, xs[k.1]? = some x ∧ v ≤ s.now + (timeoutSeconds x u.req.agentId : T)

theorem locks_init (xs : List RunExecutor) (now : T) : Locks xs (init xs now) := by
  have hsub : ∀ k u, (init xs now).sub k = some u → False := by
    intro k u hk
    rw [sub_init] at hk
    cases hk
  exact ⟨fun _ _ => rfl, fun k u hk => (hsub k u hk).elim, fun _ _ => rfl, fun key k v hk => (by cases hk),
    fun k u v hk => (hsub k u hk).elim, fun k u v hk => (hsub k u hk).elim⟩

/-- The submissions stay what they are, and a new one has not sent anything. -/
theorem locks_proc {p : Nat} {x : RunExecutor} {st st' : Executor.St} {e : Executor.Ev} (hx : x.redis = true)
    (hs : Locks xs s) (hp : s.procs[p]? = some st) (ha : answered s p e = true) (h : Executor.step x st e = some st') :
    Locks xs { s with procs := s.procs.set p st' } := by
  obtain ⟨i, n, hn, hrest, hcase⟩ := subAt_step hp h
  have hreq : ∀ k u, s.sub k = some u → ∃ w, subAt (s.procs.set p st') k = some w ∧ w.req = u.req := by
    intro k u hk
    by_cases e : k = (p, i)
    · subst e
      rcases hcase with ⟨-, -, hno, -⟩ | ⟨u', -, hu, hm⟩
      · cases hno.symm.trans hk
      · cases hu.symm.trans hk
        exact ⟨n, hn, moves_req hm⟩
    · exact ⟨u, (hrest k e).trans hk, rfl⟩
  have hback : ∀ k w v, subAt (s.procs.set p st') k = some w → (s.tasks k).set = some v →
      ∃ u, s.sub k = some u ∧ w.req = u.req := by
    intro k w v hk hset
    cases hold : s.sub k with
    | none =>
      rw [hs.unknown k hold] at hset
      cases hset
    | some u =>
      obtain ⟨w', hw', hr⟩ := hreq k u hold
      cases hk.symm.trans hw'
      exact ⟨u, rfl, hr⟩
  refine ⟨fun k hk => ?_, fun k w hk hin => ?_, hs.kept, fun key k v hk hn => ?_, fun k w v hk hset he hn => ?_,
    fun k w v hk hset => ?_⟩
  · cases hold : s.sub k with
    | none => exact hs.unknown k hold
    | some u =>
      obtain ⟨w, hw, -⟩ := hreq k u hold
      cases hk.symm.trans hw
  · rcases subAt_after hn hrest hk with ⟨e₁, e₂⟩ | ⟨-, hold⟩
    · subst e₁ e₂
      rcases hcase with ⟨req, he, -, hm⟩ | ⟨u, he, hu, hm⟩
      · subst he
        rcases moves_entered hx hm hin with h | ⟨j, e⟩
        · cases h
        · cases e
      · rcases moves_entered hx hm hin with h | ⟨j, e⟩
        · exact hs.entered (p, i) u hu h
        · subst e
          cases he
          obtain ⟨a, hset, -⟩ := (Option.any_eq_true _ _).mp ha
          show (s.tasks (p, i)).set ≠ none
          rw [hset]
          exact Option.some_ne_none a
    · exact hs.entered k w hold hin
  · obtain ⟨u, hu, hkey, hset, he⟩ := hs.stored key k v hk hn
    obtain ⟨w, hw, hr⟩ := hreq k u hu
    exact ⟨w, hw, by rw [hr]; exact hkey, hset, he⟩
  · obtain ⟨u, hu, hr⟩ := hback k w _ hk hset
    rw [hr]
    exact hs.owns k u v hu hset he hn
  · obtain ⟨u, hu, hr⟩ := hback k w _ hk hset
    rw [hr]
    exact hs.ttl k u v hu hset

/-- The server does something for submission `k`: the keys of the others stay. -/
theorem locks_task {k : Token} {u : Sub} {task : Task T} {redis : Lease.Store String Token T} (hs : Locks xs s)
    (hk : s.sub k = some u) (hgrow : (s.tasks k).set ≠ none → task.set ≠ none)
    (hkept : task.set = none → task.evaled = false)
    (hstored : ∀ key k' v, redis key = some ⟨k', v⟩ → s.now < v → (k' ≠ k ∧ s.redis key = some ⟨k', v⟩) ∨
      (k' = k ∧ key = lockKey u.req.agentId ∧ task.set = some (.truthy, v) ∧ task.evaled = false))
    (hothers : ∀ key k' v, k' ≠ k → s.now < v → Lease.Holds s.redis key k' v → Lease.Holds redis key k' v)
    (hown : ∀ v, task.set = some (.truthy, v) → task.evaled = false → s.now < v →
      Lease.Holds redis (lockKey u.req.agentId) k v)
    (httl : ∀ v, task.set = some (.truthy, v) → ∃ x, xs[k.1]? = some x ∧ v ≤ s.now + (timeoutSeconds x u.req.agentId : T)) :
    Locks xs { s.setTask k task with redis := redis } := by
  have htask : ∀ k', k' ≠ k → (s.setTask k task).tasks k' = s.tasks k' := fun k' hne => setTask_ne s task hne
  have hsame : (s.setTask k task).tasks k = task := setTask_same s k task
  refine ⟨fun k' hk' => ?_, fun k' u' hk' hin => ?_, fun k' hk' => ?_, fun key k' v hk' hn => ?_,
    fun k' u' v hk' hset he hn => ?_, fun k' u' v hk' hset => ?_⟩
  · have hne : k' ≠ k := by
      intro e
      subst e
      cases hk.symm.trans hk'
    show ((s.setTask k task).tasks k').set = none
    rw [htask k' hne]
    exact hs.unknown k' hk'
  · show ((s.setTask k task).tasks k').set ≠ none
    by_cases e : k' = k
    · subst e
      rw [hsame]
      exact hgrow (hs.entered k' u' hk' hin)
    · rw [htask k' e]
      exact hs.entered k' u' hk' hin
  · have hk' : ((s.setTask k task).tasks k').set = none := hk'
    show ((s.setTask k task).tasks k').evaled = false
    by_cases e : k' = k
    · subst e
      rw [hsame] at hk' ⊢
      exact hkept hk'
    · rw [htask k' e] at hk' ⊢
      exact hs.kept k' hk'
  · rcases hstored key k' v hk' hn with ⟨hne, hold⟩ | ⟨e, hkey, hset, he⟩
    · obtain ⟨u', hu', hkey, hset, he⟩ := hs.stored key k' v hold hn
      refine ⟨u', hu', hkey, ?_⟩
      show ((s.setTask k task).tasks k').set = _ ∧ ((s.setTask k task).tasks k').evaled = _
      rw [htask k' hne]
      exact ⟨hset, he⟩
    · subst e
      refine ⟨u, hk, hkey, ?_⟩
      show ((s.setTask k' task).tasks k').set = _ ∧ ((s.setTask k' task).tasks k').evaled = _
      rw [hsame]
      exact ⟨hset, he⟩
  · have hset : ((s.setTask k task).tasks k').set = some (.truthy, v) := hset
    have he : ((s.setTask k task).tasks k').evaled = false := he
    by_cases e : k' = k
    · subst e
      cases hk.symm.trans hk'
      rw [hsame] at hset he
      exact hown v hset he hn
    · rw [htask k' e] at hset he
      exact hothers _ k' v e hn (hs.owns k' u' v hk' hset he hn)
  · have hset : ((s.setTask k task).tasks k').set = some (.truthy, v) := hset
    by_cases e : k' = k
    · subst e
      cases hk.symm.trans hk'
      rw [hsame] at hset
      exact httl v hset
    · rw [htask k' e] at hset
      exact hs.ttl k' u' v hk' hset

/-- The server executes a SET. -/
theorem locks_redisSet {k : Token} {x : RunExecutor} {u : Sub} (hs : Locks xs s) (hx : xs[k.1]? = some x)
    (hk : s.sub k = some u) (hset : (s.tasks k).set = none) :
    Locks xs (execSet s k u.req.agentId (timeoutSeconds x u.req.agentId)) := by
  have hother : ∀ key k' v, s.redis key = some ⟨k', v⟩ → s.now < v → k' ≠ k := by
    intro key k' v hkey hn e
    subst e
    obtain ⟨-, -, -, h, -⟩ := hs.stored key k' v hkey hn
    rw [hset] at h
    cases h
  unfold execSet
  split
  · exact locks_task hs hk (fun h => absurd hset h) (fun h => (by cases h))
      (fun key k' v h hn => Or.inl ⟨hother key k' v h hn, h⟩) (fun _ _ _ _ _ h => h) (fun v h => (by cases h))
      (fun v h => (by cases h))
  · obtain ⟨b, redis, hr⟩ : ∃ b redis, Lease.setNx s.redis s.now (lockKey u.req.agentId) k
        (s.now + (timeoutSeconds x u.req.agentId : T)) = (b, redis) := ⟨_, _, rfl⟩
    simp only [hr]
    refine locks_task hs hk (fun h => absurd hset h) (fun h => (by cases h)) (fun key k' v h hn => ?_)
      (fun key k' v _ hn h => Lease.holds_setNx h hn hr) (fun v h _ _ => ?_) (fun v h => ?_)
    · simp only [Lease.setNx] at hr
      split at hr
      · cases hr
        exact Or.inl ⟨hother key k' v h hn, h⟩
      · cases hr
        by_cases e : key = lockKey u.req.agentId
        · subst e
          rw [Function.update_self] at h
          cases h
          exact Or.inr ⟨rfl, rfl, rfl, hs.kept _ hset⟩
        · rw [Function.update_of_ne e] at h
          exact Or.inl ⟨hother key k' v h hn, h⟩
    · cases b with
      | true =>
        cases h
        exact Lease.setNx_holds hr
      | false => cases h
    · cases b with
      | true =>
        cases h
        exact ⟨x, hx, le_refl _⟩
      | false => cases h

/-- The server executes a script. -/
theorem locks_redisEval {k : Token} {u : Sub} (hs : Locks xs s) (hk : s.sub k = some u) (hset : (s.tasks k).set ≠ none) :
    Locks xs { s.setTask k { s.tasks k with evaled := true } with
               redis := (Lease.compareAndDelete s.redis s.now (lockKey u.req.agentId) k).2 } := by
  refine locks_task hs hk (fun h => h) (fun h => absurd h hset) (fun key k' v h hn => Or.inl ?_)
    (fun key k' v hne _ h => Lease.holds_compareAndDelete h hne (Prod.ext rfl rfl : _ = (_, _))) (fun _ _ he => (by cases he))
    (fun v h => hs.ttl k u v hk h)
  by_cases hlive : Lease.live s.redis s.now (lockKey u.req.agentId) = some k
  · simp only [Lease.compareAndDelete, hlive, if_true] at h
    have hne : key ≠ lockKey u.req.agentId := by
      intro e
      rw [e, Function.update_self] at h
      cases h
    rw [Function.update_of_ne hne] at h
    refine ⟨fun e => ?_, h⟩
    subst e
    obtain ⟨u', hu', hkey, -⟩ := hs.stored key k' v h hn
    cases hk.symm.trans hu'
    exact hne hkey
  · simp only [Lease.compareAndDelete, hlive, if_false] at h
    refine ⟨fun e => ?_, h⟩
    subst e
    obtain ⟨u', hu', hkey, -⟩ := hs.stored key k' v h hn
    cases hk.symm.trans hu'
    subst hkey
    exact hlive (Lease.holds_live h hn)

/-- Scripts are sent by submissions that have entered their run. -/
theorem evaled_entered {k : Token} (h : step xs s (.redisEval k) = some t) : ∃ u, s.sub k = some u ∧ u.entered = true := by
  obtain ⟨u, hk, h⟩ := Option.bind_eq_some_iff.mp h
  refine ⟨u, hk, ?_⟩
  by_cases hin : u.entered = true
  · exact hin
  · have hno : u.entered = false := by simpa using hin
    simp only [hno, Bool.false_and] at h
    split at h <;> cases h

section

variable [IsStrictOrderedRing T]

theorem locks_tick (hs : Locks xs s) {now : T} (hn : s.now ≤ now) : Locks xs { s with now := now } := by
  refine ⟨hs.unknown, hs.entered, hs.kept, fun key k v hk h => hs.stored key k v hk (lt_of_le_of_lt hn h),
    fun k u v hk hset he h => hs.owns k u v hk hset he (lt_of_le_of_lt hn h), fun k u v hk hset => ?_⟩
  obtain ⟨x, hx, hle⟩ := hs.ttl k u v hk hset
  exact ⟨x, hx, hle.trans (add_le_add_left hn _)⟩

theorem locks_step (hx : ∀ x ∈ xs, x.redis = true) (s : St T) (e : Ev T) (t : St T) (hs : Locks xs s) (_ : True)
    (h : step xs s e = some t) : Locks xs t := by
  cases step_cases h with
  | proc hxp hp ha hst => exact locks_proc (hx _ (List.mem_of_getElem? hxp)) hs hp ha hst
  | redisSet hxk hk _ hn => exact locks_redisSet hs hxk hk hn
  | redisEval hk hp =>
    obtain ⟨u, hu, hin⟩ := evaled_entered h
    cases hk.symm.trans hu
    exact locks_redisEval hs hk (hs.entered _ _ hk hin)
  | @phase k u ph hk _ =>
    refine locks_task hs hk (fun h => h) (fun h => hs.kept _ h) (fun key k' v hl hn => ?_) (fun _ _ _ _ _ h => h)
      (fun v hset he hn => hs.owns _ _ v hk hset he hn) (fun v hset => hs.ttl _ _ v hk hset)
    by_cases hne : k' = k
    · subst hne
      obtain ⟨u', hu', hkey, hset, he⟩ := hs.stored key k' v hl hn
      cases hk.symm.trans hu'
      exact Or.inr ⟨rfl, hkey, hset, he⟩
    · exact Or.inl ⟨hne, hl⟩
  | tick hn => exact locks_tick hs hn

/-! ## Who keeps a SET out -/

/-- Submission `k` has set the agent's key, less than its `timeout_seconds` ago, and has
    not given it back. -/
def Keeps (xs : List RunExecutor) (s : St T) (k : Token) (agentId : String) : Prop :=
  ∃ x u v, xs[k.1]? = some x ∧ s.sub k = some u ∧ u.req.agentId = agentId ∧ (s.tasks k).set = some (.truthy, v) ∧
    (s.tasks k).evaled = false ∧ v - (timeoutSeconds x agentId : T) ≤ s.now ∧ s.now < v

omit [IsStrictOrderedRing T] in
theorem keeps_live (hs : Locks xs s) {k : Token} {agentId : String} (h : Keeps xs s k agentId) :
    Lease.live s.redis s.now (lockKey agentId) = some k := by
  obtain ⟨x, u, v, -, hu, hid, hset, he, -, hn⟩ := h
  have hown := hs.owns k u v hu hset he hn
  rw [hid] at hown
  exact Lease.holds_live hown hn

theorem live_keeps (hs : Locks xs s) {k : Token} {agentId : String}
    (h : Lease.live s.redis s.now (lockKey agentId) = some k) : Keeps xs s k agentId := by
  obtain ⟨l, hl, h⟩ := Option.bind_eq_some_iff.mp h
  by_cases hn : s.now < l.expires
  · rw [if_pos hn] at h
    cases h
    obtain ⟨u, hu, hkey, hset, he⟩ := hs.stored _ l.token l.expires hl hn
    have hid : u.req.agentId = agentId := (lockKey_inj hkey).symm
    obtain ⟨x, hx, hle⟩ := hs.ttl _ u _ hu hset
    rw [hid] at hle
    exact ⟨x, u, l.expires, hx, hu, hid, hset, he, sub_le_iff_le_add.mpr hle, hn⟩
  · rw [if_neg hn] at h
    cases h

omit [IsStrictOrderedRing T] in
/-- The reply of a SET, by the key's state when the server executes it. -/
theorem execSet_refused {k : Token} {agentId : String} {ttl : Int} (ht : 0 < ttl) :
    (∃ v, ((execSet s k agentId ttl).tasks k).set = some (.falsy, v)) ↔
      (Lease.live s.redis s.now (lockKey agentId)).isSome = true := by
  have hle : ¬ ttl ≤ 0 := by omega
  unfold execSet
  rw [if_neg hle]
  by_cases hl : (Lease.live s.redis s.now (lockKey agentId)).isSome = true
  · simp [Lease.setNx, hl]
  · simp [Lease.setNx, hl]

/-- In every run the SET of a submission is refused exactly while a submission of its
    agent keeps the key: the key of one that never gives it back is free again after the
    `timeout_seconds` of that agent. -/
theorem refused_iff_held (hx : ∀ x ∈ xs, x.redis = true) {now : T} (hr : Run (step xs) (fun _ _ => True) (init xs now) s)
    {k : Token} {x : RunExecutor} {u : Sub} (hxk : xs[k.1]? = some x) (hu : s.sub k = some u)
    (ht : 0 < timeoutSeconds x u.req.agentId) (h : step xs s (.redisSet k) = some t) :
    (∃ v, (t.tasks k).set = some (.falsy, v)) ↔ ∃ k', Keeps xs s k' u.req.agentId := by
  have hs : Locks xs s := hr.invariant (locks_step hx) (locks_init xs now)
  cases step_cases h with
  | redisSet hxk' hu' hg hn =>
    cases hu.symm.trans hu'
    cases hxk.symm.trans hxk'
    rw [execSet_refused ht]
    constructor
    · intro hl
      obtain ⟨k', hk'⟩ := Option.isSome_iff_exists.mp hl
      exact ⟨k', live_keeps hs hk'⟩
    · intro ⟨k', hk'⟩
      rw [keeps_live hs hk']
      rfl

end

/-! Of two processes with one agent the first crashes inside its run. -/

/-- The second process asks for the key at `now`. -/
def asksAt (now : Int) : List (Ev Int) :=
  entersRun 0 ++ [.tick now, .proc 1 Executor.scheduled]

/-- A second before the 900 are over its SET is refused: the first one's submission keeps
    the key. -/
theorem refused_iff_held_crashed :
    ∃ s t u, Run (step processes) (fun _ _ => True) (init processes (0 : Int)) s ∧ s.now = 899 ∧ s.sub (1, 0) = some u ∧
      step processes s (.redisSet (1, 0)) = some t ∧ (∃ v, (t.tasks (1, 0)).set = some (.falsy, v)) ∧
      ∃ k', Keeps processes s k' u.req.agentId := by
  obtain ⟨s, hr, hp⟩ := Run.exists_of_exec (step processes) (fun _ _ => True) (init processes (0 : Int)) (asksAt 899)
    (fun s => s.now == 899 && (s.sub (1, 0)).any (fun u => decide (0 < timeoutSeconds Executor.oneAgent u.req.agentId)) &&
      (step processes s (.redisSet (1, 0))).any fun t => (t.tasks (1, 0)).set.any fun a => a.1 == .falsy) (by decide)
  simp only [Bool.and_eq_true, beq_iff_eq] at hp
  obtain ⟨⟨hnow, hp⟩, ht⟩ := hp
  obtain ⟨u, hu, hpos⟩ := (Option.any_eq_true _ _).mp hp
  obtain ⟨t, h, hset⟩ := (Option.any_eq_true _ _).mp ht
  have hrefused : ∃ v, (t.tasks (1, 0)).set = some (.falsy, v) := by
    obtain ⟨⟨reply, v⟩, hset, he⟩ := (Option.any_eq_true _ _).mp hset
    cases beq_iff_eq.mp he
    exact ⟨v, hset⟩
  exact ⟨s, t, u, hr, hnow, hu, h, hrefused,
    (refused_iff_held (by decide) hr (x := Executor.oneAgent) rfl hu (of_decide_eq_true hpos) h).mp hrefused⟩

end SagaAgents.Triggers.Cluster
