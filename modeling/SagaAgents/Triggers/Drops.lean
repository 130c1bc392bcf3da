/-
  SagaAgents.Triggers.Drops — one process with Redis: which submits of an agent are
  dropped because its lock is held.

  The agent's semaphore has `max_concurrent_runs` permits, its lock is a single key. A
  submit that gets a permit while a run of the agent is in progress finds the key held,
  by its own process, and is dropped. With one permit the key is free again before the
  next submit asks for it.

  Proved, where Redis answers every call and no key expires during a run:
  `limit_honoured_iff`. With two permits the second submit is dropped beside one run:
  `second_submit_dropped`.
-/

import Mathlib.Algebra.Order.Ring.Cast
import SagaAgents.Triggers.Cluster
import SagaAgents.Triggers.Permits

namespace SagaAgents.Triggers.Cluster

open Lib
open Executor (RunExecutor RunRequest Sub Reply Moves)
open Config (AgentDefinition)

variable {T : Type}

/-! ## The property -/

/-- The submit waits for Redis. -/
def waitsForRedis (u : Sub) : Bool :=
  match u.pc with
  | .locking | .releasing _ => true
  | _ => false

/-- The runs of an agent that are inside `runner.run`, in all processes. -/
def St.runs (s : St T) (agentId : String) : Nat := (s.procs.map (·.inside agentId)).sum

/-- The submit was dropped because the lock was held. -/
def dropped (agentId : String) (u : Sub) : Bool := u.pc == .ended .lockHeld && u.req.agentId == agentId

section

variable [LinearOrder T]

/-- Redis answers every call, and no submit is cancelled while it waits for the answer. -/
def answers (s : St T) : Ev T → Bool
  | .proc _ (.setReply _ .raised) => false
  | .proc _ (.evalReply _ true) => false
  | .proc p (.cancel i) => !(s.sub (p, i)).any waitsForRedis
  | _ => true

/-- Redis works, and no key expires before its run is over. -/
def Working (s : St T) (e : Ev T) : Prop := answers s e = true ∧ InTime s e

instance (s : St T) (e : Ev T) : Decidable (Working s e) := inferInstanceAs (Decidable (_ ∧ _))

end

section

variable [CommRing T] [LinearOrder T]

/-- A process honours the limit `k` of an agent: a submit is dropped only beside `k` runs,
    and `k` runs can be in progress at once. -/
structure HonoursLimit (x : RunExecutor) (agentId : String) (k : Nat) (now : T) : Prop where
  keeps : ∀ s e t tok u v, Run (step [x]) Working (init [x] now) s → Working s e → step [x] s e = some t →
    s.sub tok = some u → dropped agentId u = false → t.sub tok = some v → dropped agentId v = true →
      k ≤ s.runs agentId
  reaches : ∃ s, Run (step [x]) Working (init [x] now) s ∧ s.runs agentId = k

end

/-! ## One permit: the key is free when it is asked for -/

section

variable {x : RunExecutor} {s : St T} {p i : Nat} {e : Executor.Ev} {u v : Sub}

theorem acquiring_not_holds {pc : Executor.Pc} (h : pc.acquiring) : pc.agentStand ≠ .holds := by
  cases pc with
  | active q =>
    cases q with
    | neither => exact fun h => by cases h
    | _ => cases h
  | waitGlobal => exact fun h => by cases h
  | waitAgent => exact fun h => by cases h
  | _ => cases h

/-- A submit that has its permits and for which no SET was executed is waiting for it. -/
theorem asks_move (hx : x.redis = true) (hu : u.granted = true → (s.tasks (p, i)).set = none → u.pc = .locking)
    (hi : e.index = some i) (hk : s.sub (p, i) = some u) (ha : answered s p e = true)
    (hw : answers s (.proc p e) = true) (hm : Moves x u e v) (hg : v.granted = true)
    (hn : (s.tasks (p, i)).set = none) : v.pc = .locking := by
  cases hm with
  | skip _ _ => cases hi
  | queueGlobal _ _ => cases hi
  | queueAgent hp _ => rw [hu hg hn] at hp; cases hp
  | lock _ _ _ => rfl
  | start _ _ hr => rw [hx] at hr; cases hr
  | locked hp => cases hi; simp [answered, hn] at ha
  | lockHeld hp => cases hi; simp [answered, hn] at ha
  | setRaises hp => cases hw
  | unlock hp _ => cases (hu hg hn).symm.trans hp
  | finish _ hr => rw [hx] at hr; cases hr
  | unlocked _ hp => cases (hu hg hn).symm.trans hp
  | cancelled hp =>
    cases hi
    simp [answers, hk, waitsForRedis, hu hg hn] at hw

/-- A submit that has its permits at once is waiting for its SET. -/
theorem asks_new (hx : x.redis = true) {req : RunRequest} (hm : Moves x (Executor.fresh req) (.submit req) v)
    (hg : v.granted = true) : v.pc = .locking := by
  cases hm with
  | skip _ _ => cases hg
  | queueGlobal _ _ => cases hg
  | queueAgent _ _ => cases hg
  | lock _ _ _ => rfl
  | start _ _ hr => rw [hx] at hr; cases hr

/-- Only a falsy reply drops a submit. -/
theorem kept_move (hne : ∀ j, e ≠ .setReply j .falsy) (hu : u.pc ≠ .ended .lockHeld ∧ u.pc ≠ .releasing .lockHeld)
    (hm : Moves x u e v) : v.pc ≠ .ended .lockHeld ∧ v.pc ≠ .releasing .lockHeld := by
  have hr : ∀ r : Executor.RunEnd, r.ending ≠ .lockHeld := fun r => by cases r <;> exact fun h => by cases h
  cases hm with
  | lockHeld _ => exact absurd rfl (hne _)
  | @unlock _ r _ _ => exact ⟨fun h => (by cases h), fun h => hr r (Executor.Pc.releasing.inj h)⟩
  | @finish _ r _ _ => exact ⟨fun h => hr r (Executor.Pc.ended.inj h), fun h => (by cases h)⟩
  | unlocked e' hp => exact ⟨fun h => hu.2 (hp.trans (congrArg _ (Executor.Pc.ended.inj h))), fun h => (by cases h)⟩
  | _ => exact ⟨fun h => (by cases h), fun h => (by cases h)⟩

/-- The owner of a key keeps its permit until its script is executed. -/
theorem owner_move (hx : x.redis = true) {w : T} (hst : u.pc.agentStand = .holds)
    (hset : (s.tasks (p, i)).set = some (.truthy, w)) (hev : (s.tasks (p, i)).evaled = false) (hi : e.index = some i)
    (hk : s.sub (p, i) = some u) (ha : answered s p e = true) (hw : answers s (.proc p e) = true) (hm : Moves x u e v) :
    v.pc.agentStand = .holds := by
  cases hm with
  | skip _ _ => cases hi
  | queueGlobal _ _ => cases hi
  | queueAgent hp _ => exact absurd hst (acquiring_not_holds hp)
  | lock _ _ _ => rfl
  | start _ _ _ => rfl
  | locked _ => rfl
  | lockHeld _ => cases hi; simp [answered, hset] at ha
  | setRaises _ => cases hw
  | unlock _ _ => rfl
  | finish _ hr => rw [hx] at hr; cases hr
  | @unlocked _ b _ hp =>
    cases hi
    cases b with
    | true => cases hw
    | false => simp [answered, hev] at ha
  | cancelled hp =>
    cases hi
    rcases hp with hp | hp | hp | ⟨e', hp⟩
    · rw [hp] at hst; cases hst
    · rw [hp] at hst; cases hst
    · simp [answers, hk, waitsForRedis, hp] at hw
    · simp [answers, hk, waitsForRedis, hp] at hw

end

section

variable [LinearOrder T]

/-- What one process keeps that has one permit for the agent: no SET for the agent found
    the key held, as its owner has the permit. -/
structure Solo (x : RunExecutor) (agentId : String) (s : St T) : Prop where
  proc : ∃ st, s.procs = [st] ∧ Run (Executor.step x) (fun _ _ => True) (Executor.init x) st
  asks : ∀ k u, s.sub k = some u → u.granted = true → (s.tasks k).set = none → u.pc = .locking
  owner : ∀ key k v, s.redis key = some ⟨k, v⟩ → s.now < v → ∃ u w, s.sub k = some u ∧ key = lockKey u.req.agentId ∧
    u.pc.agentStand = .holds ∧ (s.tasks k).set = some (.truthy, w) ∧ (s.tasks k).evaled = false
  free : ∀ k u w, s.sub k = some u → u.req.agentId = agentId → (s.tasks k).set ≠ some (.falsy, w)
  kept : ∀ k u, s.sub k = some u → u.req.agentId = agentId → u.pc ≠ .ended .lockHeld ∧ u.pc ≠ .releasing .lockHeld

variable {x : RunExecutor} {agentId : String} {s : St T}

theorem solo_init (now : T) : Solo x agentId (init [x] now) := by
  have hsub : ∀ k, (init [x] now).sub k = none := by
    intro k
    cases hk : (init [x] now).sub k with
    | none => rfl
    | some u =>
      obtain ⟨st, hp, hi⟩ := Option.bind_eq_some_iff.mp hk
      obtain ⟨y, -, e⟩ := List.mem_map.mp (List.mem_of_getElem? hp)
      subst e
      cases hi
  refine ⟨⟨_, rfl, .refl _⟩, ?_, ?_, ?_, ?_⟩
  · intro k u hk
    rw [hsub] at hk
    cases hk
  · intro key k v hk
    cases hk
  · intro k u w hk
    rw [hsub] at hk
    cases hk
  · intro k u hk
    rw [hsub] at hk
    cases hk

/-- Two submissions of the agent with its permit are one. -/
theorem Solo.holder (hs : Solo x agentId s) (hp : x.permits agentId = 1) {k k' : Token} {u u' : Sub}
    (hk : s.sub k = some u) (hk' : s.sub k' = some u') (hid : u.req.agentId = agentId) (hid' : u'.req.agentId = agentId)
    (hu : u.pc.agentStand = .holds) (hu' : u'.pc.agentStand = .holds) : k = k' := by
  obtain ⟨st, hst, hr⟩ := hs.proc
  have hin : ∀ {k : Token} {u : Sub}, s.sub k = some u → u.req.agentId = agentId → u.pc.agentStand = .holds →
      k.1 = 0 ∧ (st.subs.map (Executor.agentStand agentId))[k.2]? = some .holds := by
    intro k u hk hid hu
    obtain ⟨st', hp', hi⟩ := Option.bind_eq_some_iff.mp hk
    rw [hst] at hp'
    obtain ⟨h0, he⟩ := List.getElem?_eq_some_iff.mp hp'
    have h0 : k.1 = 0 := by simpa using h0
    simp only [h0, List.getElem_cons_zero] at he
    subst he
    refine ⟨h0, ?_⟩
    rw [List.getElem?_map, hi, Option.map_some, Executor.agentStand_own hid, hu]
  obtain ⟨h0, h1⟩ := hin hk hid hu
  obtain ⟨h0', h1'⟩ := hin hk' hid' hu'
  have hserves := (Executor.inv_run hr (Executor.inv_init x)).agent agentId
  have := hserves.holder_unique (by omega) h1 h1'
  exact Prod.ext (h0.trans h0'.symm) this

theorem lockKey_inj {a b : String} (h : lockKey a = lockKey b) : a = b := by
  have := congrArg String.toList h
  simp only [lockKey, String.toList_append] at this
  exact String.toList_inj.mp (List.append_cancel_left this)

theorem solo_proc (hx : x.redis = true) {st st' : Executor.St} {e : Executor.Ev} (hs : Solo x agentId s) (hi : Inv s)
    (hst : s.procs = [st]) (ha : answered s 0 e = true) (hw : answers s (.proc 0 e) = true)
    (h : Executor.step x st e = some st') : Solo x agentId { s with procs := s.procs.set 0 st' } := by
  have hp : s.procs[0]? = some st := by rw [hst]; rfl
  obtain ⟨i, v, hv, hrest, hcase⟩ := subAt_step hp h
  have hnone : s.sub (0, i) = none → (s.tasks (0, i)).set = none := fun hk => ((inv_iff.mp hi).1 _ hk).1
  refine ⟨?_, ?_, ?_, ?_, ?_⟩
  · obtain ⟨st₀, hst₀, hr⟩ := hs.proc
    rw [hst] at hst₀
    cases hst₀
    exact ⟨st', by rw [hst]; rfl, hr.tail e trivial h⟩
  · intro k w hk hg hn
    rcases subAt_after hv hrest hk with ⟨e, e'⟩ | ⟨-, hk⟩
    · subst e; subst e'
      rcases hcase with ⟨req, he, -, hm⟩ | ⟨u, he, hu, hm⟩
      · subst he
        exact asks_new hx hm hg
      · exact asks_move hx (hs.asks _ u hu) he hu ha hw hm hg hn
    · exact hs.asks k w hk hg hn
  · intro key k w hk hn
    obtain ⟨u, w', hu, hkey, hhold, hset, hev⟩ := hs.owner key k w hk hn
    by_cases e : k = (0, i)
    · subst e
      rcases hcase with ⟨-, -, hno, -⟩ | ⟨u', he, hu', hm⟩
      · cases hno.symm.trans hu
      · cases hu.symm.trans hu'
        refine ⟨v, w', hv, ?_, owner_move hx hhold hset hev he hu ha hw hm, hset, hev⟩
        rw [moves_req hm]
        exact hkey
    · exact ⟨u, w', (hrest k e).trans hu, hkey, hhold, hset, hev⟩
  · intro k u w hk hid
    rcases subAt_after hv hrest hk with ⟨e, e'⟩ | ⟨-, hk⟩
    · subst e; subst e'
      rcases hcase with ⟨-, -, hno, -⟩ | ⟨u', -, hu', hm⟩
      · intro hc
        rw [show (s.tasks (0, i)).set = none from hnone hno] at hc
        cases hc
      · exact hs.free _ u' w hu' (by rw [← moves_req hm]; exact hid)
    · exact hs.free k u w hk hid
  · intro k u hk hid
    rcases subAt_after hv hrest hk with ⟨e, e'⟩ | ⟨-, hk⟩
    · subst e; subst e'
      rcases hcase with ⟨req, he, -, hm⟩ | ⟨u', he, hu', hm⟩
      · subst he
        exact kept_move (fun _ h => by cases h) ⟨fun h => (by cases h), fun h => (by cases h)⟩ hm
      · have hid' : u'.req.agentId = agentId := by rw [← moves_req hm]; exact hid
        refine kept_move (fun j hj => ?_) (hs.kept _ u' hu' hid') hm
        subst hj
        cases he
        obtain ⟨⟨r, w⟩, hset, hr⟩ := (Option.any_eq_true _ _).mp ha
        simp only [beq_iff_eq] at hr
        subst hr
        exact hs.free _ u' w hu' hid' hset
    · exact hs.kept k u hk hid

theorem solo_tick (hs : Solo x agentId s) {t : T} (ht : s.now ≤ t) : Solo x agentId { s with now := t } :=
  ⟨hs.proc, hs.asks, fun key k v hk hn => hs.owner key k v hk (lt_of_le_of_lt ht hn), hs.free, hs.kept⟩

theorem compareAndDelete_keeps {r : Lease.Store String Token T} {now : T} {key key' : String} {k : Token}
    {l : Lease Token T} (h : (Lease.compareAndDelete r now key k).2 key' = some l) :
    r key' = some l ∧ ¬ (key' = key ∧ l.token = k ∧ now < l.expires) := by
  unfold Lease.compareAndDelete at h
  split at h
  · by_cases e : key' = key
    · subst e
      simp at h
    · simp only [Function.update_of_ne e] at h
      exact ⟨h, fun hc => e hc.1⟩
  · rename_i hne
    refine ⟨h, fun ⟨e, et, en⟩ => hne ?_⟩
    subst e
    have h : r key' = some l := h
    simp [Lease.live, h, en, et]

theorem solo_redisEval {k : Token} {u : Sub} (hs : Solo x agentId s) (hk : s.sub k = some u) :
    Solo x agentId { s.setTask k { s.tasks k with evaled := true } with
      redis := (Lease.compareAndDelete s.redis s.now (lockKey u.req.agentId) k).2 } := by
  have htask : ∀ k', ((s.setTask k { s.tasks k with evaled := true }).tasks k').set = (s.tasks k').set := by
    intro k'
    by_cases e : k' = k
    · subst e; rw [setTask_same]
    · rw [setTask_ne s _ e]
  refine ⟨hs.proc, fun k' u' hk' hg hn => hs.asks k' u' hk' hg ((htask k').symm.trans hn), ?_,
    fun k' u' w hk' hid hc => hs.free k' u' w hk' hid ((htask k').symm.trans hc), hs.kept⟩
  intro key k' v hr hn
  obtain ⟨hold, hnot⟩ := compareAndDelete_keeps hr
  obtain ⟨u', w, hu', hkey, hhold, hset, hev⟩ := hs.owner key k' v hold hn
  have hne : k' ≠ k := by
    intro e
    subst e
    cases hk.symm.trans hu'
    exact hnot ⟨hkey, rfl, hn⟩
  refine ⟨u', w, hu', hkey, hhold, (htask k').trans hset, ?_⟩
  show ((s.setTask k _).tasks k').evaled = false
  rw [setTask_ne s _ hne]
  exact hev

theorem solo_phase {k : Token} (hs : Solo x agentId s) (ph : Phase T) :
    Solo x agentId (s.setTask k { s.tasks k with phase := ph }) := by
  have htask : ∀ k', ((s.setTask k { s.tasks k with phase := ph }).tasks k').set = (s.tasks k').set ∧
      ((s.setTask k { s.tasks k with phase := ph }).tasks k').evaled = (s.tasks k').evaled := by
    intro k'
    by_cases e : k' = k
    · subst e; rw [setTask_same]; exact ⟨rfl, rfl⟩
    · rw [setTask_ne s _ e]; exact ⟨rfl, rfl⟩
  refine ⟨hs.proc, fun k' u' hk' hg hn => hs.asks k' u' hk' hg ((htask k').1.symm.trans hn), ?_,
    fun k' u' w hk' hid hc => hs.free k' u' w hk' hid ((htask k').1.symm.trans hc), hs.kept⟩
  intro key k' v hr hn
  obtain ⟨u', w, hu', hkey, hhold, hset, hev⟩ := hs.owner key k' v hr hn
  exact ⟨u', w, hu', hkey, hhold, (htask k').1.trans hset, (htask k').2.trans hev⟩

/-- When a submission of the agent asks for the lock, the key is free. -/
theorem Solo.key_free (hs : Solo x agentId s) (hp : x.permits agentId = 1) {k : Token} {u : Sub} (hk : s.sub k = some u)
    (hid : u.req.agentId = agentId) (hg : u.granted = true) (hn : (s.tasks k).set = none) :
    Lease.live s.redis s.now (lockKey agentId) = none := by
  cases hl : Lease.live s.redis s.now (lockKey agentId) with
  | none => rfl
  | some k' =>
    obtain ⟨⟨k'', v⟩, hr, hlive⟩ := Option.bind_eq_some_iff.mp hl
    simp only [Option.ite_none_right_eq_some, Option.some.injEq] at hlive
    obtain ⟨hnow, e⟩ := hlive
    subst e
    -- its owner would have the agent's permit too
    obtain ⟨u', w, hu', hkey, hhold, hset, -⟩ := hs.owner _ _ v hr hnow
    have hloc := hs.asks k u hk hg hn
    have := hs.holder hp hk hu' hid (lockKey_inj hkey).symm (by rw [hloc]; rfl) hhold
    subst this
    rw [hn] at hset
    cases hset

/-- The server has answered the SET of submission `k`, and the key is its own if it can be. -/
theorem solo_setTask {k : Token} {u : Sub} {a : Reply × T} {redis : Lease.Store String Token T} (hs : Solo x agentId s)
    (hk : s.sub k = some u) (hloc : u.pc = .locking) (hn : (s.tasks k).set = none) (hev : (s.tasks k).evaled = false)
    (hfree : u.req.agentId = agentId → a.1 ≠ .falsy)
    (hredis : ∀ key l, redis key = some l → s.redis key = some l ∨
      (l.token = k ∧ key = lockKey u.req.agentId ∧ a.1 = .truthy)) :
    Solo x agentId { s.setTask k { s.tasks k with set := some a } with redis := redis } := by
  have hother : ∀ {k'}, k' ≠ k → (s.setTask k { s.tasks k with set := some a }).tasks k' = s.tasks k' :=
    fun hne => setTask_ne s _ hne
  have hself : (s.setTask k { s.tasks k with set := some a }).tasks k = { s.tasks k with set := some a } := setTask_same s k _
  refine ⟨hs.proc, ?_, ?_, ?_, hs.kept⟩
  · intro k' u' hk' hg hn'
    by_cases e : k' = k
    · subst e
      cases hk.symm.trans hk'
      exact hloc
    · exact hs.asks k' u' hk' hg ((congrArg Task.set (hother e)).symm.trans hn')
  · intro key k' v hr hnow
    rcases hredis key _ hr with hold | ⟨e, hkey, ht⟩
    · obtain ⟨u', w, hu', hkey, hhold, hset, hev'⟩ := hs.owner key k' v hold hnow
      have hne : k' ≠ k := by
        intro e
        subst e
        rw [hn] at hset
        cases hset
      exact ⟨u', w, hu', hkey, hhold, (congrArg Task.set (hother hne)).trans hset,
        (congrArg Task.evaled (hother hne)).trans hev'⟩
    · have e : k' = k := e
      subst e
      refine ⟨u, a.2, hk, hkey, by rw [hloc]; rfl, ?_, (congrArg Task.evaled hself).trans hev⟩
      rw [← ht]
      exact congrArg Task.set hself
  · intro k' u' w hk' hid hc
    by_cases e : k' = k
    · subst e
      cases hk.symm.trans hk'
      have ha := (congrArg Task.set hself).symm.trans hc
      have : a = (.falsy, w) := Option.some.inj ha
      exact hfree hid (by rw [this])
    · exact hs.free k' u' w hk' hid ((congrArg Task.set (hother e)).symm.trans hc)

end

section

variable [CommRing T] [LinearOrder T] {x : RunExecutor} {agentId : String} {s : St T}

theorem solo_redisSet (hs : Solo x agentId s) (hi : Inv s) (hp : x.permits agentId = 1) {k : Token} {u : Sub} {ttl : Int}
    (hk : s.sub k = some u) (hg : u.granted = true) (hn : (s.tasks k).set = none) :
    Solo x agentId (execSet s k u.req.agentId ttl) := by
  have hloc := hs.asks k u hk hg hn
  have hev := ((inv_iff.mp hi).2 k u hk).early (Or.inr (Or.inl hloc))
  unfold execSet
  split
  · exact solo_setTask hs hk hloc hn hev (fun _ h => by cases h) (fun _ _ h => Or.inl h)
  · unfold Lease.setNx
    split
    · rename_i hlive
      refine solo_setTask hs hk hloc hn hev (fun hid => ?_) (fun _ _ h => Or.inl h)
      rw [hid, hs.key_free hp hk hid hg hn] at hlive
      cases hlive
    · refine solo_setTask hs hk hloc hn hev (fun _ h => by cases h) (fun key l h => ?_)
      by_cases e : key = lockKey u.req.agentId
      · subst e
        have h := (Function.update_self _ _ _).symm.trans h
        cases h
        exact Or.inr ⟨rfl, rfl, rfl⟩
      · exact Or.inl ((Function.update_of_ne e _ _).symm.trans h)

theorem solo_step (hx : x.redis = true) (hp : x.permits agentId = 1) (e : Ev T) (t : St T) (hs : Solo x agentId s)
    (hi : Inv s) (hw : answers s e = true) (h : step [x] s e = some t) : Solo x agentId t := by
  cases step_cases h with
  | @proc p e y st st' hy hst ha hst' =>
    obtain ⟨hp0, hxy⟩ := List.getElem?_eq_some_iff.mp hy
    have hp0 : p = 0 := by simpa using hp0
    subst hp0
    cases hxy
    obtain ⟨st₀, hone, -⟩ := hs.proc
    rw [hone] at hst
    cases hst
    exact solo_proc hx hs hi hone ha hw hst'
  | redisSet _ hk hg hn => exact solo_redisSet hs hi hp hk hg hn
  | redisEval hk => exact solo_redisEval hs hk
  | phase ph => exact solo_phase hs ph
  | tick hn => exact solo_tick hs hn

/-- With one permit for the agent, none of its submits is dropped. -/
theorem one_permit_drops_nothing (hx : x.redis = true) (hp : x.permits agentId = 1) {now : T}
    (h : Run (step [x]) Working (init [x] now) s) {k : Token} {u : Sub} (hk : s.sub k = some u) :
    dropped agentId u = false := by
  have hx' : ∀ y ∈ [x], y.redis = true := fun y hy => by rw [List.mem_singleton.mp hy]; exact hx
  have hinv : Inv s ∧ Solo x agentId s := by
    refine h.invariant (I := fun s => Inv s ∧ Solo x agentId s) (fun s e t hs ho hst => ?_) ⟨inv_init _ now, solo_init now⟩
    exact ⟨inv_step hx' s e t hs.1 ho.2 hst, solo_step hx hp e t hs.2 hs.1 ho.1 hst⟩
  cases hd : dropped agentId u with
  | false => rfl
  | true =>
    simp only [dropped, Bool.and_eq_true, beq_iff_eq] at hd
    exact absurd hd.1 (hinv.2.kept k u hk hd.2).1

end

/-! ## Several permits: a run in progress holds the key -/

/-- A submit that has its permits and waits for the lock. -/
def asking (req : RunRequest) : Sub := ⟨req, .locking, true, none, false⟩

/-- The same one inside its run. -/
def started (req : RunRequest) : Sub := ⟨req, .running, true, some .truthy, true⟩

theorem runs_of {s : St T} {st : Executor.St} (hp : s.procs = [st]) (agentId : String) :
    s.runs agentId = st.inside agentId := by
  simp [St.runs, hp]

theorem submit_asks {x : RunExecutor} {req : RunRequest} {st : Executor.St} {g a : Nat} (hd : (x.runnable req).isSome = true)
    (hx : x.redis = true) (hg : st.globalSem = ⟨g + 1, []⟩) (ha : st.agentSems req.agentId = ⟨a + 1, []⟩) :
    (Executor.submit x req st).globalSem = ⟨g, []⟩ ∧ (Executor.submit x req st).agentSems req.agentId = ⟨a, []⟩ ∧
      (Executor.submit x req st).subs = st.subs ++ [asking req] := by
  obtain ⟨d, hd⟩ := Option.isSome_iff_exists.mp hd
  simp [Executor.submit, hd, Executor.acquireGlobal, Executor.acquireAgent, Executor.enterBody, hx, hg, ha, Executor.fresh,
    Semaphore.acquire, Semaphore.locked, asking]

section

variable [CommRing T] [LinearOrder T] {x : RunExecutor} {req : RunRequest}

/-- As many submits as there are permits all come to ask for the lock. -/
theorem submits_ask (now : T) (hx : x.redis = true) (hd : (x.runnable req).isSome = true) {n : Nat} (hg : n ≤ x.globalLimit)
    (ha : n ≤ x.permits req.agentId) :
    ∃ st, Run (step [x]) Working (init [x] now) { init [x] now with procs := [st] } ∧
      st.globalSem = ⟨x.globalLimit - n, []⟩ ∧ st.agentSems req.agentId = ⟨x.permits req.agentId - n, []⟩ ∧
      st.subs = List.replicate n (asking req) := by
  induction n with
  | zero => exact ⟨Executor.init x, .refl _, rfl, rfl, rfl⟩
  | succ n ih =>
    obtain ⟨st, hr, hsg, hsa, hsubs⟩ := ih (by omega) (by omega)
    have hg' : st.globalSem = ⟨x.globalLimit - (n + 1) + 1, []⟩ := by
      rw [hsg]; congr 1; omega
    have ha' : st.agentSems req.agentId = ⟨x.permits req.agentId - (n + 1) + 1, []⟩ := by
      rw [hsa]; congr 1; omega
    obtain ⟨h1, h2, h3⟩ := submit_asks hd hx hg' ha'
    refine ⟨Executor.submit x req st, hr.tail (.proc 0 (.submit req)) ⟨rfl, trivial⟩ rfl, h1, h2, ?_⟩
    rw [h3, hsubs, List.replicate_succ']

end

section

variable [CommRing T] [LinearOrder T] {x : RunExecutor} {req : RunRequest} {s : St T}

theorem redisSet_step {k : Token} {u : Sub} (hk : s.sub k = some u) (h0 : k.1 = 0) (hg : u.granted = true)
    (hn : (s.tasks k).set = none) :
    step [x] s (.redisSet k) = some (execSet s k u.req.agentId (timeoutSeconds x u.req.agentId)) := by
  simp [step, h0, hk, hg, hn]

/-- The state after the server granted a SET. -/
def grant (s : St T) (k : Token) (agentId : String) (ttl : Int) : St T :=
  { s.setTask k { s.tasks k with set := some (.truthy, s.now + (ttl : T)) } with
    redis := Function.update s.redis (lockKey agentId) (some ⟨k, s.now + (ttl : T)⟩) }

/-- And after it refused one. -/
def refuse (s : St T) (k : Token) (ttl : Int) : St T :=
  s.setTask k { s.tasks k with set := some (.falsy, s.now + (ttl : T)) }

theorem execSet_free {k : Token} {agentId : String} {ttl : Int} (ht : 0 < ttl)
    (hl : Lease.live s.redis s.now (lockKey agentId) = none) : execSet s k agentId ttl = grant s k agentId ttl := by
  unfold execSet Lease.setNx
  rw [if_neg (by omega), hl]
  rfl

theorem execSet_held {k k' : Token} {agentId : String} {ttl : Int} (ht : 0 < ttl)
    (hl : Lease.live s.redis s.now (lockKey agentId) = some k') : execSet s k agentId ttl = refuse s k ttl := by
  unfold execSet Lease.setNx
  rw [if_neg (by omega), hl]
  rfl

/-- A reply that the server has given reaches its submit. -/
theorem setReply_step {st : Executor.St} {i : Nat} {r : Reply} {v : T} (hp : s.procs = [st])
    (hu : st.subs[i]? = some (asking req)) (hn : (s.tasks (0, i)).set = some (r, v)) :
    step [x] s (.proc 0 (.setReply i r)) = some { s with procs := [Executor.afterSet i (asking req) r st] } := by
  have ha : answered s 0 (.setReply i r) = true := by
    cases r with
    | raised => rfl
    | _ => simp [answered, hn]
  have hst : Executor.step x st (.setReply i r) = some (Executor.afterSet i (asking req) r st) := by
    simp [Executor.step, Executor.Ev.index, Executor.move, hu, asking]
  simp [step, hp, ha, hst]

/-- The first SET is granted, and its submit enters its run. -/
theorem first_starts [IsStrictOrderedRing T] {st : Executor.St} (ht : 0 < timeoutSeconds x req.agentId) (hp : s.procs = [st])
    (hu : st.subs[0]? = some (asking req)) (hn : (s.tasks (0, 0)).set = none) (hr : s.redis (lockKey req.agentId) = none) :
    ∃ t st' v, Run (step [x]) Working s t ∧ t.procs = [st'] ∧ st'.subs = st.subs.set 0 (started req) ∧ t.now = s.now ∧
      t.redis (lockKey req.agentId) = some ⟨(0, 0), v⟩ ∧ t.now < v ∧ ∀ k, k ≠ (0, 0) → t.tasks k = s.tasks k := by
  have hk : s.sub (0, 0) = some (asking req) := by simp [St.sub, hp, hu]
  have hlive : Lease.live s.redis s.now (lockKey req.agentId) = none := by simp [Lease.live, hr]
  have hlt : s.now < s.now + (timeoutSeconds x req.agentId : T) := lt_add_of_pos_right _ (Int.cast_pos.mpr ht)
  have hset : step [x] s (.redisSet (0, 0)) = some (grant s (0, 0) req.agentId (timeoutSeconds x req.agentId)) := by
    rw [redisSet_step hk rfl rfl hn]
    exact congrArg some (execSet_free ht hlive)
  have htask : ((grant s (0, 0) req.agentId (timeoutSeconds x req.agentId)).tasks (0, 0)).set =
      some (.truthy, s.now + (timeoutSeconds x req.agentId : T)) := by
    simp [grant, St.setTask]
  have hreply := setReply_step (x := x) (s := grant s (0, 0) req.agentId (timeoutSeconds x req.agentId)) hp hu htask
  have htime : Working (grant s (0, 0) req.agentId (timeoutSeconds x req.agentId)) (.proc 0 (.setReply 0 .truthy)) := by
    refine ⟨rfl, ?_⟩
    show fresh _ _ _ = true
    rw [fresh, htask]
    simpa [grant] using hlt
  refine ⟨_, _, _, ((Run.refl s).tail (.redisSet (0, 0)) ⟨rfl, trivial⟩ hset).tail _ htime hreply, rfl, rfl, rfl, ?_, hlt, ?_⟩
  · simp [grant]
  · intro k hk
    simp [grant, hk]

/-- With two permits or more, the second submit finds the first one's key and is dropped. -/
theorem second_dropped [IsStrictOrderedRing T] (req : RunRequest) (now : T) (hx : x.redis = true) (hd : (x.runnable req).isSome = true)
    (hg : 2 ≤ x.globalLimit) (ha : 2 ≤ x.permits req.agentId) (ht : 0 < timeoutSeconds x req.agentId) :
    ∃ s e t tok u v, Run (step [x]) Working (init [x] now) s ∧ Working s e ∧ step [x] s e = some t ∧ s.sub tok = some u ∧
      dropped req.agentId u = false ∧ t.sub tok = some v ∧ dropped req.agentId v = true ∧ s.runs req.agentId = 1 := by
  obtain ⟨st, hr, -, -, hsubs⟩ := submits_ask now hx hd hg ha
  obtain ⟨s, st', v, hr', hp, hsubs', -, hkey, hlive, htasks⟩ :=
    first_starts (x := x) ht rfl (by rw [hsubs]; rfl) rfl rfl (s := { init [x] now with procs := [st] })
  have hsubs' : st'.subs = [started req, asking req] := by rw [hsubs', hsubs]; rfl
  have hk : s.sub (0, 1) = some (asking req) := by simp [St.sub, hp, hsubs']
  have hn : (s.tasks (0, 1)).set = none := by rw [htasks (0, 1) (by decide)]; rfl
  have hheld : Lease.live s.redis s.now (lockKey req.agentId) = some (0, 0) := by simp [Lease.live, hkey, hlive]
  have hset : step [x] s (.redisSet (0, 1)) = some (refuse s (0, 1) (timeoutSeconds x req.agentId)) := by
    rw [redisSet_step hk rfl rfl hn]
    exact congrArg some (execSet_held ht hheld)
  have htask : ((refuse s (0, 1) (timeoutSeconds x req.agentId)).tasks (0, 1)).set =
      some (.falsy, s.now + (timeoutSeconds x req.agentId : T)) := by
    simp [refuse]
  have hreply := setReply_step (x := x) (s := refuse s (0, 1) (timeoutSeconds x req.agentId)) (i := 1) hp
    (by rw [hsubs']; rfl) htask
  refine ⟨_, .proc 0 (.setReply 1 .falsy), _, (0, 1), asking req, { asking req with pc := .ended .lockHeld, setReply := some .falsy },
    (hr.trans hr').tail (.redisSet (0, 1)) ⟨rfl, trivial⟩ hset, ⟨rfl, trivial⟩, hreply, hk, rfl, ?_, ?_, ?_⟩
  · show (Executor.afterSet 1 (asking req) .falsy st').subs[1]? = _
    simp [Executor.afterSet, Executor.releaseBoth, Executor.releaseGlobal, hsubs', Executor.Sub.to]
  · simp [dropped, asking]
  · have hone : s.runs req.agentId = 1 := by
      rw [runs_of hp, Executor.St.inside, hsubs']
      simp [Executor.isRunning, started, asking]
    exact hone

end

/-- A working Redis lets a process honour an agent's limit exactly if the limit is 1. -/
theorem limit_honoured_iff [CommRing T] [LinearOrder T] [IsStrictOrderedRing T] {x : RunExecutor} {d : AgentDefinition}
    {agentId : String} {k : Nat} (hd : x.definitions.get agentId = some d) (he : d.enabled = true)
    (hk : d.limits.maxConcurrentRuns = k) (h1 : 1 ≤ k) (hg : k ≤ x.globalLimit) (hx : x.redis = true)
    (ht : 0 < d.limits.timeoutSeconds) (now : T) : HonoursLimit x agentId k now ↔ k = 1 := by
  have hp : x.permits agentId = k := by
    simp [RunExecutor.permits, hd, hk]
  have hdef : (x.runnable ⟨agentId, "schedule"⟩).isSome = true := by
    simp [RunExecutor.runnable, hd, he]
  have htime : 0 < timeoutSeconds x agentId := by
    simpa [timeoutSeconds, hd] using ht
  constructor
  · intro h
    by_cases e : k = 1
    · exact e
    · obtain ⟨s, e, t, tok, u, v, hr, hw, hst, hu, hnu, hv, hdv, hruns⟩ :=
        second_dropped ⟨agentId, "schedule"⟩ now hx hdef (by omega) (by rw [hp]; omega) htime
      have hruns : s.runs agentId = 1 := hruns
      have := h.keeps s e t tok u v hr hw hst hu hnu hv hdv
      omega
  · intro e
    subst e
    refine ⟨fun s e t tok u v hr hw hst _ _ hv hdv => ?_, ?_⟩
    · rw [one_permit_drops_nothing hx hp (hr.tail e hw hst) hv] at hdv
      cases hdv
    · obtain ⟨st, hr, -, -, hsubs⟩ := submits_ask now hx hdef hg (by rw [hp])
      obtain ⟨t, st', v, hr', hp', hsubs', -⟩ :=
        first_starts (x := x) htime rfl (by rw [hsubs]; rfl) rfl rfl (s := { init [x] now with procs := [st] })
      refine ⟨t, hr.trans hr', ?_⟩
      rw [runs_of hp', Executor.St.inside, hsubs', hsubs]
      simp [Executor.isRunning, started]

/-! An agent with one run at a time, and one with two. -/

theorem limit_honoured_iff_one : HonoursLimit Executor.oneAgent "event-deduplicator" 1 (0 : Int) :=
  (limit_honoured_iff (d := { id := "event-deduplicator" }) (by decide) rfl rfl (by decide) (by decide) rfl (by decide) 0).mpr rfl

def twoPermits : RunExecutor where
  definitions := Keyed.ofList AgentDefinition.id [{ id := "event-deduplicator", limits := { maxConcurrentRuns := 2 } }]
  globalLimit := 2
  redis := true
  nonneg := by decide

/-- Two submits, of which the first is in its run and the second has asked for the lock. -/
def oneStarted : List (Ev Int) :=
  [.proc 0 Executor.scheduled, .proc 0 Executor.scheduled, .redisSet (0, 0), .proc 0 (.setReply 0 .truthy), .redisSet (0, 1)]

/-- The second submit is dropped beside one run, where the limit is two. -/
theorem second_submit_dropped : ¬ HonoursLimit twoPermits "event-deduplicator" 2 (0 : Int) := by
  intro h
  obtain ⟨s, hr, hp⟩ := Run.exists_of_exec (step [twoPermits]) Working (init [twoPermits] (0 : Int)) oneStarted
    (fun s => (s.sub (0, 1)).any (!dropped "event-deduplicator" ·) && s.runs "event-deduplicator" == 1 &&
      (step [twoPermits] s (.proc 0 (.setReply 1 .falsy))).any fun t => (t.sub (0, 1)).any (dropped "event-deduplicator"))
    (by decide)
  simp only [Bool.and_eq_true, Option.any_eq_true, Bool.not_eq_true', beq_iff_eq] at hp
  obtain ⟨⟨⟨u, hu, hnu⟩, hruns⟩, t, hst, v, hv, hdv⟩ := hp
  have := h.keeps s (.proc 0 (.setReply 1 .falsy)) t (0, 1) u v hr ⟨rfl, trivial⟩ hst hu hnu hv hdv
  omega

end SagaAgents.Triggers.Cluster
