/-
  SagaAgents.Triggers.LockScript — who removes a lock key, when keys can expire at any
  time.

  The processes of `Cluster`, without its clock: a key can go at any step (`expire`). The
  server executes a SET or a script in one step, some time after it was sent, and the
  reply comes later or is lost. A submission's token is its process and its number
  there, so tokens are pairwise distinct. `scripts` is every `EVAL` that was sent, in
  order, and `executed` says which of them the server has executed.

  `submit` sends the script from the `finally` of a run, with its own key and token. A
  run can end by a report, an exception or a cancellation; a submission can also be
  cancelled at any other await.

  Proved, over every run of any number of processes: `lock_released_by_owner`.
-/

import SagaAgents.Triggers.Cluster
import SagaAgents.Triggers.Permits

namespace SagaAgents.Triggers.LockScript

open Lib
open Executor (RunExecutor RunRequest Sub Reply Moves)
open Cluster (Token lockKey timeoutSeconds subAt subAt_of subAt_step subAt_after)

/-! ## The lock keys of the server -/

abbrev Keys := String → Option Token

/-- `SET key token NX`. -/
def setNx (r : Keys) (key : String) (token : Token) : Bool × Keys :=
  if (r key).isSome then (false, r) else (true, Function.update r key (some token))

/-- `if redis.call('get', KEYS[1]) == ARGV[1] then return redis.call('del', KEYS[1]) else return 0 end`. -/
def luaCompareAndDelete (r : Keys) (key : String) (token : Token) : Nat × Keys :=
  if r key = some token then (1, Function.update r key none) else (0, r)

/-! ## Processes and server -/

/-- An `EVAL` of the script, from the submission `sender`. -/
structure Script where
  sender : Token
  key : String
  token : Token
  deriving DecidableEq, Repr

structure St where
  procs : List Executor.St
  redis : Keys
  /-- What the server has answered to a submission's SET. -/
  sets : Token → Option Reply
  scripts : List Script
  executed : Nat → Bool

def init (xs : List RunExecutor) : St := ⟨xs.map Executor.init, fun _ => none, fun _ => none, [], fun _ => false⟩

inductive Ev where
  | proc (p : Nat) (e : Executor.Ev)
  | redisSet (k : Token)
  | redisEval (n : Nat)
  | expire (key : String)
  deriving DecidableEq, Repr

/-- The submission with this token. -/
def St.sub (s : St) (k : Token) : Option Sub := subAt s.procs k

/-- The script of submission `k`, for its agent's key. -/
def release (k : Token) (u : Sub) : Script := ⟨k, lockKey u.req.agentId, k⟩

/-- The `EVAL` that the `finally` of a run sends, if there is a Redis client. -/
def sends (x : RunExecutor) (st : Executor.St) (p : Nat) : Executor.Ev → List Script
  | .runEnd i _ => if x.redis then ((st.subs[i]?).filter Executor.isRunning).toList.map (release (p, i)) else []
  | _ => []

/-- A reply other than an exception says what the server has done. -/
def answered (s : St) (p : Nat) : Executor.Ev → Bool
  | .setReply _ .raised => true
  | .setReply i r => s.sets (p, i) == some r
  | .evalReply i false => s.scripts.zipIdx.any fun c => c.1.sender == (p, i) && s.executed c.2
  | _ => true

/-- The server's step for `SET key token NX EX ttl`. -/
def execSet (s : St) (k : Token) (agentId : String) (ttl : Int) : St :=
  if ttl ≤ 0 then { s with sets := Function.update s.sets k (some .raised) }
  else
    let r := setNx s.redis (lockKey agentId) k
    { s with redis := r.2, sets := Function.update s.sets k (some (if r.1 then .truthy else .falsy)) }

def step (xs : List RunExecutor) (s : St) : Ev → Option St
  | .proc p e =>
    xs[p]?.bind fun x => s.procs[p]?.bind fun st =>
      if answered s p e then
        (Executor.step x st e).map fun st' =>
          { s with procs := s.procs.set p st', scripts := s.scripts ++ sends x st p e }
      else none
  | .redisSet k =>
    xs[k.1]?.bind fun x => (s.sub k).bind fun u =>
      if x.redis && u.granted && (s.sets k).isNone then
        some (execSet s k u.req.agentId (timeoutSeconds x u.req.agentId))
      else none
  | .redisEval n =>
    s.scripts[n]?.bind fun c =>
      if s.executed n then none
      else some { s with redis := (luaCompareAndDelete s.redis c.key c.token).2, executed := Function.update s.executed n true }
  | .expire key => some { s with redis := Function.update s.redis key none }

/-- The steps, with what enables each of them. -/
inductive Changes (xs : List RunExecutor) (s : St) : Ev → St → Prop
  | proc {p : Nat} {e : Executor.Ev} {x : RunExecutor} {st st' : Executor.St} (hx : xs[p]? = some x) (hp : s.procs[p]? = some st)
      (ha : answered s p e = true) (hst : Executor.step x st e = some st') :
      Changes xs s (.proc p e) { s with procs := s.procs.set p st', scripts := s.scripts ++ sends x st p e }
  | redisSet {k : Token} {u : Sub} (ttl : Int) (hk : s.sub k = some u) (hg : u.granted = true) (hn : s.sets k = none) :
      Changes xs s (.redisSet k) (execSet s k u.req.agentId ttl)
  | redisEval {n : Nat} {c : Script} (hc : s.scripts[n]? = some c) : Changes xs s (.redisEval n)
      { s with redis := (luaCompareAndDelete s.redis c.key c.token).2, executed := Function.update s.executed n true }
  | expire (key : String) : Changes xs s (.expire key) { s with redis := Function.update s.redis key none }

theorem step_cases {xs : List RunExecutor} {s t : St} {e : Ev} (h : step xs s e = some t) : Changes xs s e t := by
  cases e with
  | proc p e =>
    obtain ⟨x, hx, h⟩ := Option.bind_eq_some_iff.mp h
    obtain ⟨st, hp, h⟩ := Option.bind_eq_some_iff.mp h
    split at h
    · rename_i ha
      obtain ⟨st', hst, e⟩ := Option.map_eq_some_iff.mp h
      subst e
      exact .proc hx hp ha hst
    · cases h
  | redisSet k =>
    obtain ⟨x, hx, h⟩ := Option.bind_eq_some_iff.mp h
    obtain ⟨u, hk, h⟩ := Option.bind_eq_some_iff.mp h
    split at h
    · rename_i hc
      simp only [Bool.and_eq_true, Option.isNone_iff_eq_none] at hc
      cases h
      exact .redisSet _ hk hc.1.2 hc.2
    · cases h
  | redisEval n =>
    obtain ⟨c, hc, h⟩ := Option.bind_eq_some_iff.mp h
    split at h
    · cases h
    · cases h
      exact .redisEval hc
  | expire key =>
    cases h
    exact .expire key

/-! ## One process -/

/-- How far a submission of `x` is with the lock. -/
structure Gate (x : RunExecutor) (u : Sub) : Prop where
  asked : u.setReply ≠ none → x.redis = true
  waits : u.pc.acquiring ∨ u.pc = .locking → u.setReply = none
  locks : u.pc = .locking → x.redis = true
  runs : u.pc = .running → x.redis = true → u.setReply = some .truthy

theorem gate_fresh (x : RunExecutor) (req : RunRequest) : Gate x (Executor.fresh req) :=
  ⟨fun h => absurd rfl h, fun _ => rfl, fun h => (by cases h), fun h => (by cases h)⟩

theorem past_late {p : Executor.Pc} (h : p.past = true) : ¬ (p.acquiring ∨ p = .locking) ∧ p ≠ .running := by
  cases p with
  | releasing e => exact ⟨fun h => (by rcases h with h | h <;> cases h), fun h => (by cases h)⟩
  | ended e => exact ⟨fun h => (by rcases h with h | h <;> cases h), fun h => (by cases h)⟩
  | _ => cases h

/-- Past its run only the reply it has had matters. -/
theorem gate_past {x : RunExecutor} {u : Sub} (hp : u.pc.past = true) (ha : u.setReply ≠ none → x.redis = true) : Gate x u := by
  obtain ⟨hw, hr⟩ := past_late hp
  exact ⟨ha, fun h => absurd h hw, fun h => absurd (Or.inr h) hw, fun h => absurd h hr⟩

theorem gate_move {x : RunExecutor} {u v : Sub} {e : Executor.Ev} (hu : Gate x u) (hm : Moves x u e v) : Gate x v := by
  cases hm with
  | queueGlobal hp _ =>
    have hn := hu.waits (Or.inl (by simp [hp, Executor.Pc.acquiring]))
    exact ⟨hu.asked, fun _ => hn, fun h => (by cases h), fun h => (by cases h)⟩
  | queueAgent hp _ =>
    have hn := hu.waits (Or.inl hp)
    exact ⟨hu.asked, fun _ => hn, fun h => (by cases h), fun h => (by cases h)⟩
  | lock hp _ hr =>
    have hn := hu.waits (Or.inl hp)
    exact ⟨fun _ => hr, fun _ => hn, fun _ => hr, fun h => (by cases h)⟩
  | start hp _ hr =>
    exact ⟨hu.asked, fun h => (by rcases h with h | h <;> cases h), fun h => (by cases h),
      fun _ h => (by rw [hr] at h; cases h)⟩
  | locked hp =>
    exact ⟨fun _ => hu.locks hp, fun h => (by rcases h with h | h <;> cases h), fun h => (by cases h), fun _ _ => rfl⟩
  | lockHeld hp => exact gate_past rfl fun _ => hu.locks hp
  | setRaises hp => exact gate_past rfl fun _ => hu.locks hp
  | _ => exact gate_past rfl hu.asked

theorem gate_run {x : RunExecutor} {ok : Executor.St → Executor.Ev → Prop} {st : Executor.St}
    (h : Run (Executor.step x) ok (Executor.init x) st) : ∀ u ∈ st.subs, Gate x u :=
  Executor.subs_run (fun _ req _ _ hm => gate_move (gate_fresh x req) hm) (fun _ _ _ _ _ hu hm => gate_move hu hm) h

/-- The scripts a submission has sent: one, once its run has ended, if it had the lock. -/
def released (k : Token) (u : Sub) : List Script :=
  if u.setReply = some .truthy ∧ u.pc.past = true then [release k u] else []

theorem released_nil {k : Token} {u : Sub} (h : u.setReply ≠ some .truthy ∨ u.pc.past = false) : released k u = [] := by
  refine if_neg fun hc => ?_
  rcases h with h | h
  · exact h hc.1
  · rw [h] at hc; cases hc.2

theorem sends_nil {x : RunExecutor} {st : Executor.St} {p i : Nat} {u : Sub} {e : Executor.Ev} (he : e.index = some i)
    (hi : st.subs[i]? = some u) (h : u.pc ≠ .running ∨ x.redis = false) : sends x st p e = [] := by
  unfold sends
  split
  · rename_i j r
    cases he
    rcases h with h | h
    · have : Executor.isRunning u = false := by
        unfold Executor.isRunning
        split
        · rename_i hp; exact absurd hp h
        · rfl
      simp [hi, this]
    · simp [h]
  · rfl

theorem released_to {k : Token} {u : Sub} {pc : Executor.Pc} (h : u.pc.past = true) (h' : pc.past = true) :
    released k (u.to pc) = released k u := by
  unfold released
  rw [h, Executor.to_pc, h']
  rfl

/-- A step of a submission sends the script exactly when its run with the lock ends. -/
theorem released_move {x : RunExecutor} {st : Executor.St} {p i : Nat} {u v : Sub} {e : Executor.Ev} (hu : Gate x u)
    (he : e.index = some i) (hi : st.subs[i]? = some u) (hm : Moves x u e v) :
    released (p, i) v = released (p, i) u ++ sends x st p e := by
  have hnone : u.pc.acquiring ∨ u.pc = .locking → u.setReply ≠ some .truthy := fun h hc => by
    rw [hu.waits h] at hc; cases hc
  -- before its run a submission has sent nothing, and does not now
  have hearly : u.pc.acquiring ∨ u.pc = .locking → ∀ w : Sub, (w.setReply ≠ some .truthy ∨ w.pc.past = false) →
      released (p, i) w = released (p, i) u ++ sends x st p e := by
    intro hp w hw
    have hr : u.pc ≠ .running := fun hr => by
      rw [hr] at hp; rcases hp with h | h <;> cases h
    rw [released_nil hw, released_nil (Or.inl (hnone hp)), sends_nil he hi (Or.inl hr)]
    rfl
  cases hm with
  | skip hp _ => cases he
  | queueGlobal hp _ => cases he
  | queueAgent hp _ => exact hearly (Or.inl hp) _ (Or.inr rfl)
  | lock hp _ _ => exact hearly (Or.inl hp) _ (Or.inr rfl)
  | start hp _ _ => exact hearly (Or.inl hp) _ (Or.inr rfl)
  | locked hp => exact hearly (Or.inr hp) _ (Or.inr rfl)
  | lockHeld hp => exact hearly (Or.inr hp) _ (Or.inl fun h => by cases h)
  | setRaises hp => exact hearly (Or.inr hp) _ (Or.inl fun h => by cases h)
  | @unlock _ r hp hr =>
    cases he
    have ht : u.setReply = some .truthy := hu.runs hp hr
    have hpast : u.pc.past = false := by rw [hp]; rfl
    have hrun : Executor.isRunning u = true := by simp [Executor.isRunning, hp]
    have hsend : sends x st p (.runEnd i r) = [release (p, i) u] := by
      simp [sends, hr, hi, hrun]
    rw [released_nil (Or.inr hpast), hsend]
    exact if_pos ⟨ht, rfl⟩
  | @finish _ r hp hr =>
    have hn : u.setReply ≠ some .truthy := fun h => by
      have := hu.asked (by rw [h]; exact fun h => by cases h)
      rw [hr] at this
      cases this
    have hn' : (u.to (.ended r.ending)).setReply ≠ some .truthy := hn
    rw [released_nil (Or.inl hn'), released_nil (Or.inl hn), sends_nil he hi (Or.inr hr)]
    rfl
  | unlocked e' hp =>
    have hpast : u.pc.past = true := by rw [hp]; rfl
    rw [released_to hpast rfl, sends_nil he hi (Or.inl (past_late hpast).2), List.append_nil]
  | cancelled hp =>
    rcases hp with hp | hp | hp | ⟨e', hp⟩
    · have hq : u.pc.acquiring := by simp [hp, Executor.Pc.acquiring]
      exact hearly (Or.inl hq) _ (Or.inl (hnone (Or.inl hq)))
    · have hq : u.pc.acquiring := by simp [hp, Executor.Pc.acquiring]
      exact hearly (Or.inl hq) _ (Or.inl (hnone (Or.inl hq)))
    · exact hearly (Or.inr hp) _ (Or.inl (hnone (Or.inr hp)))
    · have hpast : u.pc.past = true := by rw [hp]; rfl
      rw [released_to hpast rfl, sends_nil he hi (Or.inl (past_late hpast).2), List.append_nil]

/-! ## One process of several -/

theorem moves_setReply {x : RunExecutor} {u v : Sub} {e : Executor.Ev} (hm : Moves x u e v) :
    v.setReply = u.setReply ∨ ∃ i r, e = .setReply i r ∧ v.setReply = some r := by
  cases hm with
  | locked _ => exact Or.inr ⟨_, _, rfl, rfl⟩
  | lockHeld _ => exact Or.inr ⟨_, _, rfl, rfl⟩
  | setRaises _ => exact Or.inr ⟨_, _, rfl, rfl⟩
  | _ => exact Or.inl rfl

theorem sends_sender {x : RunExecutor} {st : Executor.St} {p : Nat} {e : Executor.Ev} {c : Script} (h : c ∈ sends x st p e) :
    ∃ i, e.index = some i ∧ c.sender = (p, i) := by
  unfold sends at h
  split at h
  · rename_i i r
    split at h
    · obtain ⟨u, -, hu⟩ := List.mem_map.mp h
      exact ⟨i, rfl, by rw [← hu]; rfl⟩
    · cases h
  · cases h

/-! ## What every step keeps -/

structure Inv (xs : List RunExecutor) (s : St) : Prop where
  runs : ∀ (p : Nat) (x : RunExecutor) (st : Executor.St), xs[p]? = some x → s.procs[p]? = some st →
    Run (Executor.step x) (fun _ _ => True) (Executor.init x) st
  unsent : ∀ k, (∀ u, s.sub k = some u → u.granted = false) → s.sets k = none
  heard : ∀ k u r, s.sub k = some u → u.setReply = some r → r ≠ .raised → s.sets k = some r
  owned : ∀ key k, s.redis key = some k → s.sets k = some .truthy ∧ ∃ u, s.sub k = some u ∧ key = lockKey u.req.agentId
  sent : ∀ k, s.scripts.filter (·.sender == k) = (s.sub k).elim [] (released k)
  pending : ∀ n, s.scripts.length ≤ n → s.executed n = false
  gone : ∀ n c, s.scripts[n]? = some c → s.executed n = true → ∀ key, s.redis key ≠ some c.token

theorem Inv.gate {xs : List RunExecutor} {s : St} (hs : Inv xs s) {p i : Nat} {x : RunExecutor} {st : Executor.St} {u : Sub}
    (hx : xs[p]? = some x) (hp : s.procs[p]? = some st) (hu : st.subs[i]? = some u) : Gate x u :=
  gate_run (hs.runs p x st hx hp) u (List.mem_of_getElem? hu)

/-- A script in the log is of a submission that has the reply to its SET, and names its
    key and token. -/
theorem Inv.script {xs : List RunExecutor} {s : St} (hs : Inv xs s) {c : Script} (hc : c ∈ s.scripts) :
    ∃ u, s.sub c.sender = some u ∧ c = release c.sender u ∧ s.sets c.sender = some .truthy := by
  have hm : c ∈ s.scripts.filter (·.sender == c.sender) := List.mem_filter.mpr ⟨hc, by simp⟩
  rw [hs.sent] at hm
  cases hk : s.sub c.sender with
  | none => rw [hk] at hm; cases hm
  | some u =>
    rw [hk] at hm
    simp only [Option.elim_some, released] at hm
    split at hm
    · rename_i hr
      exact ⟨u, rfl, List.mem_singleton.mp hm, hs.heard _ u .truthy hk hr.1 (fun h => by cases h)⟩
    · cases hm

/-- What a step of one process keeps for the submission it starts or moves. -/
structure Advances (s : St) (k : Token) (v : Sub) (new : List Script) : Prop where
  unsent : v.granted = false → s.sets k = none
  heard : ∀ r, v.setReply = some r → r ≠ .raised → s.sets k = some r
  req : ∀ u, s.sub k = some u → v.req = u.req
  sent : released k v = (s.sub k).elim [] (released k) ++ new
  own : ∀ c ∈ new, c.sender = k

theorem Inv.starts {xs : List RunExecutor} {s : St} (hs : Inv xs s) {p i : Nat} {x : RunExecutor} {st : Executor.St}
    {req : RunRequest} {v : Sub} (hk : s.sub (p, i) = none) (hm : Moves x (Executor.fresh req) (.submit req) v) :
    Advances s (p, i) v (sends x st p (.submit req)) := by
  have hnone : v.setReply = none := by
    rcases moves_setReply hm with h | ⟨j, r, h, -⟩
    · exact h
    · cases h
  refine ⟨fun _ => ?_, fun r h _ => ?_, fun u hu => ?_, ?_, fun c hc => ?_⟩
  · exact hs.unsent _ fun u hu => by rw [hk] at hu; cases hu
  · rw [hnone] at h; cases h
  · rw [hk] at hu; cases hu
  · rw [hk, released_nil (Or.inl (by rw [hnone]; exact fun h => by cases h))]
    rfl
  · cases hc

theorem Inv.moves {xs : List RunExecutor} {s : St} (hs : Inv xs s) {p i : Nat} {x : RunExecutor} {st : Executor.St}
    {e : Executor.Ev} {u v : Sub} (hx : xs[p]? = some x) (hp : s.procs[p]? = some st) (ha : answered s p e = true)
    (he : e.index = some i) (hu : st.subs[i]? = some u) (hm : Moves x u e v) :
    Advances s (p, i) v (sends x st p e) := by
  have hk : s.sub (p, i) = some u := (subAt_of hp i).trans hu
  refine ⟨fun hg => ?_, fun r h hr => ?_, fun w hw => ?_, ?_, fun c hc => ?_⟩
  · refine hs.unsent _ fun w hw => ?_
    rw [hk] at hw
    cases hw
    exact Cluster.moves_granted hm hg
  · rcases moves_setReply hm with hold | ⟨j, r', hev, hnew⟩
    · exact hs.heard _ u r hk (hold ▸ h) hr
    · -- the reply is the one the server gave
      subst hev
      cases he
      rw [hnew] at h
      cases h
      cases r with
      | raised => exact absurd rfl hr
      | _ => simpa [answered] using ha
  · rw [hk] at hw
    cases hw
    exact Cluster.moves_req hm
  · rw [hk]
    exact released_move (hs.gate hx hp hu) he hu hm
  · obtain ⟨j, hj, hc⟩ := sends_sender hc
    rw [he] at hj
    cases hj
    exact hc

theorem inv_proc {xs : List RunExecutor} {s : St} {p : Nat} {x : RunExecutor} {st st' : Executor.St} {e : Executor.Ev}
    (hs : Inv xs s) (hx : xs[p]? = some x) (hp : s.procs[p]? = some st) (ha : answered s p e = true)
    (h : Executor.step x st e = some st') :
    Inv xs { s with procs := s.procs.set p st', scripts := s.scripts ++ sends x st p e } := by
  obtain ⟨i, v, hv, hrest, hcase⟩ := subAt_step hp h
  have hadv : Advances s (p, i) v (sends x st p e) := by
    rcases hcase with ⟨req, he, hk, hm⟩ | ⟨u, he, hk, hm⟩
    · subst he
      exact hs.starts hk hm
    · exact hs.moves hx hp ha he ((subAt_of hp i).symm.trans hk) hm
  refine ⟨?_, ?_, ?_, ?_, ?_, ?_, ?_⟩
  · intro q y t hy ht
    rcases (Tasks.get_move hp).mp ht with ⟨e₁, e₂⟩ | ⟨-, ht⟩
    · subst e₁ e₂
      cases hx.symm.trans hy
      exact (hs.runs q x st hx hp).tail _ trivial h
    · exact hs.runs q y t hy ht
  · intro k hk
    by_cases e : k = (p, i)
    · subst e
      exact hadv.unsent (hk v hv)
    · exact hs.unsent k fun u hu => hk u ((hrest k e).trans hu)
  · intro k u r hk
    rcases subAt_after hv hrest hk with ⟨e, e'⟩ | ⟨-, hk⟩
    · subst e; subst e'
      exact hadv.heard r
    · exact hs.heard k u r hk
  · intro key k hk
    obtain ⟨hset, u, hu, hkey⟩ := hs.owned key k hk
    refine ⟨hset, ?_⟩
    by_cases e : k = (p, i)
    · subst e
      exact ⟨v, hv, by rw [hadv.req u hu]; exact hkey⟩
    · exact ⟨u, (hrest k e).trans hu, hkey⟩
  · intro k
    show (s.scripts ++ sends x st p e).filter (·.sender == k) = (subAt (s.procs.set p st') k).elim [] (released k)
    rw [List.filter_append, hs.sent]
    by_cases e' : k = (p, i)
    · subst e'
      rw [Tasks.filter_own hadv.own, hv]
      exact hadv.sent.symm
    · rw [Tasks.filter_other fun c hc => (hadv.own c hc).trans_ne (Ne.symm e'), hrest k e', List.append_nil]
      rfl
  · intro n hn
    exact hs.pending n (by rw [List.length_append] at hn; omega)
  · intro n c hc he key
    by_cases hn : n < s.scripts.length
    · rw [List.getElem?_append_left hn] at hc
      exact hs.gone n c hc he key
    · have := hs.pending n (by omega)
      rw [this] at he
      cases he

theorem inv_redisSet {xs : List RunExecutor} {s : St} {k : Token} {u : Sub} (hs : Inv xs s) (hk : s.sub k = some u)
    (hg : u.granted = true) (hset : s.sets k = none) (ttl : Int) : Inv xs (execSet s k u.req.agentId ttl) := by
  -- only the entry of `k`, which was empty, changes in `sets`
  have hother : ∀ (r : Reply) (k' : Token), s.sets k' ≠ none → Function.update s.sets k (some r) k' = s.sets k' := by
    intro r k' h
    refine Function.update_of_ne (fun e => h ?_) _ _
    rw [e, hset]
  have hkeep : ∀ r, (∀ k', (∀ u, s.sub k' = some u → u.granted = false) → Function.update s.sets k (some r) k' = none) ∧
      ∀ k' w r', s.sub k' = some w → w.setReply = some r' → r' ≠ .raised →
        Function.update s.sets k (some r) k' = some r' := by
    intro r
    refine ⟨fun k' h => ?_, fun k' w r' hw hr hne => ?_⟩
    · have hne : k' ≠ k := fun e => by
        subst e
        have := h u hk
        rw [hg] at this
        cases this
      rw [Function.update_of_ne hne]
      exact hs.unsent k' h
    · have := hs.heard k' w r' hw hr hne
      rw [hother r k' (by rw [this]; exact fun h => by cases h)]
      exact this
  have howned : ∀ r key k', s.redis key = some k' → Function.update s.sets k (some r) k' = some .truthy ∧
      ∃ u, s.sub k' = some u ∧ key = lockKey u.req.agentId := by
    intro r key k' hr
    obtain ⟨ht, hu⟩ := hs.owned key k' hr
    exact ⟨by rw [hother r k' (by rw [ht]; exact fun h => by cases h)]; exact ht, hu⟩
  unfold execSet setNx
  split
  · exact ⟨hs.runs, (hkeep _).1, (hkeep _).2, howned _, hs.sent, hs.pending, hs.gone⟩
  · split
    · exact ⟨hs.runs, (hkeep _).1, (hkeep _).2, howned _, hs.sent, hs.pending, hs.gone⟩
    · refine ⟨hs.runs, (hkeep _).1, (hkeep _).2, ?_, hs.sent, hs.pending, ?_⟩
      · intro key k' hr
        by_cases e : key = lockKey u.req.agentId
        · subst e
          simp only [Function.update_self, Option.some.injEq] at hr
          subst hr
          exact ⟨Function.update_self _ _ _, u, hk, rfl⟩
        · simp only [Function.update_of_ne e] at hr
          exact howned _ key k' hr
      · intro n c hc he key hr
        by_cases e : key = lockKey u.req.agentId
        · -- the new owner has sent no script yet
          subst e
          simp only [Function.update_self, Option.some.injEq] at hr
          obtain ⟨w, -, hw, hsent⟩ := hs.script (List.mem_of_getElem? hc)
          have ht : c.token = c.sender := by rw [hw]; rfl
          rw [← ht, ← hr, hset] at hsent
          cases hsent
        · simp only [Function.update_of_ne e] at hr
          exact hs.gone n c hc he key hr

theorem luaCompareAndDelete_keeps {r : Keys} {key key' : String} {token k : Token}
    (h : (luaCompareAndDelete r key token).2 key' = some k) : r key' = some k ∧ ¬ (key' = key ∧ k = token) := by
  unfold luaCompareAndDelete at h
  split at h
  · by_cases e : key' = key
    · subst e
      simp at h
    · simp only [Function.update_of_ne e] at h
      exact ⟨h, fun hc => e hc.1⟩
  · rename_i hne
    refine ⟨h, fun ⟨e, e'⟩ => hne ?_⟩
    rw [← e, ← e']
    exact h

theorem inv_redisEval {xs : List RunExecutor} {s : St} {n : Nat} {c : Script} (hs : Inv xs s) (hc : s.scripts[n]? = some c) :
    Inv xs { s with redis := (luaCompareAndDelete s.redis c.key c.token).2, executed := Function.update s.executed n true } := by
  have hlt := (List.getElem?_eq_some_iff.mp hc).1
  refine ⟨hs.runs, hs.unsent, hs.heard, ?_, hs.sent, ?_, ?_⟩
  · intro key k hk
    exact hs.owned key k (luaCompareAndDelete_keeps hk).1
  · intro m hm
    have hne : m ≠ n := by
      have : s.scripts.length ≤ m := hm
      omega
    show Function.update s.executed n true m = false
    rw [Function.update_of_ne hne]
    exact hs.pending m hm
  · intro m d hd he key hk
    obtain ⟨hold, hnot⟩ := luaCompareAndDelete_keeps hk
    by_cases e : m = n
    · -- the only key that can hold this token is the script's own
      subst e
      cases hc.symm.trans hd
      obtain ⟨u, hu, hrel, -⟩ := hs.script (List.mem_of_getElem? hc)
      obtain ⟨-, w, hw, hkey⟩ := hs.owned key c.token hold
      have ht : c.token = c.sender := by rw [hrel]; rfl
      rw [ht, hu] at hw
      cases hw
      refine hnot ⟨?_, rfl⟩
      rw [hkey, hrel]
      rfl
    · simp only [Function.update_of_ne e] at he
      exact hs.gone m d hd he key hold

theorem inv_expire {xs : List RunExecutor} {s : St} (hs : Inv xs s) (key : String) :
    Inv xs { s with redis := Function.update s.redis key none } := by
  have hold : ∀ {key' : String} {k : Token}, Function.update s.redis key none key' = some k → s.redis key' = some k := by
    intro key' k h
    by_cases e : key' = key
    · subst e
      simp at h
    · rwa [Function.update_of_ne e] at h
  exact ⟨hs.runs, hs.unsent, hs.heard, fun _ k h => hs.owned _ k (hold h), hs.sent, hs.pending,
    fun n c hc he _ h => hs.gone n c hc he _ (hold h)⟩

theorem inv_init (xs : List RunExecutor) : Inv xs (init xs) := by
  have hsub : ∀ k, (init xs).sub k = none := by
    intro k
    cases hk : (init xs).sub k with
    | none => rfl
    | some u =>
      obtain ⟨st, hp, hi⟩ := Option.bind_eq_some_iff.mp hk
      obtain ⟨x, -, e⟩ := List.mem_map.mp (List.mem_of_getElem? hp)
      subst e
      cases hi
  refine ⟨?_, fun _ _ => rfl, ?_, ?_, ?_, fun _ _ => rfl, ?_⟩
  · intro p x st hx hp
    have : (xs.map Executor.init)[p]? = some (Executor.init x) := by simp [hx]
    cases this.symm.trans hp
    exact .refl _
  · intro k u r hk
    rw [hsub] at hk
    cases hk
  · intro key k hk
    cases hk
  · intro k
    rw [hsub]
    rfl
  · intro n c hc
    simp [init] at hc

theorem inv_step {xs : List RunExecutor} (s : St) (e : Ev) (t : St) (hs : Inv xs s) (h : step xs s e = some t) : Inv xs t := by
  cases step_cases h with
  | proc hx hp ha hst => exact inv_proc hs hx hp ha hst
  | redisSet ttl hk hg hn => exact inv_redisSet hs hk hg hn ttl
  | redisEval hc => exact inv_redisEval hs hc
  | expire key => exact inv_expire hs key

/-! ## Ownership -/

theorem setNx_keeps {r : Keys} {key key' : String} {token k : Token} (h : r key' = some k) :
    (setNx r key token).2 key' = some k := by
  unfold setNx
  split
  · exact h
  · rename_i hn
    have hne : key' ≠ key := fun e => hn (by rw [← e, h]; rfl)
    exact (Function.update_of_ne hne _ _).trans h

theorem luaCompareAndDelete_removes {r : Keys} {key key' : String} {token k : Token} (h : r key' = some k)
    (hr : (luaCompareAndDelete r key token).2 key' ≠ some k) :
    key' = key ∧ k = token ∧ (luaCompareAndDelete r key token).2 key' = none := by
  unfold luaCompareAndDelete at hr ⊢
  split
  · rename_i ht
    rw [if_pos ht] at hr
    by_cases e : key' = key
    · subst e
      exact ⟨rfl, Option.some.inj (h.symm.trans ht), Function.update_self _ _ _⟩
    · exact absurd ((Function.update_of_ne e _ _).trans h) hr
  · rename_i ht
    rw [if_neg ht] at hr
    exact absurd h hr

/-- The steps that take a key from its owner. -/
theorem removed_by {xs : List RunExecutor} {s t : St} {e : Ev} {key : String} {k : Token} (hs : Inv xs s)
    (h : step xs s e = some t) (hk : s.redis key = some k) (hn : t.redis key ≠ some k) :
    t.redis key = none ∧ (e = .expire key ∨
      ∃ n c, e = .redisEval n ∧ s.scripts[n]? = some c ∧ c.sender = k ∧ c.key = key ∧ c.token = k) := by
  cases step_cases h with
  | proc => exact absurd hk hn
  | redisSet =>
    refine absurd ?_ hn
    unfold execSet
    split
    · exact hk
    · exact setNx_keeps hk
  | @redisEval n c hc =>
    obtain ⟨hkey, htok, hnone⟩ := luaCompareAndDelete_removes hk hn
    obtain ⟨u, -, hrel, -⟩ := hs.script (List.mem_of_getElem? hc)
    have ht : c.sender = c.token := by rw [hrel]; rfl
    exact ⟨hnone, Or.inr ⟨n, c, rfl, hc, ht.trans htok.symm, hkey.symm, htok.symm⟩⟩
  | expire key' =>
    by_cases e : key = key'
    · subst e
      exact ⟨Function.update_self _ _ _, Or.inl rfl⟩
    · exact absurd ((Function.update_of_ne e _ _).trans hk) hn

/-- A lock key is removed by its expiry or by the script of the submission whose token it
    holds. A submission whose SET came back falsy sends no script; one that got the lock
    sends one, with its own key and token, once its run is over, and after the server has
    executed it no key holds that token. -/
theorem lock_released_by_owner {xs : List RunExecutor} {s : St} (h : Run (step xs) (fun _ _ => True) (init xs) s) :
    (∀ e t key k, step xs s e = some t → s.redis key = some k → t.redis key ≠ some k →
      t.redis key = none ∧ (e = .expire key ∨
        ∃ n c, e = .redisEval n ∧ s.scripts[n]? = some c ∧ c.sender = k ∧ c.key = key ∧ c.token = k)) ∧
    (∀ k u, s.sub k = some u → u.setReply = some .falsy → ∀ c ∈ s.scripts, c.sender ≠ k) ∧
    (∀ k u, s.sub k = some u → u.setReply = some .truthy →
      s.scripts.filter (·.sender == k) = if u.pc.past then [⟨k, lockKey u.req.agentId, k⟩] else []) ∧
    ∀ n c, s.scripts[n]? = some c → s.executed n = true → ∀ key, s.redis key ≠ some c.token := by
  have hs : Inv xs s := h.invariant (fun s e t hs _ h => inv_step s e t hs h) (inv_init xs)
  refine ⟨fun e t key k he hk hn => removed_by hs he hk hn, ?_, ?_, hs.gone⟩
  · intro k u hk hr c hc he
    have hm : c ∈ s.scripts.filter (·.sender == k) := List.mem_filter.mpr ⟨hc, by simp [he]⟩
    rw [hs.sent, hk, Option.elim_some, released_nil (Or.inl (by rw [hr]; exact fun h => by cases h))] at hm
    cases hm
  · intro k u hk hr
    rw [hs.sent, hk, Option.elim_some]
    unfold released
    cases hp : u.pc.past with
    | true => simp [hr, release]
    | false => simp

/-- The key of the first process expires during its run and the second one gets it; the
    first run is cancelled, and its script leaves the second one's key. -/
theorem lock_released_by_owner_foreign :
    ∃ s, Run (step Cluster.processes) (fun _ _ => True) (init Cluster.processes) s ∧
      s.redis "agent:lock:event-deduplicator" = some (1, 0) ∧ ∀ key, s.redis key ≠ some (0, 0) := by
  obtain ⟨s, hr, hp⟩ := Run.exists_of_exec (step Cluster.processes) (fun _ _ => True) (init Cluster.processes)
    [.proc 0 Executor.scheduled, .redisSet (0, 0), .proc 0 (.setReply 0 .truthy),
      .expire "agent:lock:event-deduplicator",
      .proc 1 Executor.scheduled, .redisSet (1, 0), .proc 1 (.setReply 0 .truthy),
      .proc 0 (.runEnd 0 .cancelled), .redisEval 0]
    (fun s => s.redis "agent:lock:event-deduplicator" == some (1, 0) && s.executed 0 &&
      s.scripts == [⟨(0, 0), "agent:lock:event-deduplicator", (0, 0)⟩]) (by decide)
  simp only [Bool.and_eq_true, beq_iff_eq] at hp
  obtain ⟨-, -, -, hgone⟩ := lock_released_by_owner hr
  exact ⟨s, hr, hp.1.1, hgone 0 ⟨(0, 0), "agent:lock:event-deduplicator", (0, 0)⟩ (by rw [hp.2]; rfl) hp.1.2⟩

end SagaAgents.Triggers.LockScript
