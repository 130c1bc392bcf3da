/-
  SagaAgents.Triggers.Fairness — the order in which one `RunExecutor` lets its submits run.

  Both semaphores hand their permits over in the order of their queues, and a submit joins
  the global queue when it is made. It joins its agent's queue when the event loop runs it
  with its global permit, so there the order can be another one; but everyone in that queue
  holds a global permit.

  Proved, over every run, with or without Redis, whatever ends the submits:
  - `served_in_order`: while a submit waits for a global permit, no later one has been given
    one.
  - `overtaken_by_few`: while a submit waits for its agent's permit, the submits of its agent
    that get past it are fewer than the global limit.
-/

import SagaAgents.Lib.SemaphoreOrder
import SagaAgents.Triggers.Permits

namespace SagaAgents.Triggers.Executor

open Lib Lib.Semaphore

variable {x : RunExecutor} {s t : St} {i j k : Nat} {u v w : Sub}

/-! ## What a step does to the semaphores -/

/-- Submit `i` does one thing to each semaphore. -/
structure Uses (i : Nat) (s t : St) : Prop where
  global : Op i s.globalSem t.globalSem
  agent : ∀ id, Op i (s.agentSems id) (t.agentSems id)

theorem op_update {f : String → Semaphore Nat} {id : String} {sem : Semaphore Nat} (h : Op i (f id) sem) (id' : String) :
    Op i (f id') (Function.update f id sem id') := by
  by_cases e : id' = id
  · subst e
    rw [Function.update_self]
    exact h
  · rw [Function.update_of_ne e]
    exact .same

theorem enterBody_sems (i : Nat) (u : Sub) (s : St) :
    (enterBody x i u s).globalSem = s.globalSem ∧ (enterBody x i u s).agentSems = s.agentSems := by
  unfold enterBody
  split <;> exact ⟨rfl, rfl⟩

theorem acquireAgent_sems (i : Nat) (u : Sub) (s : St) :
    (acquireAgent x i u s).globalSem = s.globalSem ∧ (acquireAgent x i u s).agentSems =
      Function.update s.agentSems u.req.agentId ((s.agentSems u.req.agentId).acquire i).2 := by
  simp only [acquireAgent]
  split
  · exact enterBody_sems _ _ _
  · exact ⟨rfl, rfl⟩

theorem acquireAgent_uses {sem : Semaphore Nat} (h : Op i s.globalSem sem) (u : Sub) (subs : List Sub) :
    Uses i s (acquireAgent x i u { s with globalSem := sem, subs := subs }) := by
  obtain ⟨hg, ha⟩ := acquireAgent_sems (x := x) i u { s with globalSem := sem, subs := subs }
  refine ⟨?_, fun id => ?_⟩
  · rw [hg]
    exact h
  · rw [ha]
    exact op_update .acquire id

theorem submit_uses (req : RunRequest) (s : St) : Uses s.subs.length s (submit x req s) := by
  unfold submit
  split
  · exact ⟨.same, fun _ => .same⟩
  · simp only [acquireGlobal]
    split
    · exact acquireAgent_uses .acquire _ _
    · exact ⟨.acquire, fun _ => .same⟩

theorem releaseBoth_uses (i : Nat) (u : Sub) (e : Ending) (s : St) : Uses i s (releaseBoth i u e s) :=
  ⟨.release, fun id => op_update .release id⟩

theorem move_uses {e : Ev} (h : move x s i u e = some t) : Uses i s t := by
  cases move_cases h with
  | resumeGlobal j hp hw => exact acquireAgent_uses (.resume hw) u s.subs
  | resumeAgent j hp hw =>
    obtain ⟨hg, ha⟩ := enterBody_sems (x := x) i u
      { s with agentSems := Function.update s.agentSems u.req.agentId ((s.agentSems u.req.agentId).resume i) }
    refine ⟨?_, fun id => ?_⟩
    · rw [hg]
      exact .same
    · rw [ha]
      exact op_update (.resume hw) id
  | setReply j r hp =>
    cases r with
    | truthy => exact ⟨.same, fun _ => .same⟩
    | falsy | raised => exact releaseBoth_uses _ _ _ _
  | runEnd j r hp =>
    unfold finishRun
    split
    · exact ⟨.same, fun _ => .same⟩
    · exact ⟨.release, fun id => op_update .release id⟩
  | evalReply j b e hp => exact ⟨.release, fun id => op_update .release id⟩
  | cancelGlobal j hp => exact ⟨.cancel, fun _ => .same⟩
  | cancelAgent j hp => exact ⟨.release, fun id => op_update .cancel id⟩
  | cancelCall j hp => exact releaseBoth_uses _ _ _ _

/-! ## Who is in a queue -/

theorem waits_global (h : Inv x s) (hi : s.subs[i]? = some u) (hp : u.pc = .waitGlobal) : i ∈ s.globalSem.tasks :=
  (h.global.queue i).mpr (by simp [hi, globalStand, hp, Pc.globalStand])

theorem waits_agent (h : Inv x s) (hi : s.subs[i]? = some u) (hp : u.pc = .waitAgent) :
    i ∈ (s.agentSems u.req.agentId).tasks :=
  ((h.agent _).queue i).mpr (by simp [hi, agentStand, hp, Pc.agentStand])

theorem waiters_of_task {sem : Semaphore Nat} (h : i ∈ sem.tasks) : sem.waiters ≠ [] := by
  intro e
  simp [Semaphore.tasks, e] at h

/-- A permit is had at once only where nobody is queued. -/
theorem acquired {sem : Semaphore Nat} (h : (sem.acquire i).1 = true) : sem.waiters = [] :=
  (acquire_now (Prod.ext h rfl : sem.acquire i = (true, (sem.acquire i).2))).2.1

/-- What the queue of a semaphore says of a waiter. -/
theorem not_handed {n : Nat} {cs : List Stand} {sem : Semaphore Nat} (h : Serves n cs sem) (hn : sem.isWoken i = false) :
    ¬ sem.Handed i := by
  rintro ⟨w, hm, ht, hw⟩
  have := h.isWoken_of_mem hm hw
  rw [ht, hn] at this
  cases this

/-! ## The global queue -/

/-- The submit has not got both permits, and is queued for the first one or has ended. -/
def Behind (v : Sub) : Prop := v.granted = false ∧ (v.pc = .waitGlobal ∨ ∃ e, v.pc = .ended e)

structure Ordered (s : St) : Prop where
  front : Front s.globalSem.waiters
  sorted : s.globalSem.tasks.Pairwise (· < ·)
  behind : ∀ i j u v, i < j → s.subs[i]? = some u → u.pc = .waitGlobal → ¬ s.globalSem.Handed i →
    s.subs[j]? = some v → Behind v

theorem ordered_init : Ordered (init x) :=
  ⟨List.Pairwise.nil, List.Pairwise.nil, fun _ _ _ _ _ h => by simp [init] at h⟩

/-- The indices in the queue are of submits that have been made. -/
theorem task_lt {n : Nat} {f : Sub → Stand} {sem : Semaphore Nat} (h : Serves n (s.subs.map f) sem) (hi : i ∈ sem.tasks) :
    i < s.subs.length := by
  have := (List.getElem?_eq_some_iff.mp ((h.queue i).mp hi)).1
  rwa [List.length_map] at this

theorem sorted_op {sem : Semaphore Nat} (hs : s.globalSem.tasks.Pairwise (· < ·)) (hop : Op i s.globalSem sem)
    (hlt : sem.tasks = s.globalSem.tasks ++ [i] → ∀ k ∈ s.globalSem.tasks, k < i) : sem.tasks.Pairwise (· < ·) := by
  rcases hop.tasks with e | e | e
  · rw [e]
    exact hs
  · rw [e]
    refine List.pairwise_append.mpr ⟨hs, List.pairwise_singleton _ _, fun k hk n hn => ?_⟩
    rw [List.mem_singleton.mp hn]
    exact hlt e k hk
  · rw [e]
    exact hs.sublist List.erase_sublist

/-- A submit that finds a queue joins it, or is turned away. -/
theorem submit_behind (req : RunRequest) (hne : s.globalSem.waiters ≠ []) :
    ∃ v, Behind v ∧ (submit x req s).subs = s.subs ++ [v] := by
  unfold submit
  split
  · exact ⟨(fresh req).to (.ended .skipped), ⟨rfl, Or.inr ⟨_, rfl⟩⟩, by simp [St.put]⟩
  · simp only [acquireGlobal]
    split
    · rename_i hacq
      exact absurd (acquired hacq) hne
    · exact ⟨(fresh req).to .waitGlobal, ⟨rfl, Or.inl rfl⟩, by simp [St.put]⟩

/-- A submit that is behind stays there unless it is handed a permit. -/
theorem move_behind {e : Ev} (h : move x s i u e = some t) (hu : Behind u) (hn : s.globalSem.isWoken i = false) :
    ∃ v, Behind v ∧ t.subs = s.subs.set i v := by
  rcases hu with ⟨hg, hp | ⟨d, hp⟩⟩
  · cases move_cases h with
    | resumeGlobal j _ hw => simp [hn] at hw
    | cancelGlobal j _ => exact ⟨u.to (.ended .cancelled), ⟨hg, Or.inr ⟨_, rfl⟩⟩, rfl⟩
    | cancelCall j hq => simp [hp] at hq
    | _ => simp_all
  · cases move_cases h with
    | cancelCall j hq => simp [hp] at hq
    | _ => simp_all

/-- Only a new submit joins the global queue. -/
theorem move_leaves {e : Ev} (h : move x s i u e = some t) (hi : s.subs[i]? = some u) (hv : t.subs[i]? = some v) :
    v.pc ≠ .waitGlobal := by
  obtain ⟨n, hmoves, hsubs⟩ := move_subs h
  rw [hsubs, Tasks.get_moved hi] at hv
  cases hv
  intro hp
  cases hmoves with
  | queueGlobal => cases h
  | _ => cases hp

theorem ordered_step {e : Ev} (hinv : Inv x s) (ho : Ordered s) (h : step x s e = some t) : Ordered t := by
  rcases step_move h with ⟨req, -, ht⟩ | ⟨k, u, he, hu, hm⟩
  · subst ht
    have hop := (submit_uses (x := x) req s).global
    have hlt : ∀ i ∈ s.globalSem.tasks, i < s.subs.length := fun i hi => task_lt hinv.global hi
    refine ⟨hop.front ho.front, sorted_op ho.sorted hop fun _ => hlt, fun i j u v hij hi hp hn hj => ?_⟩
    obtain ⟨n, hmoves, hsubs⟩ := submit_subs (x := x) req s
    rw [hsubs] at hi hj
    rcases Tasks.get_start.mp hi with hi | ⟨e, -⟩
    · have hmem := waits_global hinv hi hp
      have hnot : ¬ s.globalSem.Handed i := fun hh => hn (hop.handed hh (by have := hlt i hmem; omega))
      rcases Tasks.get_start.mp hj with hj | ⟨-, e⟩
      · exact ho.behind i j u v hij hi hp hnot hj
      · obtain ⟨v', hv, hsubs'⟩ := submit_behind (x := x) req (waiters_of_task hmem)
        have hsame : n = v' := by simpa using hsubs.symm.trans hsubs'
        rw [← e, hsame]
        exact hv
    · have := (List.getElem?_eq_some_iff.mp hj).1
      rw [List.length_append, List.length_singleton] at this
      omega
  · have hop := (move_uses hm).global
    refine ⟨hop.front ho.front, sorted_op ho.sorted hop fun e => ?_, fun i j u' v hij hi hp hn hj => ?_⟩
    · have hmem : k ∈ t.globalSem.tasks := by rw [e]; simp
      obtain ⟨v, hv, hst⟩ := by simpa using ((inv_move hinv hu hm).global.queue k).mp hmem
      refine absurd ?_ (move_leaves hm hu hv)
      cases hp : v.pc with
      | active p => cases p <;> simp [globalStand, hp, Pc.globalStand] at hst
      | waitGlobal => rfl
      | _ => simp [globalStand, hp, Pc.globalStand] at hst
    · obtain ⟨n, -, hsubs⟩ := move_subs hm
      have hik : i ≠ k := by
        intro e
        subst e
        exact move_leaves hm hu hi hp
      rw [hsubs, List.getElem?_set_ne (Ne.symm hik)] at hi
      have hnot : ¬ s.globalSem.Handed i := fun hh => hn (hop.handed hh hik)
      by_cases hjk : j = k
      · subst hjk
        have hold := ho.behind i j u' u hij hi hp hnot hu
        have hwait : s.globalSem.isWoken j = false := by
          by_contra hw
          have := woken_before ho.front ho.sorted (Bool.of_not_eq_false hw) (waits_global hinv hi hp) hnot
          omega
        obtain ⟨v', hv, hsubs'⟩ := move_behind hm hold hwait
        rw [hsubs', Tasks.get_moved hu] at hj
        cases hj
        exact hv
      · rw [hsubs, List.getElem?_set_ne (Ne.symm hjk)] at hj
        exact ho.behind i j u' v hij hi hp hnot hj

/-- While a submit waits for a global permit that it has not been handed, every later one
    waits for one too, or has ended without its run. -/
theorem served_in_order {ok : St → Ev → Prop} (h : Run (step x) ok (init x) s) (hij : i < j) (hi : s.subs[i]? = some u)
    (hp : u.pc = .waitGlobal) (hn : s.globalSem.isWoken i = false) (hj : s.subs[j]? = some v) :
    v.granted = false ∧ ((v.pc = .waitGlobal ∧ s.globalSem.isWoken j = false) ∨ ∃ e, v.pc = .ended e) := by
  have hboth : Inv x s ∧ Ordered s :=
    h.invariant (I := fun s => Inv x s ∧ Ordered s)
      (fun s e t hs _ h => ⟨inv_step s e t hs.1 h, ordered_step hs.1 hs.2 h⟩) ⟨inv_init x, ordered_init⟩
  obtain ⟨hinv, ho⟩ := hboth
  have hnot := not_handed hinv.global hn
  obtain ⟨hg, hq⟩ := ho.behind i j u v hij hi hp hnot hj
  refine ⟨hg, hq.imp (fun hq => ⟨hq, ?_⟩) id⟩
  by_contra hw
  have := woken_before ho.front ho.sorted (Bool.of_not_eq_false hw) (waits_global hinv hi hp) hnot
  omega

/-- Four submits, two permits: the third and the fourth wait. -/
theorem served_in_order_of_four :
    ∃ s, Run (step twoAgents) (fun _ _ => True) (init twoAgents) s ∧ ∃ v, s.subs[3]? = some v ∧ v.granted = false ∧
      ((v.pc = .waitGlobal ∧ s.globalSem.isWoken 3 = false) ∨ ∃ e, v.pc = .ended e) := by
  obtain ⟨s, hr, hp⟩ := Run.exists_of_exec (step twoAgents) (fun _ _ => True) (init twoAgents)
    (threeSubmits ++ [.submit ⟨"summarizer", "schedule"⟩])
    (fun s => s.subs[2]?.any (·.pc == .waitGlobal) && !s.globalSem.isWoken 2 && s.subs[3]?.isSome) (by decide)
  simp only [Bool.and_eq_true, Option.any_eq_true, beq_iff_eq, Bool.not_eq_true'] at hp
  obtain ⟨⟨⟨u, hu, hw⟩, hn⟩, hsome⟩ := hp
  obtain ⟨v, hv⟩ := Option.isSome_iff_exists.mp hsome
  exact ⟨s, hr, v, hv, served_in_order hr (by decide : (2 : Nat) < 3) hu hw hn hv⟩

/-! ## The queue of an agent -/

/-- The submit of the agent has had both permits. -/
def hasGrant (s : St) (agentId : String) (k : Nat) : Bool := (s.subs[k]?).any fun u => u.granted && u.req.agentId == agentId

/-- The submits of the agent that have got both permits between two states. -/
def overtaking (s t : St) (agentId : String) : List Nat :=
  (List.range t.subs.length).filter fun k => hasGrant t agentId k && !hasGrant s agentId k

/-- A submit gets its second permit from its agent's semaphore: it was handed over, or it was
    free and nobody was queued. -/
theorem submit_grants (req : RunRequest) (hv : (submit x req s).subs = s.subs ++ [v]) (hg : v.granted = true) :
    (s.agentSems req.agentId).waiters = [] := by
  unfold submit at hv
  split at hv
  · have e : (fresh req).to (.ended .skipped) = v := by simpa [St.put] using hv
    rw [← e] at hg
    cases hg
  · simp only [acquireGlobal] at hv
    split at hv
    · simp only [acquireAgent] at hv
      split at hv
      · rename_i ha
        exact acquired ha
      · have e : (fresh req).to .waitAgent = v := by simpa [St.put] using hv
        rw [← e] at hg
        cases hg
    · have e : (fresh req).to .waitGlobal = v := by simpa [St.put] using hv
      rw [← e] at hg
      cases hg

theorem move_grants {e : Ev} (h : move x s i u e = some t) (hi : s.subs[i]? = some u) (hv : t.subs[i]? = some v)
    (hu : u.granted = false) (hg : v.granted = true) :
    (s.agentSems u.req.agentId).isWoken i = true ∨ (s.agentSems u.req.agentId).waiters = [] := by
  have hsame : ∀ v', t.subs = s.subs.set i v' → v'.granted = u.granted → False := by
    intro v' e hgrant
    rw [e, Tasks.get_moved hi] at hv
    cases hv
    rw [hgrant, hu] at hg
    cases hg
  cases move_cases h with
  | resumeGlobal j hp hw =>
    right
    by_contra hne
    have hacq : ((s.agentSems u.req.agentId).acquire i).1 = false := by
      by_contra ha
      exact hne (acquired (Bool.of_not_eq_false ha))
    refine hsame (u.to .waitAgent) ?_ rfl
    simp only [acquireAgent, hacq]
    rfl
  | resumeAgent j hp hw => exact Or.inl hw
  | setReply j r hp => cases r <;> exact (hsame _ rfl rfl).elim
  | runEnd j r hp =>
    refine (?_ : False).elim
    unfold finishRun at hsame
    split at hsame
    · exact hsame _ rfl rfl
    · exact hsame _ rfl rfl
  | evalReply j b e hp | cancelGlobal j hp | cancelAgent j hp | cancelCall j hp => exact (hsame _ rfl rfl).elim

/-- What becomes of submit `i` and of the queue in front of it, from one state to another. -/
structure Waited (i : Nat) (s t : St) : Prop where
  /-- The submit stays what it is and only goes on. -/
  goes : ∀ u, s.subs[i]? = some u → ∃ w, t.subs[i]? = some w ∧ w.req = u.req ∧ w.pc.rank ≤ u.pc.rank
  /-- While it is queued for its agent, nobody gets in front of it, and who gets past it was
      in front. -/
  queue : ∀ u w, s.subs[i]? = some u → u.pc = .waitAgent → t.subs[i]? = some w → w.pc = .waitAgent →
    ((s.agentSems u.req.agentId).Handed i → (t.agentSems u.req.agentId).Handed i) ∧
      (∀ k ∈ (t.agentSems u.req.agentId).ahead i, k ∈ (s.agentSems u.req.agentId).ahead i) ∧
      (¬ (t.agentSems u.req.agentId).Handed i → ∀ k, hasGrant t u.req.agentId k = true →
        hasGrant s u.req.agentId k = false → k ∈ (s.agentSems u.req.agentId).ahead i)

theorem waited_refl (i : Nat) (s : St) : Waited i s s := by
  refine ⟨fun u hu => ⟨u, hu, rfl, le_refl _⟩, fun u w _ _ _ _ => ⟨id, fun _ h => h, fun _ k h hn => ?_⟩⟩
  rw [h] at hn
  cases hn

theorem rank_waitAgent {pc : Pc} (h : pc.rank = 4) : pc = .waitAgent := by
  cases pc <;> simp_all [Pc.rank]

theorem waited_trans {r : St} (h : Waited i s t) (h' : Waited i t r) : Waited i s r := by
  refine ⟨fun u hu => ?_, fun u w hu hp hw hq => ?_⟩
  · obtain ⟨v, hv, hr, hle⟩ := h.goes u hu
    obtain ⟨w, hw, hr', hle'⟩ := h'.goes v hv
    exact ⟨w, hw, hr'.trans hr, hle'.trans hle⟩
  · obtain ⟨v, hv, hr, hle⟩ := h.goes u hu
    obtain ⟨w', hw', -, hle'⟩ := h'.goes v hv
    cases hw.symm.trans hw'
    -- it was queued in between, too
    have hvp : v.pc = .waitAgent := by
      refine rank_waitAgent ?_
      rw [hp] at hle
      rw [hq] at hle'
      exact Nat.le_antisymm hle hle'
    obtain ⟨hh, ha, hg⟩ := h.queue u v hu hp hv hvp
    obtain ⟨hh', ha', hg'⟩ := h'.queue v w hv hvp hw hq
    rw [hr] at hh' ha' hg'
    refine ⟨fun hs => hh' (hh hs), fun k hk => ha k (ha' k hk), fun hn k hk hnk => ?_⟩
    cases hmid : hasGrant t u.req.agentId k with
    | true => exact hg (fun hs => hn (hh' hs)) k hmid hnk
    | false => exact ha k (hg' hn k hk hmid)

theorem hasGrant_of {agentId : String} (hk : s.subs[k]? = some u) : hasGrant s agentId k = (u.granted && u.req.agentId == agentId) := by
  simp [hasGrant, hk]

/-- A step of another submit. -/
theorem waited_other (hinv : Inv x s) (hf : ∀ id, Front (s.agentSems id).waiters) (hop : Uses k s t) (hik : i ≠ k)
    (hrest : ∀ j, j ≠ k → t.subs[j]? = s.subs[j]?)
    (hgrant : ∀ id, hasGrant t id k = true → hasGrant s id k = false →
      (s.agentSems id).isWoken k = true ∨ (s.agentSems id).waiters = []) : Waited i s t := by
  refine ⟨fun u hu => ⟨u, by rwa [hrest i hik], rfl, le_refl _⟩, fun u w hu hp hw hq => ?_⟩
  have hmem := waits_agent hinv hu hp
  have hhand : (s.agentSems u.req.agentId).Handed i → (t.agentSems u.req.agentId).Handed i :=
    fun h => (hop.agent _).handed h hik
  refine ⟨hhand, (hop.agent _).ahead hmem hik, fun hn j hj hnj => ?_⟩
  have hjk : j = k := by
    by_contra hne
    rw [hasGrant, hrest j hne] at hj
    rw [hasGrant, hj] at hnj
    cases hnj
  subst hjk
  rcases hgrant _ hj hnj with hwok | hnil
  · exact ahead_of_woken (hf _) hwok fun hs => hn (hhand hs)
  · exact absurd hnil (waiters_of_task hmem)

theorem moves_goes {e : Ev} (h : Moves x u e v) : v.req = u.req ∧ v.pc.rank ≤ u.pc.rank := by
  have hacq : u.pc.acquiring → 4 ≤ u.pc.rank := by
    intro hp
    cases hpc : u.pc <;> simp_all [Pc.acquiring, Pc.rank]
  cases h with
  | queueAgent hp _ => exact ⟨rfl, hacq hp⟩
  | lock hp _ _ | start hp _ _ => exact ⟨rfl, le_trans (by simp [Pc.rank]) (hacq hp)⟩
  | skip hp _ | queueGlobal hp _ | locked hp | lockHeld hp | setRaises hp | unlock hp _ | finish hp _ | unlocked _ hp =>
    exact ⟨rfl, by rw [hp]; simp [Pc.rank]⟩
  | cancelled hp => exact ⟨rfl, Nat.zero_le _⟩

/-- A step of the submit itself: it is not queued any more. -/
theorem waited_self {e : Ev} (h : move x s i u e = some t) (hi : s.subs[i]? = some u) : Waited i s t := by
  obtain ⟨n, hmoves, hsubs⟩ := move_subs h
  have hn : t.subs[i]? = some n := by rw [hsubs, Tasks.get_moved hi]
  refine ⟨fun u' hu' => ?_, fun u' w hu' hp hw hq => ?_⟩
  · cases hi.symm.trans hu'
    exact ⟨n, hn, moves_goes hmoves⟩
  · cases hi.symm.trans hu'
    exfalso
    have hset : ∀ v', t.subs = s.subs.set i v' → v'.pc ≠ .waitAgent → False := by
      intro v' e hne
      rw [e, Tasks.get_moved hi] at hw
      cases hw
      exact hne hq
    cases move_cases h with
    | resumeAgent j _ hwok =>
      unfold enterBody at hset
      split at hset
      · exact hset _ rfl (fun h => (by cases h))
      · exact hset _ rfl (fun h => (by cases h))
    | cancelAgent j _ => exact hset _ rfl (fun h => (by cases h))
    | cancelCall j hc => simp [hp] at hc
    | _ => simp_all

theorem waited_step {e : Ev} (hinv : Inv x s) (hf : ∀ id, Front (s.agentSems id).waiters) (h : step x s e = some t) (i : Nat)
    (hi : i < s.subs.length) : Waited i s t := by
  rcases step_move h with ⟨req, -, ht⟩ | ⟨k, u, -, hu, hm⟩
  · subst ht
    obtain ⟨v, hmoves, hsubs⟩ := submit_subs (x := x) req s
    refine waited_other hinv hf (submit_uses req s) (Nat.ne_of_lt hi) (fun j hj => ?_) fun id hg _ => ?_
    · rw [hsubs]
      rcases Nat.lt_or_gt_of_ne hj with hlt | hgt
      · exact List.getElem?_append_left hlt
      · rw [List.getElem?_eq_none (by simp; omega), List.getElem?_eq_none (by omega)]
    · have hget : (submit x req s).subs[s.subs.length]? = some v := by rw [hsubs]; simp
      rw [hasGrant_of hget, Bool.and_eq_true, beq_iff_eq] at hg
      have hreq : v.req = req := (moves_goes hmoves).1
      rw [hreq] at hg
      rw [← hg.2]
      exact Or.inr (submit_grants req hsubs hg.1)
  · obtain ⟨v, hmoves, hsubs⟩ := move_subs hm
    by_cases hik : i = k
    · subst hik
      exact waited_self hm hu
    · refine waited_other hinv hf (move_uses hm) hik (fun j hj => ?_) fun id hg hng => ?_
      · rw [hsubs, List.getElem?_set_ne (Ne.symm hj)]
      · have hget : t.subs[k]? = some v := by rw [hsubs, Tasks.get_moved hu]
        rw [hasGrant_of hget, Bool.and_eq_true, beq_iff_eq, (moves_goes hmoves).1] at hg
        rw [hasGrant_of hu, hg.2, beq_self_eq_true, Bool.and_true] at hng
        rw [← hg.2]
        exact move_grants hm hu hget hng hg.1

theorem fronts_step {e : Ev} (hf : ∀ id, Front (s.agentSems id).waiters) (h : step x s e = some t) (id : String) :
    Front (t.agentSems id).waiters := by
  rcases step_move h with ⟨req, -, ht⟩ | ⟨k, u, -, -, hm⟩
  · subst ht
    exact ((submit_uses req s).agent id).front (hf id)
  · exact ((move_uses hm).agent id).front (hf id)

theorem fronts_run {ok : St → Ev → Prop} (h : Run (step x) ok (init x) s) :
    Inv x s ∧ ∀ id, Front (s.agentSems id).waiters :=
  h.invariant (I := fun s => Inv x s ∧ ∀ id, Front (s.agentSems id).waiters)
    (fun s e t hs _ h => ⟨inv_step s e t hs.1 h, fronts_step hs.2 h⟩) ⟨inv_init x, fun _ => List.Pairwise.nil⟩

/-- Everyone in an agent's queue holds a global permit. -/
theorem queue_le_global (h : Inv x s) (id : String) : (s.agentSems id).tasks.length ≤ x.globalLimit := by
  rw [(h.agent id).queue_length, List.count, List.countP_map]
  refine countP_le_permits h.global (p := fun u => agentStand id u == .queued) fun u hu => ?_
  have hq := (queued_agent (by simpa using hu)).2
  simp [globalStand, hq, Pc.globalStand]

/-- While a submit is queued for its agent's permit and has not been handed it, fewer than
    `global_limit` submits of its agent get past it. -/
theorem overtaken_by_few {ok : St → Ev → Prop} (h : Run (step x) ok (init x) s) (hst : Run (step x) ok s t)
    (hu : s.subs[i]? = some u) (hp : u.pc = .waitAgent) (hw : t.subs[i]? = some w) (hq : w.pc = .waitAgent)
    (hn : (t.agentSems u.req.agentId).isWoken i = false) :
    (∀ k ∈ overtaking s t u.req.agentId, k ∈ (s.agentSems u.req.agentId).ahead i) ∧
      (overtaking s t u.req.agentId).length < x.globalLimit := by
  obtain ⟨hinv, hf⟩ := fronts_run h
  have hlt : i < s.subs.length := (List.getElem?_eq_some_iff.mp hu).1
  have hwaited : Waited i s t := by
    refine hst.relate (I := fun s => (Inv x s ∧ ∀ id, Front (s.agentSems id).waiters) ∧ i < s.subs.length)
      (fun s e t hs _ h => ⟨⟨inv_step s e t hs.1.1 h, fronts_step hs.1.2 h⟩, ?_⟩) (waited_refl i)
      (fun _ _ _ => waited_trans) (fun s e t hs _ h => waited_step hs.1.1 hs.1.2 h i hs.2) ⟨⟨hinv, hf⟩, hlt⟩
    rcases step_subs h with ⟨req, v, -, -, e⟩ | ⟨k, u, v, -, -, -, e⟩
    · rw [e, List.length_append]
      exact Nat.lt_add_right _ hs.2
    · rw [e, List.length_set]
      exact hs.2
  obtain ⟨-, -, hgrants⟩ := hwaited.queue u w hu hp hw hq
  obtain ⟨w', hw', hr, -⟩ := hwaited.goes u hu
  have hinvt : Inv x t := inv_run hst hinv
  have hnot : ¬ (t.agentSems u.req.agentId).Handed i := not_handed (hinvt.agent _) hn
  have hahead : ∀ k ∈ overtaking s t u.req.agentId, k ∈ (s.agentSems u.req.agentId).ahead i := by
    intro k hk
    have hk := (List.mem_filter.mp hk).2
    simp only [Bool.and_eq_true, Bool.not_eq_true'] at hk
    exact hgrants hnot k hk.1 hk.2
  refine ⟨hahead, ?_⟩
  -- they and the submit itself stood in the queue
  have hnodup : (i :: overtaking s t u.req.agentId).Nodup :=
    List.nodup_cons.mpr ⟨fun hm => (mem_ahead (hahead i hm)).2 rfl, List.nodup_range.filter _⟩
  have hsub : i :: overtaking s t u.req.agentId ⊆ (s.agentSems u.req.agentId).tasks := by
    intro k hk
    rcases List.mem_cons.mp hk with e | hk
    · rw [e]
      exact waits_agent hinv hu hp
    · exact (mem_ahead (hahead k hk)).1
  have hlen := hnodup.length_le_of_subset hsub
  have := queue_le_global hinv u.req.agentId
  rw [List.length_cons] at hlen
  omega

/-! Three global permits and one for the agent: two submits are queued when the first run
    ends, and the first of them gets past the other. -/

def threePermits : RunExecutor := { oneAgent with globalLimit := 3, redis := false }

def queued (k : Nat) (s : St) : Bool := (s.subs[k]?).any (·.pc == .waitAgent)

/-- The third submit is queued, and after these events it still is. -/
def firstGoes (s : St) : Bool :=
  queued 2 s && (exec (step threePermits) (fun _ _ => True) s [.runEnd 0 (.report true), .resumeAgent 1]).any fun t =>
    queued 2 t && !(t.agentSems "event-deduplicator").isWoken 2 && overtaking s t "event-deduplicator" == [1]

theorem overtaken_by_few_one :
    ∃ s t, Run (step threePermits) (fun _ _ => True) (init threePermits) s ∧ Run (step threePermits) (fun _ _ => True) s t ∧
      overtaking s t "event-deduplicator" = [1] ∧ (overtaking s t "event-deduplicator").length < threePermits.globalLimit := by
  obtain ⟨s, hr, hp⟩ := Run.exists_of_exec (step threePermits) (fun _ _ => True) (init threePermits)
    [scheduled, scheduled, scheduled] (fun s => firstGoes s && s.subs[2]?.any (·.req.agentId == "event-deduplicator")) (by decide)
  rw [Bool.and_eq_true, firstGoes, Bool.and_eq_true, queued] at hp
  obtain ⟨⟨hq, hgoes⟩, hid⟩ := hp
  obtain ⟨t, hrt, hpt⟩ := Run.exists_of_exec _ _ _ _ _ hgoes
  simp only [queued, Bool.and_eq_true, Option.any_eq_true, beq_iff_eq, Bool.not_eq_true'] at hq hid hpt
  obtain ⟨u, hu, hw⟩ := hq
  obtain ⟨u', hu', hid⟩ := hid
  cases hu.symm.trans hu'
  obtain ⟨⟨⟨w, hwt, hwp⟩, hn⟩, ho⟩ := hpt
  refine ⟨s, t, hr, hrt, ho, ?_⟩
  have hfew := overtaken_by_few hr hrt hu hw hwt hwp (by rw [hid]; exact hn)
  rw [hid] at hfew
  exact hfew.2

end SagaAgents.Triggers.Executor
