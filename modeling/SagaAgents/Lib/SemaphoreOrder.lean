/-
  Lib.SemaphoreOrder — the order in which a FIFO semaphore serves its queue.

  A permit goes to the first task in the queue that has none, and a task joins the queue at
  its end. So the woken tasks stand at the front (`Front`), what is ahead of a task in the
  queue only gets less (`Op.ahead`), and a task that leaves the queue with a permit was
  ahead of every one that has none (`ahead_of_woken`). `Op i` is what task `i` does to the
  semaphore in one step.
-/

import Mathlib.Data.List.Induction
import Mathlib.Data.List.TakeWhile
import SagaAgents.Lib.Semaphore

namespace Lib.Semaphore

variable {τ : Type*}

/-- The woken tasks stand in front of the others. -/
def Front (ws : List (Waiter τ)) : Prop := ws.Pairwise fun v w => w.woken = true → v.woken = true

/-- The task has been handed a permit, and has not run since. -/
def Handed (s : Semaphore τ) (t : τ) : Prop := ∃ w ∈ s.waiters, w.task = t ∧ w.woken = true

/-! ## Waking keeps the order -/

theorem wakeFirst_front {ws ws' : List (Waiter τ)} (hf : Front ws) (h : wakeFirst ws = some ws') : Front ws' := by
  induction ws generalizing ws' with
  | nil => cases h
  | cons w ws ih =>
    obtain ⟨hhead, hrest⟩ := List.pairwise_cons.mp hf
    simp only [wakeFirst] at h
    split at h
    · rename_i hw
      obtain ⟨vs, hv, e⟩ := Option.map_eq_some_iff.mp h
      subst e
      exact List.pairwise_cons.mpr ⟨fun _ _ _ => hw, ih hrest hv⟩
    · cases h
      exact List.pairwise_cons.mpr ⟨fun _ _ _ => rfl, hrest⟩

theorem wakeLoop_front : ∀ (v : Nat) (ws : List (Waiter τ)), Front ws → Front (wakeLoop v ws).waiters
  | 0, _, h => h
  | v + 1, ws, h => by
    simp only [wakeLoop]
    split
    · exact h
    · rename_i ws' hs
      exact wakeLoop_front v ws' (wakeFirst_front h hs)

/-- Nobody is put back to sleep. -/
theorem wakeFirst_woken {ws ws' : List (Waiter τ)} (h : wakeFirst ws = some ws') {w : Waiter τ} (hm : w ∈ ws)
    (hw : w.woken = true) : w ∈ ws' := by
  induction ws generalizing ws' with
  | nil => cases hm
  | cons v ws ih =>
    simp only [wakeFirst] at h
    split at h
    · obtain ⟨vs, hv, e⟩ := Option.map_eq_some_iff.mp h
      subst e
      rcases List.mem_cons.mp hm with e | hm
      · subst e
        exact List.mem_cons_self
      · exact List.mem_cons_of_mem _ (ih hv hm)
    · rename_i hv
      cases h
      rcases List.mem_cons.mp hm with e | hm
      · subst e
        exact absurd hw hv
      · exact List.mem_cons_of_mem _ hm

theorem wakeLoop_woken : ∀ (v : Nat) (ws : List (Waiter τ)) {w : Waiter τ}, w ∈ ws → w.woken = true →
    w ∈ (wakeLoop v ws).waiters
  | 0, _, _, hm, _ => hm
  | v + 1, ws, w, hm, hw => by
    simp only [wakeLoop]
    split
    · exact hm
    · rename_i ws' hs
      exact wakeLoop_woken v ws' (wakeFirst_woken hs hm hw) hw

/-! ## What one task does -/

theorem acquire_waiters (s : Semaphore τ) (i : τ) :
    (s.acquire i).2.waiters = s.waiters ∨ (s.acquire i).2.waiters = s.waiters ++ [⟨i, false⟩] := by
  unfold acquire
  split
  · exact Or.inr rfl
  · exact Or.inl rfl

variable [DecidableEq τ]

inductive Op (i : τ) (s : Semaphore τ) : Semaphore τ → Prop
  | same : Op i s s
  | acquire : Op i s (s.acquire i).2
  | release : Op i s s.release
  | resume (hw : s.isWoken i = true) : Op i s (s.resume i)
  | cancel : Op i s (s.cancel i)

variable {s s' : Semaphore τ} {i j : τ}

theorem Op.tasks (h : Op i s s') : s'.tasks = s.tasks ∨ s'.tasks = s.tasks ++ [i] ∨ s'.tasks = s.tasks.erase i := by
  cases h with
  | same => exact Or.inl rfl
  | acquire =>
    rcases acquire_waiters s i with e | e
    · exact Or.inl (congrArg (List.map Waiter.task) e)
    · right; left
      exact (congrArg (List.map Waiter.task) e).trans (List.map_append ..)
  | release => exact Or.inl (tasks_release s)
  | resume => exact Or.inr (Or.inr (tasks_resume s i))
  | cancel => exact Or.inr (Or.inr (tasks_cancel s i))

theorem dequeue_front (h : Front s.waiters) (i : τ) : Front (s.dequeue i) := h.sublist (List.eraseP_sublist ..)

theorem Op.front (hf : Front s.waiters) (h : Op i s s') : Front s'.waiters := by
  cases h with
  | same => exact hf
  | acquire =>
    rcases acquire_waiters s i with e | e
    · rw [e]
      exact hf
    · rw [e]
      refine List.pairwise_append.mpr ⟨hf, List.pairwise_singleton _ _, fun v _ w hw hk => ?_⟩
      rw [List.mem_singleton.mp hw] at hk
      cases hk
  | release =>
    unfold Semaphore.release
    split
    · exact hf
    · rename_i ws hs
      exact wakeFirst_front hf hs
  | resume => exact wakeLoop_front _ _ (dequeue_front hf i)
  | cancel => exact wakeLoop_front _ _ (dequeue_front hf i)

theorem mem_dequeue {w : Waiter τ} (hm : w ∈ s.waiters) (hne : w.task ≠ i) : w ∈ s.dequeue i :=
  (List.mem_eraseP_of_neg (by simpa using hne)).mpr hm

/-- The permit of another task is not taken from it. -/
theorem Op.handed (h : Op i s s') (hj : s.Handed j) (hne : j ≠ i) : s'.Handed j := by
  obtain ⟨w, hm, ht, hw⟩ := hj
  refine ⟨w, ?_, ht, hw⟩
  have hwi : w.task ≠ i := by rwa [ht]
  cases h with
  | same => exact hm
  | acquire =>
    rcases acquire_waiters s i with e | e
    · rw [e]
      exact hm
    · rw [e]
      exact List.mem_append_left _ hm
  | release =>
    unfold Semaphore.release
    split
    · exact hm
    · rename_i ws hs
      exact wakeFirst_woken hs hm hw
  | resume => exact wakeLoop_woken _ _ (mem_dequeue hm hwi) hw
  | cancel => exact wakeLoop_woken _ _ (mem_dequeue hm hwi) hw

/-! ## Who is ahead -/

def ahead (s : Semaphore τ) (j : τ) : List τ := s.tasks.takeWhile (· != j)

theorem mem_ahead (hk : i ∈ s.ahead j) : i ∈ s.tasks ∧ i ≠ j :=
  ⟨(List.takeWhile_sublist _).mem hk, by simpa using List.mem_takeWhile_imp hk⟩

theorem takeWhile_erase {l : List τ} {i j k : τ} (hne : i ≠ j) (hk : k ∈ (l.erase i).takeWhile (· != j)) :
    k ∈ l.takeWhile (· != j) := by
  induction l with
  | nil => cases hk
  | cons x l ih =>
    by_cases hx : x = i
    · subst hx
      rw [List.erase_cons_head] at hk
      rw [List.takeWhile_cons_of_pos (by simpa using hne)]
      exact List.mem_cons_of_mem _ hk
    · rw [List.erase_cons_tail (by simpa using hx)] at hk
      by_cases hj : x = j
      · subst hj
        rw [List.takeWhile_cons_of_neg (by simp)] at hk
        cases hk
      · have hpos : (x != j) = true := by simpa using hj
        rw [List.takeWhile_cons_of_pos (p := (· != j)) hpos] at hk ⊢
        rcases List.mem_cons.mp hk with e | hk
        · exact List.mem_cons.mpr (Or.inl e)
        · exact List.mem_cons_of_mem _ (ih hk)

/-- Nobody gets in front of a task that waits. -/
theorem Op.ahead (h : Op i s s') (hj : j ∈ s.tasks) (hne : j ≠ i) : ∀ k ∈ s'.ahead j, k ∈ s.ahead j := by
  intro k hk
  unfold Semaphore.ahead at hk ⊢
  rcases h.tasks with e | e | e
  · rwa [e] at hk
  · rw [e, List.takeWhile_append, if_neg] at hk
    · exact hk
    · intro hlen
      have hall := List.takeWhile_eq_self_iff.mp (List.Sublist.eq_of_length (List.takeWhile_sublist _) hlen)
      simpa using hall j hj
  · rw [e] at hk
    exact takeWhile_erase (Ne.symm hne) hk

/-- A woken task was ahead of every one in the queue that is not. -/
theorem ahead_of_woken (hf : Front s.waiters) (hi : s.isWoken i = true) (hn : ¬ s.Handed j) : i ∈ s.ahead j := by
  obtain ⟨w, hfind, hw⟩ := isWoken_find hi
  obtain ⟨hwi, l, r, hs, -⟩ := dequeue_split hfind
  have hfront := hf
  rw [Front, hs, List.pairwise_append] at hfront
  have hl : ∀ k ∈ l.map Waiter.task, (k != j) = true := by
    intro k hk
    obtain ⟨v, hv, e⟩ := List.mem_map.mp hk
    simp only [bne_iff_ne]
    intro ekj
    refine hn ⟨v, by rw [hs]; exact List.mem_append_left _ hv, e.trans ekj, ?_⟩
    exact hfront.2.2 v hv w List.mem_cons_self hw
  have hij : (i != j) = true := by
    simp only [bne_iff_ne]
    intro e
    exact hn ⟨w, by rw [hs]; simp, hwi.trans e, hw⟩
  have htasks : s.tasks = l.map Waiter.task ++ i :: r.map Waiter.task := by
    rw [Semaphore.tasks, hs, List.map_append, List.map_cons, hwi]
  rw [Semaphore.ahead, htasks, List.takeWhile_append_of_pos hl, List.takeWhile_cons_of_pos (p := (· != j)) hij]
  exact List.mem_append_right _ List.mem_cons_self

/-- In a queue that stands in order of arrival, a task that waits is behind all woken ones. -/
theorem woken_before {s : Semaphore Nat} {i j : Nat} (hf : Front s.waiters) (hs : s.tasks.Pairwise (· < ·))
    (hi : s.isWoken i = true) (hj : j ∈ s.tasks) (hn : ¬ s.Handed j) : i < j := by
  have hmem := ahead_of_woken hf hi hn
  obtain ⟨l, r, e⟩ := List.append_of_mem hj
  rw [e, List.pairwise_append] at hs
  have hout : ∀ k ∈ l, (k != j) = true := fun k hk => by
    simpa using ne_of_lt (hs.2.2 k hk j List.mem_cons_self)
  rw [ahead, e, List.takeWhile_append_of_pos hout, List.takeWhile_cons_of_neg (by simp), List.append_nil] at hmem
  exact hs.2.2 i hmem j List.mem_cons_self

/-! ## How many wait -/

theorem count_range (cs : List Stand) (c : Stand) : (List.range cs.length).countP (fun i => cs[i]? == some c) = cs.count c := by
  induction cs using List.reverseRecOn with
  | nil => rfl
  | append_singleton cs a ih =>
    rw [List.length_append, List.length_singleton, List.range_succ, List.countP_append, List.count_append, ← ih]
    congr 1
    · refine List.countP_congr fun i hi => ?_
      rw [List.getElem?_append_left (List.mem_range.mp hi)]
    · simp [List.count_cons]

/-- The queue of a semaphore is as long as the tasks that stand in it are many. -/
theorem Serves.queue_length {n : Nat} {cs : List Stand} {s : Semaphore Nat} (h : Serves n cs s) :
    s.tasks.length = cs.count .queued := by
  rw [← count_range, List.countP_eq_length_filter]
  refine List.Perm.length_eq ((List.perm_ext_iff_of_nodup h.nodup (List.nodup_range.filter _)).mpr fun i => ?_)
  rw [h.queue i, List.mem_filter, List.mem_range, beq_iff_eq]
  constructor
  · intro hi
    exact ⟨(List.getElem?_eq_some_iff.mp hi).1, hi⟩
  · intro hi
    exact hi.2

end Lib.Semaphore
