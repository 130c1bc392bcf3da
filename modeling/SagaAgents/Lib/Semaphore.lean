/-
  Lib.Semaphore — a counting semaphore with a FIFO queue and deferred hand-over
  (`asyncio.Semaphore`).

  `value` permits are free. A task that cannot have one at once joins the queue. A
  release gives its permit to the first task in the queue that has none (`woken`);
  that task leaves the queue only when the event loop runs it again (`resume`), and
  until then new arrivals queue behind it even if a permit is free. A woken task that
  is cancelled before it runs gives the permit back.

  `Fits n held` is what the operations keep: the free permits, those handed to woken
  tasks and the `held` ones are `n` together, and with no hand-over pending a queue
  means that no permit is free.
-/

import Mathlib.Data.List.Nodup
import SagaAgents.Lib.Tasks

namespace Lib

variable {τ : Type*}

structure Waiter (τ : Type*) where
  task : τ
  woken : Bool
  deriving DecidableEq, Repr

structure Semaphore (τ : Type*) where
  value : Nat
  waiters : List (Waiter τ)
  deriving DecidableEq, Repr

namespace Semaphore

/-- `_wake_up_next` on the queue: mark the first waiter that is not woken. -/
def wakeFirst : List (Waiter τ) → Option (List (Waiter τ))
  | [] => none
  | w :: ws => if w.woken then (wakeFirst ws).map (w :: ·) else some ({ w with woken := true } :: ws)

/-- `while self._value > 0: if not self._wake_up_next(): break`. -/
def wakeLoop : Nat → List (Waiter τ) → Semaphore τ
  | 0, ws => ⟨0, ws⟩
  | v + 1, ws =>
    match wakeFirst ws with
    | none => ⟨v + 1, ws⟩
    | some ws' => wakeLoop v ws'

def init (n : Nat) : Semaphore τ := ⟨n, []⟩

def locked (s : Semaphore τ) : Bool := s.value == 0 || !s.waiters.isEmpty

/-- Take a permit at once (`true`), or join the queue. -/
def acquire (s : Semaphore τ) (t : τ) : Bool × Semaphore τ :=
  if s.locked then (false, { s with waiters := s.waiters ++ [⟨t, false⟩] })
  else (true, { s with value := s.value - 1 })

def release (s : Semaphore τ) : Semaphore τ :=
  match wakeFirst s.waiters with
  | none => { s with value := s.value + 1 }
  | some ws => { s with waiters := ws }

def tasks (s : Semaphore τ) : List τ := s.waiters.map (·.task)

def wokenCount (ws : List (Waiter τ)) : Nat := ws.countP (·.woken)

/-- No permit is on its way to a task that has not run yet. -/
def Quiet (s : Semaphore τ) : Prop := ∀ w ∈ s.waiters, w.woken = false

structure Fits (n held : Nat) (s : Semaphore τ) : Prop where
  permits : s.value + wokenCount s.waiters + held = n
  fair : wokenCount s.waiters = 0 → s.waiters ≠ [] → s.value = 0

/-! ## Waking -/

theorem wakeFirst_tasks {ws ws' : List (Waiter τ)} (h : wakeFirst ws = some ws') :
    ws'.map (·.task) = ws.map (·.task) := by
  induction ws generalizing ws' with
  | nil => cases h
  | cons w ws ih =>
    simp only [wakeFirst] at h
    split at h
    · obtain ⟨vs, hv, rfl⟩ := Option.map_eq_some_iff.mp h
      simp [ih hv]
    · cases h; rfl

theorem wakeFirst_count {ws ws' : List (Waiter τ)} (h : wakeFirst ws = some ws') :
    wokenCount ws' = wokenCount ws + 1 := by
  induction ws generalizing ws' with
  | nil => cases h
  | cons w ws ih =>
    simp only [wakeFirst] at h
    split at h
    · rename_i hw
      obtain ⟨vs, hv, rfl⟩ := Option.map_eq_some_iff.mp h
      have := ih hv
      simp only [wokenCount, List.countP_cons, hw, if_true] at this ⊢
      omega
    · rename_i hw
      cases h
      simp [wokenCount, hw]

/-- Nobody is left to wake only when everybody in the queue is woken. -/
theorem wakeFirst_none {ws : List (Waiter τ)} (h : wakeFirst ws = none) : ∀ w ∈ ws, w.woken = true := by
  induction ws with
  | nil => intro w hw; cases hw
  | cons v ws ih =>
    simp only [wakeFirst] at h
    split at h
    · rename_i hv
      intro w hw
      rcases List.mem_cons.mp hw with rfl | hw
      · exact hv
      · exact ih (Option.map_eq_none_iff.mp h) w hw
    · cases h

theorem all_woken_empty {ws : List (Waiter τ)} (ha : ∀ w ∈ ws, w.woken = true) (h0 : wokenCount ws = 0) : ws = [] := by
  cases ws with
  | nil => rfl
  | cons w ws =>
    have := List.countP_eq_zero.mp h0 w List.mem_cons_self
    exact absurd (ha w List.mem_cons_self) this

theorem wakeLoop_tasks : ∀ (v : Nat) (ws : List (Waiter τ)), (wakeLoop v ws).tasks = ws.map (·.task)
  | 0, _ => rfl
  | v + 1, ws => by
    simp only [wakeLoop]
    split
    · rfl
    · rename_i ws' h
      rw [wakeLoop_tasks v ws', wakeFirst_tasks h]

theorem wakeLoop_fits {n held : Nat} : ∀ (v : Nat) (ws : List (Waiter τ)), v + wokenCount ws + held = n →
    Fits n held (wakeLoop v ws)
  | 0, _, h => ⟨h, fun _ _ => rfl⟩
  | v + 1, ws, h => by
    simp only [wakeLoop]
    split
    · rename_i hn
      exact ⟨h, fun h0 hne => absurd (all_woken_empty (wakeFirst_none hn) h0) hne⟩
    · rename_i ws' hs
      exact wakeLoop_fits v ws' (by have := wakeFirst_count hs; omega)

/-! ## The operations keep `Fits` -/

theorem init_fits (n : Nat) : Fits n 0 (init n : Semaphore τ) :=
  ⟨by simp [init, wokenCount], fun _ h => absurd rfl h⟩

theorem acquire_now {s s' : Semaphore τ} {t : τ} (h : s.acquire t = (true, s')) :
    0 < s.value ∧ s.waiters = [] ∧ s' = { s with value := s.value - 1 } := by
  simp only [acquire] at h
  split at h
  · cases h
  · rename_i hl
    cases h
    simp only [locked, Bool.or_eq_true, beq_iff_eq, Bool.not_eq_true', not_or] at hl
    exact ⟨by omega, by simpa using hl.2, rfl⟩

theorem acquire_wait {s s' : Semaphore τ} {t : τ} (h : s.acquire t = (false, s')) :
    (s.value = 0 ∨ s.waiters ≠ []) ∧ s' = { s with waiters := s.waiters ++ [⟨t, false⟩] } := by
  simp only [acquire] at h
  split at h
  · rename_i hl
    cases h
    simp only [locked, Bool.or_eq_true, beq_iff_eq, Bool.not_eq_true'] at hl
    refine ⟨hl.imp id fun hw he => ?_, rfl⟩
    simp [he] at hw
  · cases h

theorem acquire_now_fits {n held : Nat} {s s' : Semaphore τ} {t : τ} (hf : Fits n held s)
    (h : s.acquire t = (true, s')) : Fits n (held + 1) s' := by
  obtain ⟨hv, hw, rfl⟩ := acquire_now h
  have := hf.permits
  exact ⟨by simp only; omega, fun _ hne => absurd hw hne⟩

theorem acquire_wait_fits {n held : Nat} {s s' : Semaphore τ} {t : τ} (hf : Fits n held s)
    (h : s.acquire t = (false, s')) : Fits n held s' := by
  obtain ⟨hl, rfl⟩ := acquire_wait h
  have hc : wokenCount (s.waiters ++ [⟨t, false⟩]) = wokenCount s.waiters := by
    simp [wokenCount]
  refine ⟨by rw [hc]; exact hf.permits, fun h0 _ => ?_⟩
  rw [hc] at h0
  exact hl.elim id (hf.fair h0)

theorem release_fits {n held : Nat} {s : Semaphore τ} (hf : Fits n (held + 1) s) : Fits n held s.release := by
  have hp := hf.permits
  unfold release
  split
  · rename_i hn
    exact ⟨by simp only; omega, fun h0 hne => absurd (all_woken_empty (wakeFirst_none hn) h0) hne⟩
  · rename_i ws hs
    have := wakeFirst_count hs
    exact ⟨by simp only; omega, fun h0 _ => by simp only at h0; omega⟩

theorem tasks_acquire_wait {s s' : Semaphore τ} {t : τ} (h : s.acquire t = (false, s')) : s'.tasks = s.tasks ++ [t] := by
  obtain ⟨-, rfl⟩ := acquire_wait h
  simp [tasks]

theorem tasks_acquire_now {s s' : Semaphore τ} {t : τ} (h : s.acquire t = (true, s')) : s'.tasks = s.tasks := by
  obtain ⟨-, -, rfl⟩ := acquire_now h
  rfl

@[simp] theorem tasks_release (s : Semaphore τ) : s.release.tasks = s.tasks := by
  unfold release
  split
  · rfl
  · rename_i ws hs
    exact wakeFirst_tasks hs

theorem Quiet.count {s : Semaphore τ} (h : s.Quiet) : wokenCount s.waiters = 0 :=
  List.countP_eq_zero.mpr fun w hw => by simp [h w hw]

/-- With no hand-over pending, a queue means that all `n` permits are held. -/
theorem Fits.all_held {n held : Nat} {s : Semaphore τ} (hf : Fits n held s) (hq : s.Quiet) {t : τ}
    (ht : t ∈ s.tasks) : held = n := by
  have hne : s.waiters ≠ [] := by
    intro e; simp [tasks, e] at ht
  have hv := hf.fair hq.count hne
  have hp := hf.permits
  rw [hq.count, hv] at hp
  omega

/-! ## Leaving the queue -/

variable [DecidableEq τ]

def find (s : Semaphore τ) (t : τ) : Option (Waiter τ) := s.waiters.find? (·.task == t)

def dequeue (s : Semaphore τ) (t : τ) : List (Waiter τ) := s.waiters.eraseP (·.task == t)

/-- The woken task `t` runs again: it leaves the queue with its permit. -/
def resume (s : Semaphore τ) (t : τ) : Semaphore τ := wakeLoop s.value (s.dequeue t)

/-- The waiting task `t` is cancelled: it leaves the queue, and a permit it was handed
    is free again. -/
def cancel (s : Semaphore τ) (t : τ) : Semaphore τ :=
  wakeLoop (if (s.find t).any (·.woken) then s.value + 1 else s.value) (s.dequeue t)

def isWoken (s : Semaphore τ) (t : τ) : Bool := (s.find t).any (·.woken)

theorem isWoken_find {s : Semaphore τ} {t : τ} (h : s.isWoken t = true) : ∃ w, s.find t = some w ∧ w.woken = true := by
  unfold isWoken at h
  cases hf : s.find t with
  | none => simp [hf] at h
  | some w => exact ⟨w, rfl, by simpa [hf] using h⟩

/-- Where `t` stands in the queue. -/
theorem dequeue_split {s : Semaphore τ} {t : τ} {w : Waiter τ} (h : s.find t = some w) :
    w.task = t ∧ ∃ l r, s.waiters = l ++ w :: r ∧ s.dequeue t = l ++ r := by
  obtain ⟨hw, l, r, hs, hl⟩ := List.find?_eq_some_iff_append.mp h
  refine ⟨by simpa using hw, l, r, hs, ?_⟩
  unfold dequeue
  rw [hs, List.eraseP_append_right _ (fun b hb => by simpa using hl b hb), List.eraseP_cons, hw]
  rfl

theorem dequeue_count {s : Semaphore τ} {t : τ} {w : Waiter τ} (h : s.find t = some w) :
    wokenCount s.waiters = wokenCount (s.dequeue t) + if w.woken then 1 else 0 := by
  obtain ⟨-, l, r, hs, hd⟩ := dequeue_split h
  rw [hs, hd]
  simp only [wokenCount, List.countP_append, List.countP_cons]
  omega

theorem resume_fits {n held : Nat} {s : Semaphore τ} {t : τ} (hf : Fits n held s) (h : s.isWoken t = true) :
    Fits n (held + 1) (s.resume t) := by
  obtain ⟨w, hw, hk⟩ := isWoken_find h
  have hc := dequeue_count hw
  have hp := hf.permits
  rw [hk, if_pos rfl] at hc
  exact wakeLoop_fits _ _ (by omega)

theorem cancel_fits {n held : Nat} {s : Semaphore τ} {t : τ} (hf : Fits n held s) (h : t ∈ s.tasks) :
    Fits n held (s.cancel t) := by
  obtain ⟨w, hm, hw⟩ := List.mem_map.mp h
  obtain ⟨v, hv⟩ : ∃ v, s.find t = some v := by
    refine Option.isSome_iff_exists.mp (List.find?_isSome.mpr ⟨w, hm, by simpa using hw⟩)
  have hc := dequeue_count hv
  have hp := hf.permits
  simp only [cancel, hv, Option.any_some]
  refine wakeLoop_fits _ _ ?_
  split at hc <;> rename_i hk <;> simp only [hk, if_true, if_false, Bool.false_eq_true] <;> omega

theorem tasks_dequeue (s : Semaphore τ) (t : τ) : (s.dequeue t).map (·.task) = s.tasks.erase t := by
  unfold dequeue tasks
  induction s.waiters with
  | nil => rfl
  | cons w ws ih =>
    by_cases e : w.task = t
    · simp [e]
    · have : ¬ (w.task == t) = true := by simpa using e
      simp [this, List.erase_cons_tail this, ih]

@[simp] theorem tasks_resume (s : Semaphore τ) (t : τ) : (s.resume t).tasks = s.tasks.erase t := by
  rw [resume, wakeLoop_tasks, tasks_dequeue]

@[simp] theorem tasks_cancel (s : Semaphore τ) (t : τ) : (s.cancel t).tasks = s.tasks.erase t := by
  rw [cancel, wakeLoop_tasks, tasks_dequeue]

theorem isWoken_mem {s : Semaphore τ} {t : τ} (h : s.isWoken t = true) : t ∈ s.tasks := by
  obtain ⟨w, hf, -⟩ := isWoken_find h
  obtain ⟨hw, l, r, hs, -⟩ := dequeue_split hf
  exact List.mem_map.mpr ⟨w, by rw [hs]; simp, hw⟩

/-! ## The clients of a semaphore -/

/-- How a task stands with the semaphore. -/
inductive Stand where
  | out
  | queued
  | holds
  deriving DecidableEq, Repr

/-- The semaphore of `n` permits serves the tasks `0, 1, ..`: the holders have its
    permits, and its queue is the queued ones. -/
structure Serves (n : Nat) (cs : List Stand) (s : Semaphore Nat) : Prop where
  fits : Fits n (cs.count .holds) s
  nodup : s.tasks.Nodup
  queue : ∀ i, i ∈ s.tasks ↔ cs[i]? = some .queued

namespace Serves

variable {n i : Nat} {cs : List Stand} {s s' : Semaphore Nat}

theorem count_set {a b : Stand} (hi : cs[i]? = some a) (c : Stand) :
    (cs.set i b).count c + (if a = c then 1 else 0) = cs.count c + if b = c then 1 else 0 := by
  induction cs generalizing i with
  | nil => simp at hi
  | cons x cs ih =>
    cases i with
    | zero =>
      simp only [List.getElem?_cons_zero, Option.some.injEq] at hi
      subst hi
      simp only [List.set_cons_zero, List.count_cons, beq_iff_eq]
      omega
    | succ i =>
      have := ih (by simpa using hi)
      simp only [List.set_cons_succ, List.count_cons]
      omega

theorem init (n : Nat) : Serves n [] (Semaphore.init n) :=
  ⟨init_fits n, List.nodup_nil, fun i => by simp [Semaphore.init, tasks]⟩

/-- A task that has not asked for a permit. -/
theorem join (h : Serves n cs s) : Serves n (cs ++ [.out]) s := by
  refine ⟨by simpa using h.fits, h.nodup, fun i => (h.queue i).trans ?_⟩
  rcases Nat.lt_trichotomy i cs.length with hi | hi | hi
  · rw [List.getElem?_append_left hi]
  · subst hi; simp
  · rw [List.getElem?_eq_none (by omega), List.getElem?_eq_none (by simp; omega)]

/-- A step of task `i` alone, from its queue and counts. -/
theorem moved {a b : Stand} (h : Serves n cs s) (hi : cs[i]? = some a)
    (hf : Fits n ((cs.set i b).count .holds) s') (hd : s'.tasks.Nodup)
    (hq : ∀ j, j ∈ s'.tasks ↔ (j = i ∧ b = .queued) ∨ (j ≠ i ∧ j ∈ s.tasks)) : Serves n (cs.set i b) s' :=
  ⟨hf, hd, fun j => by rw [hq j, h.queue j, Tasks.get_move hi]⟩

theorem acquire_now (h : Serves n cs s) (hi : cs[i]? = some .out) (ha : s.acquire i = (true, s')) :
    Serves n (cs.set i .holds) s' := by
  have hc := count_set hi .holds (b := .holds)
  have hni : i ∉ s.tasks := fun hm => by rw [(h.queue i).mp hm] at hi; cases hi
  refine h.moved hi ?_ ?_ fun j => ?_
  · have : (cs.set i .holds).count .holds = cs.count .holds + 1 := by simpa using hc
    rw [this]
    exact acquire_now_fits h.fits ha
  · rw [tasks_acquire_now ha]; exact h.nodup
  · rw [tasks_acquire_now ha]
    constructor
    · intro hm
      exact Or.inr ⟨fun e => hni (e ▸ hm), hm⟩
    · rintro (⟨-, hq⟩ | ⟨-, hm⟩)
      · cases hq
      · exact hm

theorem acquire_wait (h : Serves n cs s) (hi : cs[i]? = some .out) (ha : s.acquire i = (false, s')) :
    Serves n (cs.set i .queued) s' := by
  have hc := count_set hi .holds (b := .queued)
  have hni : i ∉ s.tasks := fun hm => by rw [(h.queue i).mp hm] at hi; cases hi
  refine h.moved hi ?_ ?_ fun j => ?_
  · have : (cs.set i .queued).count .holds = cs.count .holds := by simpa using hc
    rw [this]
    exact acquire_wait_fits h.fits ha
  · rw [tasks_acquire_wait ha]
    exact Tasks.nodup_start h.nodup hni
  · rw [tasks_acquire_wait ha, List.mem_append, List.mem_singleton]
    constructor
    · rintro (hm | e)
      · exact Or.inr ⟨fun e => hni (e ▸ hm), hm⟩
      · exact Or.inl ⟨e, rfl⟩
    · rintro (⟨e, -⟩ | ⟨-, hm⟩)
      · exact Or.inr e
      · exact Or.inl hm

theorem release (h : Serves n cs s) (hi : cs[i]? = some .holds) : Serves n (cs.set i .out) s.release := by
  have hc := count_set hi .holds (b := .out)
  refine h.moved hi ?_ ?_ fun j => ?_
  · have : cs.count .holds = (cs.set i .out).count .holds + 1 := by simpa using hc.symm
    exact release_fits (this ▸ h.fits)
  · rw [tasks_release]; exact h.nodup
  · rw [tasks_release]
    constructor
    · intro hm
      refine Or.inr ⟨fun e => ?_, hm⟩
      rw [e, h.queue i, hi] at hm
      cases hm
    · rintro (⟨-, hq⟩ | ⟨-, hm⟩)
      · cases hq
      · exact hm

theorem mem_erase_tasks (h : Serves n cs s) (j : Nat) : j ∈ s.tasks.erase i ↔ j ≠ i ∧ j ∈ s.tasks :=
  h.nodup.mem_erase_iff

theorem resume (h : Serves n cs s) (hw : s.isWoken i = true) : Serves n (cs.set i .holds) (s.resume i) := by
  have hi : cs[i]? = some .queued := (h.queue i).mp (isWoken_mem hw)
  have hc := count_set hi .holds (b := .holds)
  refine h.moved hi ?_ ?_ fun j => ?_
  · have : (cs.set i .holds).count .holds = cs.count .holds + 1 := by simpa using hc
    rw [this]
    exact resume_fits h.fits hw
  · rw [tasks_resume]; exact h.nodup.erase i
  · rw [tasks_resume, h.mem_erase_tasks]
    simp

theorem cancel (h : Serves n cs s) (hi : cs[i]? = some .queued) : Serves n (cs.set i .out) (s.cancel i) := by
  have hc := count_set hi .holds (b := .out)
  refine h.moved hi ?_ ?_ fun j => ?_
  · have : (cs.set i .out).count .holds = cs.count .holds := by simpa using hc
    rw [this]
    exact cancel_fits h.fits ((h.queue i).mpr hi)
  · rw [tasks_cancel]; exact h.nodup.erase i
  · rw [tasks_cancel, h.mem_erase_tasks]
    simp

/-- With no hand-over pending, a queued task means that all `n` permits are held. -/
theorem full (h : Serves n cs s) (hq : s.Quiet) (hi : cs[i]? = some .queued) : cs.count .holds = n :=
  h.fits.all_held hq ((h.queue i).mpr hi)

theorem holders_le (h : Serves n cs s) : cs.count .holds ≤ n := by
  have := h.fits.permits
  omega

/-- A permit of one has one holder. -/
theorem holder_unique {j : Nat} (h : Serves n cs s) (hn : n ≤ 1) (hi : cs[i]? = some .holds) (hj : cs[j]? = some .holds) :
    i = j := by
  by_cases e : i = j
  · exact e
  · have hc := count_set hi .holds (b := .out)
    have hmem : .holds ∈ cs.set i .out := by
      refine List.mem_of_getElem? (i := j) ?_
      rwa [List.getElem?_set_ne e]
    have hpos := List.count_pos_iff.mpr hmem
    have hle := h.holders_le
    simp only [if_true, reduceCtorEq, if_false] at hc
    omega

/-- A woken waiter is found, as no task queues twice. -/
theorem isWoken_of_mem (h : Serves n cs s) {w : Waiter Nat} (hm : w ∈ s.waiters) (hw : w.woken = true) :
    s.isWoken w.task = true := by
  obtain ⟨v, hv⟩ : ∃ v, s.find w.task = some v :=
    Option.isSome_iff_exists.mp (List.find?_isSome.mpr ⟨w, hm, by simp⟩)
  have ht : v.task = w.task := by simpa using List.find?_some hv
  have hvw : v = w := List.inj_on_of_nodup_map h.nodup (List.mem_of_find?_eq_some hv) hm ht
  simp [isWoken, hv, hvw, hw]

/-- Where tasks queue, a permit has been handed to one of them or is held. -/
theorem woken_or_held (h : Serves n cs s) (hn : 1 ≤ n) (hi : cs[i]? = some .queued) :
    (∃ j, s.isWoken j = true) ∨ .holds ∈ cs := by
  by_cases hq : s.Quiet
  · right
    have := h.full hq hi
    exact List.count_pos_iff.mp (by omega)
  · left
    simp only [Quiet, not_forall] at hq
    obtain ⟨w, hm, hw⟩ := hq
    exact ⟨w.task, h.isWoken_of_mem hm (by simpa using hw)⟩

/-- A semaphore whose tasks are all out is as it was built. -/
theorem unused (h : Serves n cs s) (ho : ∀ c ∈ cs, c = .out) : s = Semaphore.init n := by
  have ht : s.tasks = [] := by
    refine List.eq_nil_iff_forall_not_mem.mpr fun i hi => ?_
    have := ho _ (List.mem_of_getElem? ((h.queue i).mp hi))
    cases this
  have hw : s.waiters = [] := List.map_eq_nil_iff.mp ht
  have hc : cs.count .holds = 0 := List.count_eq_zero.mpr fun hm => by cases ho _ hm
  have hp := h.fits.permits
  cases s with
  | mk value waiters =>
    subst hw
    simp only [wokenCount, List.countP_nil, hc] at hp
    subst hp
    rfl

end Serves

end Semaphore

end Lib
