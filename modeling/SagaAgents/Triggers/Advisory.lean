/-
  SagaAgents.Triggers.Advisory — an executor with a Redis client, whatever Redis does.

  A submit with its two permits sends `SET .. NX EX` before its run. A falsy reply skips
  the run. An exception leaves `submit`, and the run does not start.

  Proved, over every run of submits that are not cancelled: `starts_iff_set_answers`.
  With Redis down nothing starts: `outage_stops_runs`.
-/

import SagaAgents.Triggers.Executor

namespace SagaAgents.Triggers.Executor

open Lib Lib.Semaphore

/-- No task of `submit` is cancelled. -/
def notCancelled : Ev → Bool
  | .cancel _ => false
  | _ => true

/-- With Redis, a submit enters its run exactly on a truthy reply to its SET. -/
def Gated (u : Sub) : Prop :=
  match u.pc with
  | .active _ | .waitGlobal | .waitAgent => u.granted = false ∧ u.setReply = none ∧ u.entered = false
  | .locking => u.setReply = none ∧ u.entered = false
  | .running | .releasing _ => u.setReply = some .truthy ∧ u.entered = true
  | .ended _ => u.granted = true → ∃ r, u.setReply = some r ∧ (u.entered = true ↔ r = .truthy)

variable {x : RunExecutor} {s : St}

theorem gated_acquiring {u : Sub} (hp : u.pc.acquiring) (hu : Gated u) :
    u.granted = false ∧ u.setReply = none ∧ u.entered = false := by
  unfold Gated at hu
  cases h : u.pc with
  | active p => rw [h] at hu; exact hu
  | waitGlobal => rw [h] at hu; exact hu
  | waitAgent => rw [h] at hu; exact hu
  | _ => rw [h] at hp; exact hp.elim

theorem gated_fresh (req : RunRequest) : Gated (fresh req) := ⟨rfl, rfl, rfl⟩

theorem gated_move (hx : x.redis = true) {e : Ev} {u v : Sub} (ho : notCancelled e = true) (hu : Gated u)
    (hm : Moves x u e v) : Gated v := by
  cases hm with
  | skip hp hd =>
    intro hg
    have := (gated_acquiring (by simp [Pc.acquiring, hp]) hu).1
    cases hg.symm.trans this
  | queueGlobal hp hd =>
    have hnone := gated_acquiring (by simp [Pc.acquiring, hp]) hu
    exact hnone
  | queueAgent hp hd =>
    have hnone := gated_acquiring hp hu
    exact hnone
  | lock hp hd hr => exact (gated_acquiring hp hu).2
  | start hp hd hr => rw [hx] at hr; cases hr
  | locked hp => exact ⟨rfl, rfl⟩
  | lockHeld hp =>
    simp only [Gated, hp] at hu
    exact fun _ => ⟨.falsy, rfl, by simp [hu.2]⟩
  | setRaises hp =>
    simp only [Gated, hp] at hu
    exact fun _ => ⟨.raised, rfl, by simp [hu.2]⟩
  | unlock hp hr =>
    simp only [Gated, hp] at hu
    exact hu
  | finish hp hr => rw [hx] at hr; cases hr
  | unlocked e hp =>
    simp only [Gated, hp] at hu
    exact fun _ => ⟨.truthy, hu.1, fun _ => rfl, fun _ => hu.2⟩
  | cancelled hp => cases ho

theorem gated_run (hx : x.redis = true) (h : Run (step x) (fun _ e => notCancelled e = true) (init x) s) :
    ∀ u ∈ s.subs, Gated u :=
  subs_run (fun _ req _ ho hm => gated_move hx ho (gated_fresh req) hm) (fun _ _ _ _ ho hu hm => gated_move hx ho hu hm) h

/-- A submit that has been given its two permits, and does not wait for its SET any more,
    has entered its run or found the lock held exactly if its SET did not raise. -/
theorem starts_iff_set_answers (hx : x.redis = true)
    (h : Run (step x) (fun _ e => notCancelled e = true) (init x) s) {u : Sub} (hu : u ∈ s.subs)
    (hg : u.granted = true) (hl : u.pc ≠ .locking) :
    (u.entered = true ∨ u.setReply = some .falsy) ↔ u.setReply ≠ some .raised := by
  have hreply : ∃ r, u.setReply = some r ∧ (u.entered = true ↔ r = .truthy) := by
    have hgate := gated_run hx h u hu
    unfold Gated at hgate
    cases hp : u.pc with
    | locking => exact absurd hp hl
    | running => rw [hp] at hgate; exact ⟨.truthy, hgate.1, by simp [hgate.2]⟩
    | releasing e => rw [hp] at hgate; exact ⟨.truthy, hgate.1, by simp [hgate.2]⟩
    | ended e => rw [hp] at hgate; exact hgate hg
    | _ => rw [hp] at hgate; cases hg.symm.trans hgate.1
  obtain ⟨r, hr, he⟩ := hreply
  rw [hr, he]
  cases r <;> simp

/-! One agent on a schedule, with Redis. -/

/-- The SET is answered: the run is entered. -/
theorem starts_iff_set_answers_up :
    ∃ s, Run (step oneAgent) (fun _ e => notCancelled e = true) (init oneAgent) s ∧ ∃ u ∈ s.subs, u.granted = true ∧
      u.setReply ≠ some .raised ∧ (u.entered = true ∨ u.setReply = some .falsy) := by
  obtain ⟨s, hr, hp⟩ := Run.exists_of_exec (step oneAgent) (fun _ e => notCancelled e = true) (init oneAgent)
    [scheduled, .setReply 0 .truthy]
    (fun s => s.subs.any fun u => u.granted && u.pc != .locking && u.setReply != some .raised) (by decide)
  simp only [List.any_eq_true, Bool.and_eq_true, bne_iff_ne] at hp
  obtain ⟨u, hu, ⟨hg, hl⟩, hs⟩ := hp
  exact ⟨s, hr, u, hu, hg, hs, (starts_iff_set_answers rfl hr hu hg hl).mpr hs⟩

/-- Redis is down: the scheduled run has its permits, its SET raises, and it ends without
    having entered `runner.run`. -/
theorem outage_stops_runs :
    ∃ s, Run (step oneAgent) (fun _ e => notCancelled e = true) (init oneAgent) s ∧ ∃ u ∈ s.subs,
      u.req = ⟨"event-deduplicator", "schedule"⟩ ∧ u.granted = true ∧ u.pc = .ended .error ∧ u.entered = false ∧
        u.setReply = some .raised := by
  obtain ⟨s, hr, hp⟩ := Run.exists_of_exec (step oneAgent) (fun _ e => notCancelled e = true) (init oneAgent)
    [scheduled, .setReply 0 .raised]
    (fun s => s.subs.any fun u => u == ⟨⟨"event-deduplicator", "schedule"⟩, .ended .error, true, some .raised, false⟩)
    (by decide)
  simp only [List.any_eq_true, beq_iff_eq] at hp
  obtain ⟨u, hu, e⟩ := hp
  subst e
  exact ⟨s, hr, _, hu, rfl, rfl, rfl, rfl, rfl⟩

end SagaAgents.Triggers.Executor
