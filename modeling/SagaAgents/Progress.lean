/-
  SagaAgents.Progress — the wired service winds down.

  What is under way in the service waits for others at many places: a submit for permits
  that other submits hold until their runs have ended, a run for its agent and for the
  sink, an approve handler for the MCP server. The waits go one way. A submit in the
  queues waits for submits past them (`Permits`); a submit past them waits for Redis, or
  for its own run (`Paired`); and a run or a handler waits for nobody in the service.

  A step winds down (`windsDown`) if it begins nothing new: no source of requests takes a
  step, no request comes to the endpoints, no run calls a tool or proposes. What the calls
  under way come back with, and what is cancelled, is open.

  Proved:
  - `winds_down`: with limits of at least 1, from every state the service can reach, no
    schedule of such steps goes on for ever, and none gets stuck before every submit, run
    and handler has ended. Without a cancellation they all end too.
-/

import SagaAgents.Running

namespace SagaAgents.Progress

open Lib
open App (Service Deps buildService)
open Config (AgentDefinition GlobalConfig)
open Runtime.Runner (RunState)
open Runtime.Shutdown (endOf left)
open Running (Ev Inv Linked St enterRun init proceed ran requestOf step step_executor step_system submit)
open Triggers
open Triggers.Executor (RunRequest RunExecutor RunEnd Sub)

variable {Args Val Out C T : Type}

/-! ## Winding down -/

/-- The step begins nothing new. -/
def windsDown : Ev Args Val T → Bool
  | .source _ _ _ => false
  | .system (.run _ (.toolCall _ _)) | .system (.run _ (.propose _ _ _)) => false
  | .system (.api (.request _)) => false
  | .executor _ _ _ | .system _ => true

/-- A task is cancelled. -/
def cancels : Ev Args Val T → Bool
  | .executor (.cancel _) _ _ => true
  | .system (.run _ .cancel) | .system (.add _ _ _ .cancel) => true
  | .system (.api (.move _ .cancel)) => true
  | _ => false

/-- Nothing is under way. -/
structure Done (s : St Args Val Out T) : Prop where
  submits : s.executor.idle
  runs : ∀ r ∈ s.system.runs, endOf r ≠ none
  handlers : ∀ h ∈ s.system.api.handlers, ∃ o, h.pc = .ended o

/-! ## The awaits that are left -/

/-- The awaits a run has before it at most, its present one included. -/
def runRank (r : RunState Args) : Nat :=
  match r.pc with
  | .resolving => r.proposals.length + 3
  | .agent => r.proposals.length + 2
  | .persisting _ k => r.proposals.length - k + 1
  | .ended _ | .raised | .cancelled => 0

def handlerRank (h : Api.Handler Args Val Out) : Nat :=
  match h.pc with
  | .getting => 5
  | .got _ => 4
  | .calling _ => 3
  | .setting _ => 2
  | .stored _ _ => 1
  | .ended _ => 0

/-- A submit that goes on may begin a run. -/
def rank (s : St Args Val Out T) : Nat :=
  4 * s.executor.rank + (s.system.runs.map runRank).sum + (s.system.api.handlers.map handlerRank).sum

theorem persistFrom_rank (x : Runtime.Runner.AgentRunner) (r : RunState Args) (o : Runtime.Runner.Outcome) (k : Nat) :
    runRank (r.persistFrom x o k) = 0 ∨ runRank (r.persistFrom x o k) = r.proposals.length - k + 1 ∧ k < r.proposals.length := by
  unfold RunState.persistFrom
  split
  · rename_i hc
    exact Or.inr ⟨rfl, hc.2.2⟩
  · exact Or.inl rfl

/-- A run that goes on, without another tool call or proposal, has fewer awaits left. -/
theorem runRank_advance {x : Runtime.Runner.AgentRunner} {r r' : RunState Args} {m : Runtime.Runner.Move Args}
    (h : Runtime.Runner.Advance x r m r') (htool : ∀ tool arguments, m ≠ .toolCall tool arguments)
    (hprop : ∀ action arguments rationale, m ≠ .propose action arguments rationale) : runRank r' < runRank r := by
  cases h with
  | toolCall tool arguments => exact absurd rfl (htool tool arguments)
  | propose action arguments rationale => exact absurd rfl (hprop action arguments rationale)
  | resolved hp | raises hp | guidanceFails text hp => simp [runRank, hp, RunState.to]
  | agentEnds o hp =>
    have hr : runRank r = r.proposals.length + 2 := by simp [runRank, hp]
    rcases persistFrom_rank x r (o.outcome r.definition.limits.timeoutSeconds) 0 with hq | hq <;> omega
  | added o k hp =>
    have hr : runRank r = r.proposals.length - k + 1 := by simp [runRank, hp]
    rcases persistFrom_rank x r o (k + 1) with hq | hq <;> omega
  | addFails text o k hp =>
    have hr : runRank r = r.proposals.length - k + 1 := by simp [runRank, hp]
    have hq := persistFrom_rank x { r with persistenceError := some text } o (k + 1)
    have hlen : ({ r with persistenceError := some text } : RunState Args).proposals.length = r.proposals.length := rfl
    rcases hq with hq | hq <;> omega
  | cancel hp => rcases hp with hp | hp | ⟨o, k, hp⟩ <;> simp [runRank, hp, RunState.to]

theorem handlerRank_advance {api : Api.App Args Val Out} {i : Nat} {t : Proposals.Table} {h : Api.Handler Args Val Out}
    {m : Api.Move Val} {f : Api.Effect Args Val Out} (ha : Api.Advance api i t h m f) : handlerRank f.handler < handlerRank h := by
  cases ha with
  | setFails hp => rcases hp with ⟨d, hp⟩ | ⟨d, b, hp⟩ <;> simp [handlerRank, hp]
  | cancel hp =>
    show 0 < handlerRank h
    unfold handlerRank
    split <;> first | omega | exact absurd (by assumption) (hp _)
  | _ => simp [handlerRank, *]

/-- A submit that is cancelled has none left. -/
theorem cancel_rank {x : RunExecutor} {s t : Executor.St} {i : Nat} (h : Executor.step x s (.cancel i) = some t) :
    t.rank < s.rank := by
  rcases Executor.step_move h with ⟨req, e, -⟩ | ⟨j, u, -, hu, hm⟩
  · cases e
  · have hlt : 0 < u.pc.rank → ((s.subs.set j (u.to (.ended .cancelled))).map fun u => u.pc.rank).sum < s.rank :=
      fun hpos => Tasks.sum_move_lt (f := fun u : Sub => u.pc.rank) hu hpos
    cases Executor.move_cases hm with
    | cancelGlobal j' hp | cancelAgent j' hp => exact hlt (by simp [hp, Executor.Pc.rank])
    | cancelCall j' hp => rcases hp with hp | ⟨e, hp⟩ <;> exact hlt (by simp [hp, Executor.Pc.rank])

variable {svc : Service Args Val Out C T} {s t : St Args Val Out T}

/-! ## Entering a run -/

/-- Nothing happens, or submit `i` begins its run. -/
theorem enterRun_cases (svc : Service Args Val Out C T) (i : Nat) (runId : String) (traceId : Option String) (s : St Args Val Out T) :
    enterRun svc i runId traceId s = s ∨ ∃ d, enterRun svc i runId traceId s =
      { s with system := { s.system with runs := s.system.runs ++ [Runtime.Runner.begin d runId traceId] },
               submitOf := s.submitOf ++ [i] } := by
  unfold enterRun
  split
  · rename_i system hs
    obtain ⟨u, -, hs⟩ := Option.bind_eq_some_iff.mp hs
    by_cases hp : u.pc = .running
    · rw [if_pos hp] at hs
      obtain ⟨d, -, e⟩ := Option.map_eq_some_iff.mp hs
      subst e
      exact Or.inr ⟨d, rfl⟩
    · rw [if_neg hp] at hs
      cases hs
  · exact Or.inl rfl

/-- A submit of a known agent that is in its run begins it. -/
theorem enterRun_begins {i : Nat} {u : Sub} (hu : s.executor.subs[i]? = some u) (hp : u.pc = .running) {d : AgentDefinition}
    (hd : svc.executor.definitions.get u.req.agentId = some d) (runId : String) (traceId : Option String) :
    enterRun svc i runId traceId s =
      { s with system := { s.system with runs := s.system.runs ++ [Runtime.Runner.begin d runId traceId] },
               submitOf := s.submitOf ++ [i] } := by
  have hstart : System.step svc.wiring s.system (.start u.req.agentId runId traceId) =
      some { s.system with runs := s.system.runs ++ [Runtime.Runner.begin d runId traceId] } := by
    show (svc.executor.definitions.get u.req.agentId).map _ = _
    rw [hd]
    rfl
  simp only [enterRun, hu, Option.bind_some, if_pos hp, hstart]

@[simp] theorem enterRun_executor (svc : Service Args Val Out C T) (i : Nat) (runId : String) (traceId : Option String)
    (s : St Args Val Out T) : (enterRun svc i runId traceId s).executor = s.executor := by
  rcases enterRun_cases svc i runId traceId s with e | ⟨d, e⟩ <;> rw [e]

theorem enterRun_rank (svc : Service Args Val Out C T) (i : Nat) (runId : String) (traceId : Option String)
    (s : St Args Val Out T) : rank (enterRun svc i runId traceId s) ≤ rank s + 3 := by
  rcases enterRun_cases svc i runId traceId s with e | ⟨d, e⟩
  · rw [e]
    omega
  · have hbegin : runRank (Runtime.Runner.begin d runId traceId : RunState Args) = 3 := rfl
    rw [e]
    simp only [rank, List.map_append, List.map_cons, List.map_nil, List.sum_append, List.sum_cons, List.sum_nil, hbegin]
    omega

/-! ## Each of these steps goes down -/

theorem rank_executor {e : Executor.Ev} {ex : Executor.St} (hsub : ∀ r, e ≠ .submit r)
    (h : Executor.step svc.executor s.executor e = some ex) : ex.rank < s.executor.rank := by
  cases e with
  | submit r => exact absurd rfl (hsub r)
  | cancel i => exact cancel_rank h
  | _ => exact Executor.rank_step rfl h

theorem api_rank {api : Api.App Args Val Out} {q q' : Api.St Args Val Out} {e : Api.Ev Val} (h : Api.step api q e = some q')
    (he : ∀ r, e ≠ .request r) : (q'.handlers.map handlerRank).sum < (q.handlers.map handlerRank).sum := by
  rcases Api.step_cases h with ⟨r, e', -⟩ | ⟨i, m, hd, f, -, hh, ha, e'⟩
  · exact absurd e' (he r)
  · subst e'
    exact Tasks.sum_move_lt hh (handlerRank_advance ha)

theorem system_rank {w : System.Wiring Args Val Out} {q q' : System.St Args Val Out} {e : System.Ev Args Val}
    (h : System.step w q e = some q') (he : ∀ a b c, e ≠ .start a b c) (hw : windsDown (.system e : Ev Args Val T) = true) :
    (q'.runs.map runRank).sum + (q'.api.handlers.map handlerRank).sum <
      (q.runs.map runRank).sum + (q.api.handlers.map handlerRank).sum := by
  cases e with
  | start a b c => exact absurd rfl (he a b c)
  | run k m =>
    have hmove (hm : ∀ tool arguments, m ≠ .toolCall tool arguments) (hp : ∀ a b c, m ≠ .propose a b c)
        (h : (q.runs[k]?.bind fun r => (Runtime.Runner.advance w.runner r m).map fun r' =>
          { q with runs := q.runs.set k r', toolCalls := q.toolCalls ++ System.toolCallsOf k m,
                   proposeCalls := q.proposeCalls ++ System.proposeCallsOf k m }) = some q') :
        (q'.runs.map runRank).sum + (q'.api.handlers.map handlerRank).sum <
          (q.runs.map runRank).sum + (q.api.handlers.map handlerRank).sum := by
      obtain ⟨r, hr, h⟩ := Option.bind_eq_some_iff.mp h
      obtain ⟨r', ha, e⟩ := Option.map_eq_some_iff.mp h
      subst e
      exact Nat.add_lt_add_right (Tasks.sum_move_lt hr (runRank_advance (Runtime.Runner.advance_cases ha) hm hp)) _
    cases m with
    | added => cases h
    | toolCall | propose => cases hw
    | _ => exact hmove (fun _ _ e => (by cases e)) (fun _ _ _ e => (by cases e)) h
  | add k id now m =>
    simp only [System.step] at h
    split at h
    · rename_i hafter
      obtain ⟨r, hr, h⟩ := Option.bind_eq_some_iff.mp h
      obtain ⟨r', ha, h⟩ := Option.bind_eq_some_iff.mp h
      have hlt := runRank_advance (Runtime.Runner.advance_cases ha) (fun _ _ e => (by subst e; cases hafter))
        (fun _ _ _ e => (by subst e; cases hafter))
      unfold System.addNext at h
      split at h
      · obtain ⟨p, -, h⟩ := Option.bind_eq_some_iff.mp h
        obtain ⟨a, -, e⟩ := Option.map_eq_some_iff.mp h
        subst e
        exact Nat.add_lt_add_right (Tasks.sum_move_lt hr hlt) _
      · cases h
    · cases h
  | api e =>
    obtain ⟨api, ha, e'⟩ := Option.map_eq_some_iff.mp h
    subst e'
    exact Nat.add_lt_add_left (api_rank ha fun r e => (by subst e; cases hw)) _

theorem proceed_cases {e : System.Ev Args Val} {q : System.St Args Val Out} (h : proceed svc s e q = some t) :
    (t = { s with system := q } ∧ ∀ k r, ran e = some k → q.runs[k]? = some r → endOf r = none) ∨
      ∃ k i r r' ex, ran e = some k ∧ q.runs[k]? = some r ∧ endOf r = some r' ∧ s.submitOf[k]? = some i ∧
        Executor.step svc.executor s.executor (.runEnd i r') = some ex ∧ t = { s with executor := ex, system := q } := by
  unfold proceed at h
  split at h
  · rename_i hnone
    cases h
    refine Or.inl ⟨rfl, fun k r hk hr => ?_⟩
    simpa [hk, hr] using hnone
  · rename_i k r' hran
    obtain ⟨j, hj, hran⟩ := Option.bind_eq_some_iff.mp hran
    obtain ⟨r'', hend, e'⟩ := Option.map_eq_some_iff.mp hran
    cases e'
    obtain ⟨r, hr, hend⟩ := Option.bind_eq_some_iff.mp hend
    obtain ⟨i, hi, h⟩ := Option.bind_eq_some_iff.mp h
    obtain ⟨ex, hex, e'⟩ := Option.map_eq_some_iff.mp h
    subst e'
    exact Or.inr ⟨k, i, r, r', ex, hj, hr, hend, hi, hex, rfl⟩

/-! ## Whose run a submit waits for -/

/-- The executor is one that submits and replies have brought here, and each submit that is
    in its run has one that is not over. -/
structure Live (svc : Service Args Val Out C T) (s : St Args Val Out T) : Prop where
  executor : Run (Executor.step svc.executor) (fun _ _ => True) (Executor.init svc.executor) s.executor
  paired : ∀ (i : Nat) (u : Sub), s.executor.subs[i]? = some u → u.pc = .running →
    ∃ (k : Nat) (r : RunState Args), s.submitOf[k]? = some i ∧ s.system.runs[k]? = some r ∧ endOf r = none

/-- A submit has gone on, or is new, and where it enters its run this begins. -/
theorem live_enter (h : Live svc s) (hlen : s.submitOf.length = s.system.runs.length) {e : Executor.Ev} {ex : Executor.St}
    (hst : Executor.step svc.executor s.executor e = some ex) (q : Sources.St T) (awaited : Option Nat) (runId : String)
    (traceId : Option String) :
    Live svc (enterRun svc (e.index.getD s.executor.subs.length) runId traceId
      { s with sources := q, executor := ex, awaited := awaited }) := by
  have hrun := h.executor.tail e trivial hst
  have hother : ∀ i u, i ≠ e.index.getD s.executor.subs.length → ex.subs[i]? = some u → s.executor.subs[i]? = some u := by
    intro i u hne hu
    rcases Executor.step_subs hst with ⟨r, v, e', -, hsubs⟩ | ⟨j, w, v, hj, hw, -, hsubs⟩
    · rw [hsubs] at hu
      subst e'
      rcases Tasks.get_start.mp hu with hu | ⟨e', -⟩
      · exact hu
      · exact absurd e' hne
    · rw [hsubs] at hu
      rw [hj, Option.getD_some] at hne
      exact (((Tasks.get_move hw).mp hu).resolve_left fun hl => hne hl.1).2
  refine ⟨by rw [enterRun_executor]; exact hrun, fun i u hu hp => ?_⟩
  rw [enterRun_executor] at hu
  by_cases hi : i = e.index.getD s.executor.subs.length
  · -- the submit's agent is known, so its run begins
    have hknown := (Executor.known_run hrun u (List.mem_of_getElem? hu)).resolve_left (by rw [hp]; exact fun e => (by cases e))
    obtain ⟨d, hd⟩ := Option.isSome_iff_exists.mp hknown
    have hd := (Option.filter_eq_some_iff.mp hd).1
    rw [← hi, enterRun_begins (s := { s with sources := q, executor := ex, awaited := awaited }) hu hp hd]
    refine ⟨s.system.runs.length, Runtime.Runner.begin d runId traceId, ?_, ?_, rfl⟩
    · exact Tasks.get_start.mpr (Or.inr ⟨hlen.symm, rfl⟩)
    · exact Tasks.get_start.mpr (Or.inr ⟨rfl, rfl⟩)
  · obtain ⟨k, r, hk, hr, hgoes⟩ := h.paired i u (hother i u hi hu) hp
    rcases enterRun_cases svc (e.index.getD s.executor.subs.length) runId traceId
      { s with sources := q, executor := ex, awaited := awaited } with e' | ⟨d, e'⟩
    · rw [e']
      exact ⟨k, r, hk, hr, hgoes⟩
    · rw [e']
      exact ⟨k, r, Tasks.get_kept hk, Tasks.get_kept hr, hgoes⟩

theorem runEnd_running {x : RunExecutor} {p p' : Executor.St} {i : Nat} {r : RunEnd} {u : Sub}
    (h : Executor.step x p (.runEnd i r) = some p') (hu : p.subs[i]? = some u) : u.pc = .running := by
  rcases Executor.step_move h with ⟨_, e, -⟩ | ⟨j, w, hj, hw, hm⟩
  · cases e
  · cases hj
    cases hu.symm.trans hw
    cases Executor.move_cases hm with
    | runEnd _ _ hp => exact hp

/-- A run has gone on, or is over and its submit out of it. -/
theorem live_system (h : Live svc s) {e : System.Ev Args Val} {q : System.St Args Val Out} (he : ∀ a b c, e ≠ .start a b c)
    (hq : System.step svc.wiring s.system e = some q) (hp : proceed svc s e q = some t) : Live svc t := by
  rcases Running.system_runs hq he with ⟨hran, hruns⟩ | ⟨k, r, r', m, hran, hr, -, hruns⟩
  · rcases proceed_cases hp with ⟨e', -⟩ | ⟨k, i, r, r', ex, hran', -⟩
    · subst e'
      refine ⟨h.executor, fun i u hu hup => ?_⟩
      obtain ⟨k, r, hk, hr, hgoes⟩ := h.paired i u hu hup
      exact ⟨k, r, hk, by show q.runs[k]? = some r; rw [hruns]; exact hr, hgoes⟩
    · rw [hran] at hran'
      cases hran'
  · have hself : q.runs[k]? = some r' := by
      rw [hruns]
      exact Tasks.get_moved hr
    have hkeep : ∀ j p, j ≠ k → s.system.runs[j]? = some p → q.runs[j]? = some p := by
      intro j p hne hj
      rw [hruns]
      exact Tasks.get_other hj hne
    rcases proceed_cases hp with ⟨e', hgoes'⟩ | ⟨k', i, p, end', ex, hran', -, -, hi, hex, e'⟩
    · subst e'
      refine ⟨h.executor, fun i u hu hup => ?_⟩
      obtain ⟨j, p, hj, hjr, hgoes⟩ := h.paired i u hu hup
      by_cases e' : j = k
      · rw [e'] at hj
        exact ⟨k, r', hj, hself, hgoes' k r' hran hself⟩
      · exact ⟨j, p, hj, hkeep j p e' hjr, hgoes⟩
    · cases hran.symm.trans hran'
      subst e'
      rcases Executor.step_subs hex with ⟨_, _, e', -⟩ | ⟨j, u, v, hj, hu, hm, hsubs⟩
      · cases e'
      · cases hj
        refine ⟨h.executor.tail _ trivial hex, fun i' u' hu' hup => ?_⟩
        have hu' : ex.subs[i']? = some u' := hu'
        rw [hsubs] at hu'
        rcases (Tasks.get_move hu).mp hu' with ⟨-, e'⟩ | ⟨hne, hu'⟩
        · subst e'
          have hout := Runtime.Shutdown.moves_out hm (runEnd_running hex hu)
          rw [hup] at hout
          cases hout
        · -- another submit has another run
          obtain ⟨j, p, hj, hjr, hgoes⟩ := h.paired i' u' hu' hup
          have hjk : j ≠ k := by
            intro e'
            subst e'
            exact hne (Option.some.inj (hj.symm.trans hi))
          exact ⟨j, p, hj, hkeep j p hjk hjr, hgoes⟩

section

variable [CommRing T] [LinearOrder T]

theorem live_step {definitions : List AgentDefinition} {start : T} {e : Ev Args Val T} (hinv : Inv svc definitions start s)
    (h : Live svc s) (hst : step svc s e = some t) : Live svc t := by
  cases e with
  | source e runId traceId =>
    simp only [step] at hst
    split at hst
    case isFalse => cases hst
    obtain ⟨q, hq, e'⟩ := Option.map_eq_some_iff.mp hst
    subst e'
    cases hr : requestOf s.sources q with
    | none => exact ⟨h.executor, h.paired⟩
    | some r => exact live_enter (e := .submit r) h hinv.linked.length rfl q _ runId traceId
  | executor e runId traceId =>
    have hne : ∀ i r, e ≠ .runEnd i r := by
      intro i r e'
      subst e'
      cases hst
    have hsub : ∀ r, e ≠ .submit r := by
      intro r e'
      subst e'
      cases hst
    rw [step_executor hsub hne] at hst
    obtain ⟨ex, hex, e'⟩ := Option.map_eq_some_iff.mp hst
    subst e'
    exact live_enter h hinv.linked.length hex s.sources s.awaited runId traceId
  | system e =>
    have he : ∀ a b c, e ≠ .start a b c := by
      intro a b c e'
      subst e'
      cases hst
    rw [step_system he] at hst
    obtain ⟨q, hq, hst⟩ := Option.bind_eq_some_iff.mp hst
    exact live_system h he hq hst

omit [CommRing T] [LinearOrder T] in
theorem live_init (start : T) : Live svc (init svc start) := ⟨.refl _, fun _ _ hu => (by cases hu)⟩

theorem step_rank {e : Ev Args Val T} (hw : windsDown e = true) (h : step svc s e = some t) : rank t < rank s := by
  cases e with
  | source e runId traceId => cases hw
  | executor e runId traceId =>
    have hne : ∀ i r, e ≠ .runEnd i r := by
      intro i r e'
      subst e'
      cases h
    have hsub : ∀ r, e ≠ .submit r := by
      intro r e'
      subst e'
      cases h
    rw [step_executor hsub hne] at h
    obtain ⟨ex, hex, e'⟩ := Option.map_eq_some_iff.mp h
    subst e'
    have hlt := rank_executor hsub hex
    have hle := enterRun_rank svc (e.index.getD s.executor.subs.length) runId traceId { s with executor := ex }
    simp only [rank] at hle ⊢
    omega
  | system e =>
    have he : ∀ a b c, e ≠ .start a b c := by
      intro a b c e'
      subst e'
      cases h
    rw [step_system he] at h
    obtain ⟨q, hq, h⟩ := Option.bind_eq_some_iff.mp h
    have hlt := system_rank hq he hw
    rcases proceed_cases h with ⟨e', -⟩ | ⟨k, i, r, r', ex, -, -, -, -, hex, e'⟩
    · rw [e']
      simp only [rank]
      omega
    · have hex := rank_executor (fun _ e => (by cases e)) hex
      rw [e']
      simp only [rank]
      omega

/-! ## Somebody can go on -/

omit [CommRing T] [LinearOrder T] in
theorem handler_goes_on (api : Api.App Args Val Out) {q : Api.St Args Val Out} {i : Nat} {h : Api.Handler Args Val Out}
    (hi : q.handlers[i]? = some h) (hne : ∀ o, h.pc ≠ .ended o) : ∃ m q', m ≠ Api.Move.cancel ∧ Api.step api q (.move i m) = some q' := by
  have hstep {m : Api.Move Val} {f : Api.Effect Args Val Out} (ha : Api.advance api i q.table h m = some f) :
      Api.step api q (.move i m) = some (q.apply i f) := by
    simp only [Api.step, hi, Option.bind_some, ha, Option.map_some]
  cases hp : h.pc with
  | ended o => exact absurd hp (hne o)
  | getting =>
    cases hg : Proposals.get api.codec q.table h.req.proposalId with
    | none => exact ⟨.read, _, (fun e => by cases e), hstep (by simp only [Api.advance, hp, hg]; rfl)⟩
    | some record => exact ⟨.read, _, (fun e => by cases e), hstep (by simp only [Api.advance, hp, hg]; rfl)⟩
  | got record => exact ⟨.resume, _, (fun e => by cases e), hstep (by simp only [Api.advance, hp]; rfl)⟩
  | calling record => exact ⟨.mcpRaises "", _, (fun e => by cases e), hstep (by simp only [Api.advance, hp]; rfl)⟩
  | setting d => exact ⟨.commits, _, (fun e => by cases e), hstep (by simp only [Api.advance, hp]; rfl)⟩
  | stored d matched => exact ⟨.finishes, _, (fun e => by cases e), hstep (by simp only [Api.advance, hp]; rfl)⟩

omit [CommRing T] [LinearOrder T] in
theorem run_step (w : System.Wiring Args Val Out) {q : System.St Args Val Out} {k : Nat} {r : RunState Args}
    (hr : q.runs[k]? = some r) (h : endOf r = none) : ∃ m q', windsDown (.system (.run k m) : Ev Args Val T) = true ∧
      cancels (.system (.run k m) : Ev Args Val T) = false ∧ System.step w q (.run k m) = some q' := by
  cases hp : r.pc with
  | resolving => exact ⟨.resolved, _, rfl, rfl, by simp only [System.step, hr, Option.bind_some, Runtime.Runner.advance, hp]; rfl⟩
  | agent =>
    exact ⟨.agentEnds (.returned "" 0), _, rfl, rfl,
      by simp only [System.step, hr, Option.bind_some, Runtime.Runner.advance, hp]; rfl⟩
  | persisting o n =>
    exact ⟨.addFails "", _, rfl, rfl, by simp only [System.step, hr, Option.bind_some, Runtime.Runner.advance, hp]; rfl⟩
  | ended report => simp [endOf, hp] at h
  | raised => simp [endOf, hp] at h
  | cancelled => simp [endOf, hp] at h

/-- A submit in its run waits for that, which goes on. -/
theorem running_goes_on (h : Live svc s) {i : Nat} {u : Sub} (hu : s.executor.subs[i]? = some u) (hp : u.pc = .running) :
    ∃ e t, windsDown e = true ∧ cancels e = false ∧ step svc s e = some t := by
  obtain ⟨k, r, hk, hr, hgoes⟩ := h.paired i u hu hp
  obtain ⟨m, q, hw, hc, hq⟩ := run_step (T := T) svc.wiring hr hgoes
  have hproceed : ∃ t, proceed svc s (.run k m) q = some t := by
    cases hend : q.runs[k]?.bind endOf with
    | none => exact ⟨_, by simp only [proceed, ran, Option.bind_some, hend, Option.map_none]; rfl⟩
    | some end' =>
      have hout : Executor.step svc.executor s.executor (.runEnd i end') =
          some (Executor.finishRun svc.executor i u end' s.executor) := by
        simp only [Executor.step, Executor.Ev.index, Option.bind_some, hu, Executor.move, hp, if_true]
      exact ⟨_, by simp only [proceed, ran, Option.bind_some, hend, Option.map_some, hk, hout]; rfl⟩
  obtain ⟨t, ht⟩ := hproceed
  refine ⟨.system (.run k m), t, hw, hc, ?_⟩
  rw [step_system fun a b c e => (by cases e), hq]
  exact ht

/-- With limits of at least 1 somebody can go on while something is under way. -/
theorem goes_on {definitions : List AgentDefinition} {start : T} (hinv : Inv svc definitions start s) (h : Live svc s)
    (hglobal : 1 ≤ svc.executor.globalLimit) (hagents : ∀ d ∈ svc.executor.definitions.rows, 1 ≤ d.limits.maxConcurrentRuns)
    (hd : ¬ Done s) : ∃ e t, windsDown e = true ∧ cancels e = false ∧ step svc s e = some t := by
  by_cases hidle : s.executor.idle
  · by_cases hh : ∀ h ∈ s.system.api.handlers, ∃ o, h.pc = .ended o
    · refine absurd ⟨hidle, fun r hr => ?_, hh⟩ hd
      obtain ⟨k, hk⟩ := List.getElem?_of_mem hr
      have hlt : k < s.submitOf.length := hinv.linked.length ▸ (List.getElem?_eq_some_iff.mp hk).1
      obtain ⟨u, hu, -, -, hlink⟩ := hinv.linked.link k _ r (List.getElem?_eq_getElem hlt) hk
      have hended := hidle u (List.mem_of_getElem? hu)
      refine (hlink.resolve_left fun hp => ?_).2
      simp [Executor.hasEnded, hp] at hended
    · simp only [not_forall, not_exists] at hh
      obtain ⟨hd, hmem, hne⟩ := hh
      obtain ⟨i, hi⟩ := List.getElem?_of_mem hmem
      obtain ⟨m, q, hm, hq⟩ := handler_goes_on svc.api hi hne
      have hsys : System.step svc.wiring s.system (.api (.move i m)) = some { s.system with api := q } := by
        show (Api.step svc.api s.system.api (.move i m)).map _ = _
        rw [hq]
        rfl
      refine ⟨.system (.api (.move i m)), { s with system := { s.system with api := q } }, rfl, ?_, ?_⟩
      · cases m with
        | cancel => exact absurd rfl hm
        | _ => rfl
      · rw [step_system fun a b c e => (by cases e), hsys]
        rfl
  · obtain ⟨i, u, hu, hc⟩ := Executor.some_canGoOn hglobal hagents h.executor hidle
    obtain ⟨e, ex, he, hst⟩ := Executor.canGoOn_step hu hc
    have hstep (hsub : ∀ r, e ≠ .submit r) (hend : ∀ i r, e ≠ .runEnd i r) :
        ∃ t, step svc s (.executor e "" none) = some t :=
      ⟨_, by rw [step_executor hsub hend, hst]; rfl⟩
    cases e with
    | submit r => cases he
    | cancel j => cases he
    | runEnd j r =>
      -- that run has not ended yet
      rcases Executor.step_move hst with ⟨_, e, -⟩ | ⟨j', w, hj, hw, -⟩
      · cases e
      · cases hj
        exact running_goes_on h hw (runEnd_running hst hw)
    | _ =>
      obtain ⟨t, ht⟩ := hstep (fun _ e => by cases e) (fun _ _ e => by cases e)
      exact ⟨_, t, rfl, rfl, ht⟩

/-! ## Every schedule ends -/

variable {env : Deps Args Val Out C} {config : GlobalConfig} {definitions : List AgentDefinition} {start : T}

theorem live_run (hb : buildService env config definitions = .ok svc) (h : Run (step svc) (fun _ _ => True) (init svc start) s) :
    Inv svc definitions start s ∧ Live svc s :=
  h.invariant (I := fun s => Inv svc definitions start s ∧ Live svc s)
    (fun s e t hi _ hst => ⟨Running.inv_step hb s e t hi.1 trivial hst, live_step hi.1 hi.2 hst⟩)
    ⟨Running.inv_init hb start, live_init start⟩

/-- With limits of at least 1, from every state of the service: steps that begin nothing new
    are at most `rank` many, and short of the end of every submit, run and handler another
    one is enabled; and without a cancellation they get there. -/
theorem winds_down (hb : buildService env config definitions = .ok svc)
    (hglobal : 1 ≤ config.runtime.maxConcurrentRunsGlobal)
    (hagents : ∀ d ∈ definitions, d.enabled = true → 1 ≤ d.limits.maxConcurrentRuns)
    (h : Run (step svc) (fun _ _ => True) (init svc start) s) :
    (∀ es t, exec (step svc) (fun _ e => windsDown e = true) s es = some t →
      es.length ≤ rank s ∧ (Done t ∨ ∃ e u, windsDown e = true ∧ cancels e = false ∧ step svc t e = some u)) ∧
      ∃ t, Run (step svc) (fun _ e => windsDown e = true ∧ cancels e = false) s t ∧ Done t := by
  have hinv := live_run hb h
  have hkeep : ∀ t e u, Inv svc definitions start t ∧ Live svc t → step svc t e = some u → Inv svc definitions start u ∧ Live svc u :=
    fun t e u hi hst => ⟨Running.inv_step hb t e u hi.1 trivial hst, live_step hi.1 hi.2 hst⟩
  have hgo : ∀ t, Inv svc definitions start t ∧ Live svc t → ¬ Done t →
      ∃ e u, windsDown e = true ∧ cancels e = false ∧ step svc t e = some u := by
    intro t hi hd
    obtain ⟨hx, -⟩ := App.buildService_ok hb
    obtain ⟨-, -, hlimit, -⟩ := Runnable.executor_ok hx
    refine goes_on hi.1 hi.2 (by omega) (fun d hrow => ?_) hd
    rw [App.built_executor hb] at hrow
    obtain ⟨hmem, hen⟩ := Sources.mem_byId hrow
    exact hagents d hmem hen
  constructor
  · intro es t hes
    have hlen := length_le_of_exec (I := fun s => Inv svc definitions start s ∧ Live svc s) rank
      (fun t e u hi _ hst => hkeep t e u hi hst) (fun _ _ _ _ hw hst => step_rank hw hst) hes hinv
    have hend := (Run.of_exec hes).invariant (I := fun s => Inv svc definitions start s ∧ Live svc s)
      (fun t e u hi _ hst => hkeep t e u hi hst) hinv
    by_cases hd : Done t
    · exact ⟨hlen, Or.inl hd⟩
    · exact ⟨hlen, Or.inr (hgo t hend hd)⟩
  · refine Run.exists_done (I := fun s => Inv svc definitions start s ∧ Live svc s) rank
      (fun t e u hi _ hst => hkeep t e u hi hst) (fun t hi hd => ?_) hinv
    obtain ⟨e, u, hw, hc, hst⟩ := hgo t hi hd
    exact ⟨e, u, ⟨hw, hc⟩, hst, step_rank hw hst⟩

end

/-- A run has proposed an action and goes on; it ends, and the tick loop's submit with it. -/
theorem winds_down_ingested :
    ∃ (svc : Service Unit Unit Unit String Int) (s : St Unit Unit Unit Int),
      buildService Running.deps App.demoConfig [Running.proposer] = .ok svc ∧
      Run (step svc) (fun _ _ => True) (init svc 0) s ∧ s.system.runs.countP Running.underWay = 1 ∧
      ∃ t, Run (step svc) (fun _ e => windsDown e = true ∧ cancels e = false) s t ∧ Done t := by
  obtain ⟨svc, h, hc⟩ : ∃ svc : Service Unit Unit Unit String Int, buildService Running.deps App.demoConfig [Running.proposer] = .ok svc ∧
      (exec (step svc) (fun _ _ => True) (init svc 0) Running.ingested).any
        (fun s => s.system.runs.countP Running.underWay == 1) = true :=
    ⟨_, rfl, by decide⟩
  obtain ⟨s, hr, hs⟩ := Run.exists_of_exec (step svc) (fun _ _ => True) (init svc 0) Running.ingested
    (fun s => s.system.runs.countP Running.underWay == 1) hc
  exact ⟨svc, s, h, hr, by simpa using hs, (winds_down h (by decide) (by decide) hr).2⟩

end SagaAgents.Progress
