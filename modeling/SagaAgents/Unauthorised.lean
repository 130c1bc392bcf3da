/-
  SagaAgents.Unauthorised — requests without the token leave no trace.

  `_verify_token` runs before the body of an approve, a reject or a trigger request. What
  the service does with these requests is compared with what it does without them: `erase`
  takes the ones without the token, and their handlers, out of a state of the service
  (`Running`). The handlers that stay are renumbered.

  Proved, over every run of the service:
  - `unauthorised_unseen`: each handler without the token has answered 403, always with the
    same text; and what is left of the state when these requests are taken out is reached
    by a run in which nobody makes one. So whatever strangers send and when, the table, the
    runs, the submits, the locks, the tool calls and the answers to everybody else are such
    as could be without them.
-/

import SagaAgents.Lib.Erase
import SagaAgents.Running

namespace SagaAgents.Unauthorised

open Lib
open Lib.Erase (place)
open App (Service buildService)
open Running (ran proceed enterRun submit requestOf answers ofListener)
open Triggers.Api (Handler Request Response verifyToken)

variable {Args Val Out C T : Type}

/-! ## A state without the unauthorised requests -/

def hasToken (app : Triggers.Api.App Args Val Out) (h : Handler Args Val Out) : Bool :=
  verifyToken app h.req.authorization

def invalidToken : Response Out := ⟨403, .detail "Invalid or missing token"⟩

def eraseApi (app : Triggers.Api.App Args Val Out) (s : Triggers.Api.St Args Val Out) : Triggers.Api.St Args Val Out :=
  { s with
    handlers := s.handlers.filter (hasToken app)
    calls := s.calls.map fun c => { c with handler := place (hasToken app) s.handlers c.handler } }

def eraseSystem (app : Triggers.Api.App Args Val Out) (s : System.St Args Val Out) : System.St Args Val Out :=
  { s with api := eraseApi app s.api }

def eraseSources (svc : Service Args Val Out C T) (s : Sources.St T) : Sources.St T :=
  { s with posts := s.posts.filter fun p => verifyToken svc.api p.2 }

def erase (svc : Service Args Val Out C T) (s : Running.St Args Val Out T) : Running.St Args Val Out T :=
  { s with sources := eraseSources svc s.sources, system := eraseSystem svc.api s.system }

/-- Not a request without the token. -/
def authorisedApi (app : Triggers.Api.App Args Val Out) : Triggers.Api.Ev Val → Bool
  | .request r => verifyToken app r.authorization
  | .move _ _ => true

def authorisedSystem (app : Triggers.Api.App Args Val Out) : System.Ev Args Val → Bool
  | .api e => authorisedApi app e
  | _ => true

def authorised (svc : Service Args Val Out C T) : Running.Ev Args Val T → Bool
  | .source (.post _ authorization) _ _ => verifyToken svc.api authorization
  | .system e => authorisedSystem svc.api e
  | _ => true

/-! ## The handlers without the token -/

/-- They have been turned away, and the calls are those of handlers there are. -/
structure Refused (app : Triggers.Api.App Args Val Out) (s : Triggers.Api.St Args Val Out) : Prop where
  ended : ∀ h ∈ s.handlers, hasToken app h = false → h.pc = .ended (.answered invalidToken)
  calls : ∀ c ∈ s.calls, c.handler < s.handlers.length

section

variable {app : Triggers.Api.App Args Val Out} {s t : Triggers.Api.St Args Val Out}

theorem refused_init (table : Proposals.Table) : Refused app (Triggers.Api.init table : Triggers.Api.St Args Val Out) :=
  ⟨fun _ hm => (by cases hm), fun _ hc => (by cases hc)⟩

theorem refused_same (h : Refused app s) (hh : t.handlers = s.handlers) (hc : t.calls = s.calls) : Refused app t :=
  ⟨by rw [hh]; exact h.ended, by rw [hh, hc]; exact h.calls⟩

theorem enter_refused {r : Request} (hr : verifyToken app r.authorization = false) :
    Triggers.Api.enter app r = .ended (.answered invalidToken) := by
  simp [Triggers.Api.enter, hr, invalidToken]

theorem not_ended {i : Nat} {table : Proposals.Table} {h : Handler Args Val Out} {m : Triggers.Api.Move Val}
    {f : Triggers.Api.Effect Args Val Out} (ha : Triggers.Api.advance app i table h m = some f)
    {o : Triggers.Api.Outcome Out} : h.pc ≠ .ended o := by
  intro hp
  unfold Triggers.Api.advance at ha
  rw [hp] at ha
  cases m <;> cases ha

/-- A handler that moves has the token. -/
theorem token_of_moves (h : Refused app s) {i : Nat} {hd : Handler Args Val Out} (hi : s.handlers[i]? = some hd)
    {m : Triggers.Api.Move Val} {f : Triggers.Api.Effect Args Val Out}
    (ha : Triggers.Api.advance app i s.table hd m = some f) : hasToken app hd = true := by
  by_cases ht : hasToken app hd = true
  · exact ht
  · have hp := h.ended hd (List.mem_of_getElem? hi) (by simpa using ht)
    exact absurd hp (not_ended ha)

theorem call_own {i : Nat} {table : Proposals.Table} {h : Handler Args Val Out} {m : Triggers.Api.Move Val}
    {f : Triggers.Api.Effect Args Val Out} (ha : Triggers.Api.advance app i table h m = some f) :
    ∀ c ∈ f.calls, c.handler = i := by
  intro c hc
  cases Triggers.Api.advance_cases ha with
  | invoke =>
    rw [List.mem_singleton.mp hc]
  | _ => cases hc

theorem refused_step {e : Triggers.Api.Ev Val} (h : Refused app s) (hs : Triggers.Api.step app s e = some t) : Refused app t := by
  cases e with
  | request r =>
    cases hs
    refine ⟨fun hd hm ht => ?_, fun c hc => ?_⟩
    · rcases List.mem_append.mp hm with hm | hm
      · exact h.ended hd hm ht
      · rw [List.mem_singleton.mp hm] at ht ⊢
        exact enter_refused ht
    · have hlt := h.calls c hc
      rw [List.length_append]
      omega
  | move i m =>
    obtain ⟨hd, hi, hs⟩ := Option.bind_eq_some_iff.mp hs
    obtain ⟨f, ha, e⟩ := Option.map_eq_some_iff.mp hs
    subst e
    have hreq := (Triggers.Api.advance_cases ha).req
    have htoken := token_of_moves h hi ha
    refine ⟨fun q hm ht => ?_, fun c hc => ?_⟩
    · rcases List.mem_or_eq_of_mem_set hm with hm | e
      · exact h.ended q hm ht
      · subst e
        rw [hasToken, hreq] at ht
        exact absurd htoken (by rw [hasToken, ht]; exact Bool.false_ne_true)
    · rw [show (s.apply i f).handlers = s.handlers.set i f.handler from rfl, List.length_set]
      rcases List.mem_append.mp hc with hc | hc
      · exact h.calls c hc
      · rw [call_own ha c hc]
        exact (List.getElem?_eq_some_iff.mp hi).1

/-! ## What a handler does without the others -/

def renumber (j : Nat) (f : Triggers.Api.Effect Args Val Out) : Triggers.Api.Effect Args Val Out :=
  { f with calls := f.calls.map fun c => { c with handler := j } }

/-- It does the same at its new place. -/
theorem advance_at (i j : Nat) (table : Proposals.Table) (h : Handler Args Val Out) (m : Triggers.Api.Move Val) :
    Triggers.Api.advance app j table h m = (Triggers.Api.advance app i table h m).map (renumber j) := by
  obtain ⟨req, pc, fetched⟩ := h
  cases pc with
  | getting =>
    cases m with
    | read =>
      simp only [Triggers.Api.advance]
      split <;> rfl
    | _ => rfl
  | got record =>
    cases m with
    | resume =>
      simp only [Triggers.Api.advance, Option.map_some, renumber, Option.some.injEq, Triggers.Api.Effect.mk.injEq, true_and]
      -- the call, if there is one, is the handler's own
      unfold Triggers.Api.applyProposal
      split <;> simp
    | _ => rfl
  | _ => cases m <;> rfl

theorem erase_move (h : Refused app s) {i : Nat} {m : Triggers.Api.Move Val}
    (hs : Triggers.Api.step app s (.move i m) = some t) :
    Triggers.Api.step app (eraseApi app s) (.move (place (hasToken app) s.handlers i) m) = some (eraseApi app t) := by
  obtain ⟨hd, hi, hs⟩ := Option.bind_eq_some_iff.mp hs
  obtain ⟨f, ha, e⟩ := Option.map_eq_some_iff.mp hs
  subst e
  have htoken := token_of_moves h hi ha
  have hreq : hasToken app f.handler = hasToken app hd := by rw [hasToken, (Triggers.Api.advance_cases ha).req]; rfl
  have hget : (eraseApi app s).handlers[place (hasToken app) s.handlers i]? = some hd := Erase.get_kept hi htoken
  have hplace (j : Nat) : place (hasToken app) (s.handlers.set i f.handler) j = place (hasToken app) s.handlers j :=
    Erase.place_set hi hreq
  have hown : (f.calls.map fun c => { c with handler := place (hasToken app) s.handlers c.handler }) =
      f.calls.map fun c => { c with handler := place (hasToken app) s.handlers i } :=
    List.map_congr_left fun c hc => by rw [call_own ha c hc]
  simp only [Triggers.Api.step, hget, Option.bind_some]
  rw [advance_at i, show (eraseApi app s).table = s.table from rfl, ha]
  simp only [Option.map_some, Option.some.injEq, Triggers.Api.St.apply, eraseApi, renumber, Triggers.Api.St.mk.injEq, hplace,
    List.map_append, hown, true_and, and_true]
  exact (Erase.filter_set hi htoken (by rw [hreq, htoken])).symm

theorem erase_request (h : Refused app s) (r : Request) :
    eraseApi app { s with handlers := s.handlers ++ [⟨r, Triggers.Api.enter app r, none⟩] } =
      if verifyToken app r.authorization then
        { eraseApi app s with handlers := (eraseApi app s).handlers ++ [⟨r, Triggers.Api.enter app r, none⟩] }
      else eraseApi app s := by
  have hcalls : (s.calls.map fun c =>
        { c with handler := place (hasToken app) (s.handlers ++ [⟨r, Triggers.Api.enter app r, none⟩]) c.handler }) =
      s.calls.map fun c => { c with handler := place (hasToken app) s.handlers c.handler } :=
    List.map_congr_left fun c hc => by rw [Erase.place_append (Nat.le_of_lt (h.calls c hc))]
  by_cases ht : verifyToken app r.authorization = true
  · simp [eraseApi, hcalls, List.filter_append, hasToken, ht]
  · simp [eraseApi, hcalls, List.filter_append, hasToken, ht]

/-- A step is one without the unauthorised requests, or it is one of them. -/
theorem erase_api {e : Triggers.Api.Ev Val} (h : Refused app s) (hs : Triggers.Api.step app s e = some t) :
    (authorisedApi app e = false ∧ eraseApi app t = eraseApi app s) ∨
      ∃ e', authorisedApi app e' = true ∧ Triggers.Api.step app (eraseApi app s) e' = some (eraseApi app t) := by
  cases e with
  | request r =>
    cases hs
    rw [erase_request h]
    by_cases ht : verifyToken app r.authorization = true
    · rw [if_pos ht]
      exact Or.inr ⟨.request r, ht, rfl⟩
    · rw [if_neg ht]
      exact Or.inl ⟨by simpa [authorisedApi] using ht, rfl⟩
  | move i m => exact Or.inr ⟨_, rfl, erase_move h hs⟩

end

/-! ## The runs and the table -/

section

variable {w : System.Wiring Args Val Out} {s t : System.St Args Val Out}

/-- A step that is none of a handler does not see the requests, and leaves them as they are. -/
theorem system_own {e : System.Ev Args Val} (he : ∀ a, e ≠ .api a) (hs : System.step w s e = some t) :
    System.step w (eraseSystem w.app s) e = some (eraseSystem w.app t) ∧
      t.api.handlers = s.api.handlers ∧ t.api.calls = s.api.calls := by
  cases e with
  | start agentId runId traceId =>
    obtain ⟨d, hd, e⟩ := Option.map_eq_some_iff.mp hs
    subst e
    refine ⟨?_, rfl, rfl⟩
    simp only [System.step, hd, Option.map_some]
    rfl
  | run i m =>
    cases m with
    | added => cases hs
    | _ =>
      obtain ⟨r, hr, hs⟩ := Option.bind_eq_some_iff.mp hs
      obtain ⟨r', ha, e⟩ := Option.map_eq_some_iff.mp hs
      subst e
      refine ⟨?_, rfl, rfl⟩
      simp only [System.step, show (eraseSystem w.app s).runs = s.runs from rfl, hr, Option.bind_some, ha, Option.map_some]
      rfl
  | add i id now m =>
    simp only [System.step] at hs ⊢
    split at hs
    · rename_i hm
      obtain ⟨r, hr, hs⟩ := Option.bind_eq_some_iff.mp hs
      obtain ⟨r', ha, hs⟩ := Option.bind_eq_some_iff.mp hs
      rw [if_pos hm, show (eraseSystem w.app s).runs = s.runs from rfl, hr, Option.bind_some, ha, Option.bind_some]
      unfold System.addNext at hs ⊢
      split at hs
      · rename_i o k hpc
        obtain ⟨p, hp, hs⟩ := Option.bind_eq_some_iff.mp hs
        obtain ⟨a, hadd, e⟩ := Option.map_eq_some_iff.mp hs
        subst e
        refine ⟨?_, rfl, rfl⟩
        simp only [hp, Option.bind_some, show (eraseSystem w.app s).api.table = s.api.table from rfl, hadd, Option.map_some]
        rfl
      · cases hs
    · cases hs
  | api a => exact absurd rfl (he a)

theorem refused_system {e : System.Ev Args Val} (h : Refused w.app s.api) (hs : System.step w s e = some t) :
    Refused w.app t.api := by
  by_cases he : ∃ a, e = .api a
  · obtain ⟨a, e'⟩ := he
    subst e'
    obtain ⟨api, ha, e'⟩ := Option.map_eq_some_iff.mp hs
    subst e'
    exact refused_step h ha
  · obtain ⟨-, hh, hc⟩ := system_own (fun a e' => he ⟨a, e'⟩) hs
    exact refused_same h hh hc

/-- As `erase_api`, for the whole system; and the step is of the same run. -/
theorem erase_system {e : System.Ev Args Val} (h : Refused w.app s.api) (hs : System.step w s e = some t)
    (he : ∀ a b c, e ≠ .start a b c) :
    (authorisedSystem w.app e = false ∧ ran e = none ∧ eraseSystem w.app t = eraseSystem w.app s) ∨
      ∃ e', authorisedSystem w.app e' = true ∧ ran e' = ran e ∧ (∀ a b c, e' ≠ .start a b c) ∧
        System.step w (eraseSystem w.app s) e' = some (eraseSystem w.app t) := by
  by_cases hapi : ∃ a, e = .api a
  · obtain ⟨a, e'⟩ := hapi
    subst e'
    obtain ⟨api, ha, e'⟩ := Option.map_eq_some_iff.mp hs
    subst e'
    rcases erase_api h ha with ⟨hno, heq⟩ | ⟨e', hok, hst⟩
    · exact Or.inl ⟨hno, rfl, congrArg (fun a => ({ s with api := a } : System.St Args Val Out)) heq⟩
    · refine Or.inr ⟨.api e', hok, rfl, fun _ _ _ e => (by cases e), ?_⟩
      simp only [System.step, show (eraseSystem w.app s).api = eraseApi w.app s.api from rfl, hst, Option.map_some]
      rfl
  · have hown : ∀ a, e ≠ .api a := fun a e' => hapi ⟨a, e'⟩
    refine Or.inr ⟨e, ?_, rfl, he, (system_own hown hs).1⟩
    cases e with
    | api a => exact absurd rfl (hown a)
    | _ => rfl

end

/-! ## The service -/

section

variable {svc : Service Args Val Out C T} {s t : Running.St Args Val Out T}

/-- A run begins with or without the requests. -/
theorem erase_enterRun (svc : Service Args Val Out C T) (i : Nat) (runId : String) (traceId : Option String) (s : Running.St Args Val Out T) :
    enterRun svc i runId traceId (erase svc s) = erase svc (enterRun svc i runId traceId s) ∧
      (enterRun svc i runId traceId s).system.api = s.system.api := by
  unfold enterRun
  rw [show (erase svc s).executor = s.executor from rfl]
  cases hu : s.executor.subs[i]? with
  | none => exact ⟨rfl, rfl⟩
  | some u =>
    simp only [Option.bind_some]
    by_cases hp : u.pc = .running
    · rw [if_pos hp, if_pos hp]
      simp only [System.step]
      cases hd : svc.wiring.definitions.get u.req.agentId with
      | none => exact ⟨rfl, rfl⟩
      | some d => exact ⟨rfl, rfl⟩
    · rw [if_neg hp, if_neg hp]
      exact ⟨rfl, rfl⟩

theorem erase_submit (svc : Service Args Val Out C T) (r : Triggers.Executor.RunRequest) (waits : Bool) (runId : String) (traceId : Option String)
    (s : Running.St Args Val Out T) :
    submit svc r waits runId traceId (erase svc s) = erase svc (submit svc r waits runId traceId s) ∧
      (submit svc r waits runId traceId s).system.api = s.system.api :=
  erase_enterRun svc s.executor.subs.length runId traceId
    { s with executor := Triggers.Executor.submit svc.executor r s.executor,
             awaited := if waits then some s.executor.subs.length else s.awaited }

/-- A run's end ends its submit with or without the requests. -/
theorem erase_proceed {e e' : System.Ev Args Val} (he : ran e' = ran e) {q : System.St Args Val Out}
    (h : proceed svc s e q = some t) :
    proceed svc (erase svc s) e' (eraseSystem svc.api q) = some (erase svc t) ∧ t.system = q := by
  unfold proceed at h ⊢
  rw [he, show (eraseSystem svc.api q).runs = q.runs from rfl]
  split at h
  · cases h
    exact ⟨rfl, rfl⟩
  · rename_i k r _
    obtain ⟨i, hi, h⟩ := Option.bind_eq_some_iff.mp h
    obtain ⟨ex, hex, e⟩ := Option.map_eq_some_iff.mp h
    subst e
    refine ⟨?_, rfl⟩
    simp only [show (erase svc s).submitOf = s.submitOf from rfl, hi, Option.bind_some,
      show (erase svc s).executor = s.executor from rfl, hex, Option.map_some]
    rfl

theorem requestOf_same (q : Sources.St T) (posts : List (String × Option String)) :
    requestOf q { q with posts := posts } = none := by
  cases hl : q.listener with
  | none => simp [requestOf, hl]
  | some l => simp [requestOf, hl]

variable [CommRing T] [LinearOrder T]

/-- A step of the sources is one without the unauthorised requests, or it is one of them and
    submits nothing. -/
theorem erase_sources {e : Sources.Ev T} {q q' : Sources.St T} (h : Sources.step svc q e = some q') (runId : String)
    (traceId : Option String) :
    (authorised svc (.source e runId traceId : Running.Ev Args Val T) = false ∧ requestOf q q' = none ∧
        eraseSources svc q' = eraseSources svc q) ∨
      (authorised svc (.source e runId traceId : Running.Ev Args Val T) = true ∧
        Sources.step svc (eraseSources svc q) e = some (eraseSources svc q')) := by
  cases e with
  | listener e =>
    obtain ⟨l, hl, h⟩ := Option.bind_eq_some_iff.mp h
    obtain ⟨l', hl', e⟩ := Option.map_eq_some_iff.mp h
    subst e
    refine Or.inr ⟨rfl, ?_⟩
    simp only [Sources.step, show (eraseSources svc q).listener = q.listener from rfl, hl, Option.bind_some, hl', Option.map_some]
    rfl
  | fires i =>
    obtain ⟨r, hr, e⟩ := Option.map_eq_some_iff.mp h
    subst e
    refine Or.inr ⟨rfl, ?_⟩
    simp only [Sources.step, hr, Option.map_some]
    rfl
  | post agentId authorization =>
    by_cases ht : verifyToken svc.api authorization = true
    · refine Or.inr ⟨ht, ?_⟩
      simp only [Sources.step] at h ⊢
      split at h <;> cases h <;> simp [eraseSources, ht]
    · have ht : verifyToken svc.api authorization = false := by simpa using ht
      have hno : Sources.triggerAgent svc.api svc.executor.definitions agentId authorization =
          .error ⟨403, "Invalid or missing token"⟩ := by simp [Sources.triggerAgent, ht]
      simp only [Sources.step, hno] at h
      cases h
      exact Or.inl ⟨ht, requestOf_same _ _, by simp [eraseSources, ht]⟩

/-- A step of the sources that makes no request. -/
theorem source_silent {e : Sources.Ev T} {q : Sources.St T} (ha : answers s e = true) (hq : Sources.step svc s.sources e = some q)
    (hr : requestOf s.sources q = none) (runId : String) (traceId : Option String) :
    Running.step svc s (.source e runId traceId) = some { s with sources := q } := by
  simp only [Running.step, ha, if_true, hq, Option.map_some, hr]

/-- One that does. -/
theorem source_submits {e : Sources.Ev T} {q : Sources.St T} (ha : answers s e = true) (hq : Sources.step svc s.sources e = some q)
    {r : Triggers.Executor.RunRequest} (hr : requestOf s.sources q = some r) (runId : String) (traceId : Option String) :
    Running.step svc s (.source e runId traceId) = some (submit svc r (ofListener e) runId traceId { s with sources := q }) := by
  simp only [Running.step, ha, if_true, hq, Option.map_some, hr]

/-- Each step of the service is one without the unauthorised requests, or it is one of them
    and nothing else changes. -/
theorem erase_step {e : Running.Ev Args Val T} (h : Refused svc.api s.system.api) (hs : Running.step svc s e = some t) :
    Refused svc.api t.system.api ∧
      ((authorised svc e = false ∧ erase svc t = erase svc s) ∨
        ∃ e', authorised svc e' = true ∧ Running.step svc (erase svc s) e' = some (erase svc t)) := by
  cases e with
  | source e runId traceId =>
    simp only [Running.step] at hs
    split at hs
    case isFalse => cases hs
    rename_i hans
    obtain ⟨q, hq, e'⟩ := Option.map_eq_some_iff.mp hs
    subst e'
    have hans' : answers (erase svc s) e = true := hans
    rcases erase_sources hq runId traceId with ⟨hno, hreq, heq⟩ | ⟨hok, hst⟩
    · rw [hreq]
      exact ⟨h, Or.inl ⟨hno, congrArg (fun q => ({ erase svc s with sources := q } : Running.St Args Val Out T)) heq⟩⟩
    · cases hr : requestOf s.sources q with
      | none => exact ⟨h, Or.inr ⟨_, hok, source_silent hans' hst hr runId traceId⟩⟩
      | some r =>
        obtain ⟨hsub, hapi⟩ := erase_submit svc r (ofListener e) runId traceId { s with sources := q }
        refine ⟨?_, Or.inr ⟨_, hok, (source_submits hans' hst hr runId traceId).trans (congrArg some hsub)⟩⟩
        show Refused svc.api (submit svc r (ofListener e) runId traceId { s with sources := q }).system.api
        rw [hapi]
        exact h
  | executor e runId traceId =>
    have hne : ∀ i r, e ≠ .runEnd i r := by
      intro i r e'
      subst e'
      cases hs
    have hsub : ∀ r, e ≠ .submit r := by
      intro r e'
      subst e'
      cases hs
    rw [Running.step_executor hsub hne] at hs
    obtain ⟨ex, hex, e'⟩ := Option.map_eq_some_iff.mp hs
    subst e'
    obtain ⟨hent, hapi⟩ := erase_enterRun svc (e.index.getD s.executor.subs.length) runId traceId { s with executor := ex }
    refine ⟨by rw [hapi]; exact h, Or.inr ⟨.executor e runId traceId, rfl, ?_⟩⟩
    rw [Running.step_executor hsub hne, show (erase svc s).executor = s.executor from rfl, hex]
    exact congrArg some hent
  | system e =>
    have he : ∀ a b c, e ≠ .start a b c := by
      intro a b c e'
      subst e'
      cases hs
    rw [Running.step_system he] at hs
    obtain ⟨q, hq, hs⟩ := Option.bind_eq_some_iff.mp hs
    have hafter : Refused svc.api q.api := refused_system (w := svc.wiring) h hq
    obtain ⟨-, hsys⟩ := erase_proceed (rfl : ran e = ran e) hs
    refine ⟨by rw [hsys]; exact hafter, ?_⟩
    rcases erase_system (w := svc.wiring) h hq he with ⟨hno, hran, heq⟩ | ⟨e', hok, hran, he', hst⟩
    · simp only [proceed, hran, Option.bind_none] at hs
      cases hs
      exact Or.inl ⟨hno, congrArg (fun q => ({ erase svc s with system := q } : Running.St Args Val Out T)) heq⟩
    · refine Or.inr ⟨.system e', hok, ?_⟩
      rw [Running.step_system he']
      refine Option.bind_eq_some_iff.mpr ⟨_, hst, ?_⟩
      exact (erase_proceed hran hs).1

theorem refused_run {now : T} (h : Run (Running.step svc) (fun _ _ => True) (Running.init svc now) s) :
    Refused svc.api s.system.api :=
  h.invariant (I := fun s => Refused svc.api s.system.api) (fun _ _ _ hi _ hs => (erase_step hi hs).1) (refused_init _)

/-- In every run of the service each approve or reject request without the token has been
    answered 403 with the same text. What the service has reached with these requests and the
    trigger requests without the token, it reaches, in all that is left when they are taken
    out, by a run that has none of them. -/
theorem unauthorised_unseen {now : T} (h : Run (Running.step svc) (fun _ _ => True) (Running.init svc now) s) :
    (∀ hd ∈ s.system.api.handlers, hasToken svc.api hd = false →
      hd.pc = .ended (.answered ⟨403, .detail "Invalid or missing token"⟩)) ∧
    Run (Running.step svc) (fun _ e => authorised svc e = true) (Running.init svc now) (erase svc s) := by
  refine ⟨(refused_run h).ended, ?_⟩
  refine Run.simulate (I := fun s => Refused svc.api s.system.api) (erase svc) (fun _ _ _ hi _ hs => (erase_step hi hs).1) ?_ h
    (refused_init _)
  intro s e t hi _ hs
  rcases (erase_step hi hs).2 with ⟨-, heq⟩ | ⟨e', hok, hst⟩
  · rw [heq]
    exact .refl _
  · exact Run.single e' hok hst

end

/-! Before the token's owner approves, somebody without it tries the same, and triggers the
    agent. -/

def stranger : List (Running.Ev Unit Unit Int) :=
  [.system (.api (.request ⟨.approve, "p", none⟩)), .source (.post "event-deduplicator" (some "Bearer x")) "x" none]

def approvedAfter : List (Running.Ev Unit Unit Int) :=
  Running.ingested ++ [.system (.run 0 (.agentEnds (.returned "done" 1))), .system (.add 0 "p" 0 .added)] ++ stranger ++
    [.system (.api (Triggers.Api.authorised .approve)), .system (.api (.move 1 .read)), .system (.api (.move 1 .resume))]

/-- Handler 1 has invoked the tool, and would be handler 0. -/
def invokedSecond (app : Triggers.Api.App Unit Unit Unit) (s : Running.St Unit Unit Unit Int) : Bool :=
  s.system.api.handlers.any (fun h => !hasToken app h) && s.system.api.calls.any (·.handler == 1) &&
    (eraseApi app s.system.api).calls.any (·.handler == 0)

theorem unauthorised_unseen_approved :
    ∃ (svc : Service Unit Unit Unit String Int) (s : Running.St Unit Unit Unit Int),
      buildService Running.deps App.demoConfig [Running.proposer] = .ok svc ∧ invokedSecond svc.api s = true ∧
      (∀ hd ∈ s.system.api.handlers, hasToken svc.api hd = false →
        hd.pc = .ended (.answered ⟨403, .detail "Invalid or missing token"⟩)) ∧
      Run (Running.step svc) (fun _ e => authorised svc e = true) (Running.init svc 0) (erase svc s) := by
  obtain ⟨svc, h, hc⟩ : ∃ svc : Service Unit Unit Unit String Int, buildService Running.deps App.demoConfig [Running.proposer] = .ok svc ∧
      (exec (Running.step svc) (fun _ _ => True) (Running.init svc 0) approvedAfter).any (invokedSecond svc.api) = true :=
    ⟨_, rfl, by decide⟩
  obtain ⟨s, hr, hs⟩ := Run.exists_of_exec (Running.step svc) (fun _ _ => True) (Running.init svc 0) approvedAfter
    (invokedSecond svc.api) hc
  exact ⟨svc, s, h, hs, unauthorised_unseen hr⟩

end SagaAgents.Unauthorised
