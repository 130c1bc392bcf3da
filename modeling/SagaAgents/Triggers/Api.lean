/-
  SagaAgents.Triggers.Api — the approve and reject endpoints (`triggers/api.py`,
  `proposals/apply.py`), cut at their awaits.

  A handler is one request's task. Between two of its steps any other task may run:
  `store.get` reads its row (`read`) before the handler goes on with it (`resume`);
  `apply_proposal` invokes `mcp_call` and waits (`calling`) until it returns or raises;
  `set_status` waits (`setting`) for its UPDATE to be committed (`commits`), and the
  handler answers when it runs again (`finishes`). A store method can also raise, the
  UPDATE committed or not, and a handler can be cancelled wherever it waits.

  `calls` and `returned` record what reached the MCP server: every invocation, and the
  proposals whose invocation returned. `counted` is `AGENT_PROPOSALS`: the state label of
  every increment. A handler's `fetched` is the record `store.get` gave it.
-/

import SagaAgents.Lib.Machine
import SagaAgents.Proposals.Store

namespace SagaAgents.Triggers.Api

open SagaAgents.Proposals

/-! ## Requests and answers -/

inductive Endpoint where
  | approve
  | reject
  deriving DecidableEq, Repr

structure Request where
  endpoint : Endpoint
  proposalId : String
  authorization : Option String
  deriving DecidableEq, Repr

inductive Body (Out : Type) where
  | error (text : String)
  | detail (text : String)
  | applied (result : Out)
  | rejected
  deriving DecidableEq, Repr

structure Response (Out : Type) where
  code : Nat
  body : Body Out
  deriving DecidableEq, Repr

/-- `raised`: an exception left the handler, and the server answers a bare 500. -/
inductive Outcome (Out : Type) where
  | answered (r : Response Out)
  | raised
  | cancelled
  deriving DecidableEq, Repr

/-- How a tool's result becomes a body: `jsonable_encoder` may raise, `str` does not,
    and `JSONResponse` renders the result or raises. -/
structure Wire (Val Out : Type) where
  jsonableEncoder : Val → Option Out
  str : Val → Out
  renders : Out → Bool

/-- The arguments of `build_api` that the proposal endpoints use. -/
structure App (Args Val Out : Type) where
  expectedToken : String
  proposalStore : Bool := true
  mcpCall : Bool := true
  codec : Codec Args
  wire : Wire Val Out

variable {Args Val Out : Type}

/-! ## One handler -/

/-- What the handler has set out to store. -/
inductive Decision (Val : Type) where
  | applied (result : Val)
  | failed (error : String)
  | rejected
  deriving DecidableEq, Repr

def Decision.status : Decision Val → Status
  | .applied _ => .applied
  | .failed _ => .failed
  | .rejected => .rejected

def Decision.error : Decision Val → Option String
  | .failed e => some e
  | _ => none

inductive Pc (Args Val Out : Type) where
  | getting
  | got (record : Option (ProposalRecord Args))
  | calling (record : ProposalRecord Args)
  | setting (d : Decision Val)
  | stored (d : Decision Val) (matched : Bool)
  | ended (o : Outcome Out)
  deriving DecidableEq, Repr

structure Handler (Args Val Out : Type) where
  req : Request
  pc : Pc Args Val Out
  fetched : Option (ProposalRecord Args)
  deriving DecidableEq, Repr

def verifyToken (api : App Args Val Out) (authorization : Option String) : Bool :=
  authorization == some ("Bearer " ++ api.expectedToken)

def disabled : Response Out := ⟨503, .error "proposals disabled"⟩

def notFound (proposalId : String) : Response Out := ⟨404, .detail ("Proposal not found: " ++ proposalId)⟩

/-- From the request to the first await. -/
def enter (api : App Args Val Out) (r : Request) : Pc Args Val Out :=
  if !verifyToken api r.authorization then .ended (.answered ⟨403, .detail "Invalid or missing token"⟩)
  else
    match r.endpoint with
    | .approve =>
      if !api.mcpCall then .ended (.answered disabled)
      else if !api.proposalStore then .ended (.answered disabled)
      else .getting
    | .reject => if !api.proposalStore then .ended (.answered disabled) else .getting

/-- From `store.get` to the next await. -/
def afterGet (r : Request) : Option (ProposalRecord Args) → Pc Args Val Out
  | none => .ended (.answered (notFound r.proposalId))
  | some record =>
    if record.status ≠ .pending then .ended (.answered (notFound r.proposalId))
    else
      match r.endpoint with
      | .approve => .calling record
      | .reject => .setting .rejected

/-- From `set_status` to the answer. -/
def answer (api : App Args Val Out) : Decision Val → Outcome Out
  | .applied v =>
    let safeResult := (api.wire.jsonableEncoder v).getD (api.wire.str v)
    if api.wire.renders safeResult then .answered ⟨200, .applied safeResult⟩ else .raised
  | .failed e => .answered ⟨500, .error e⟩
  | .rejected => .answered ⟨200, .rejected⟩

inductive Move (Val : Type) where
  | read
  | readFails
  | resume
  | mcpReturns (v : Val)
  | mcpRaises (e : String)
  | commits
  | setFails
  | finishes
  | cancel
  deriving DecidableEq, Repr

structure Call (Args : Type) where
  handler : Nat
  proposalId : String
  action : String
  arguments : Args
  deriving DecidableEq, Repr

/-- What a move does: to its handler, to the table, and outside. -/
structure Effect (Args Val Out : Type) where
  handler : Handler Args Val Out
  table : Table
  calls : List (Call Args) := []
  returned : List String := []
  counted : List Status := []

def Handler.to (h : Handler Args Val Out) (pc : Pc Args Val Out) : Handler Args Val Out := { h with pc := pc }

/-- The call `apply_proposal` makes when the handler starts to wait for it. -/
def applyProposal (i : Nat) (r : Request) : Pc Args Val Out → List (Call Args)
  | .calling record => [⟨i, r.proposalId, record.action, record.arguments⟩]
  | _ => []

def advance (api : App Args Val Out) (i : Nat) (t : Table) (h : Handler Args Val Out) (m : Move Val) :
    Option (Effect Args Val Out) :=
  match h.pc, m with
  | .getting, .read =>
    match Proposals.get api.codec t h.req.proposalId with
    | none => some { handler := h.to (.ended .raised), table := t }
    | some record => some { handler := { h with pc := .got record, fetched := record }, table := t }
  | .getting, .readFails => some { handler := h.to (.ended .raised), table := t }
  | .got record, .resume =>
    let pc := afterGet h.req record
    some { handler := h.to pc, table := t, calls := applyProposal i h.req pc }
  | .calling _, .mcpReturns v =>
    some { handler := h.to (.setting (.applied v)), table := t, returned := [h.req.proposalId] }
  | .calling _, .mcpRaises e => some { handler := h.to (.setting (.failed e)), table := t }
  | .setting d, .commits =>
    let w := setStatus t h.req.proposalId d.status d.error
    some { handler := h.to (.stored d w.1), table := w.2 }
  | .setting _, .setFails => some { handler := h.to (.ended .raised), table := t }
  | .stored _ _, .setFails => some { handler := h.to (.ended .raised), table := t }
  | .stored d matched, .finishes =>
    some { handler := h.to (.ended (answer api d)), table := t, counted := if matched then [d.status] else [] }
  | .ended _, .cancel => none
  | _, .cancel => some { handler := h.to (.ended .cancelled), table := t }
  | _, _ => none

/-! ## All handlers -/

structure St (Args Val Out : Type) where
  table : Table
  handlers : List (Handler Args Val Out)
  calls : List (Call Args)
  returned : List String
  counted : List Status

def init (t : Table) : St Args Val Out := ⟨t, [], [], [], []⟩

inductive Ev (Val : Type) where
  | request (r : Request)
  | move (i : Nat) (m : Move Val)
  deriving DecidableEq, Repr

def St.apply (s : St Args Val Out) (i : Nat) (f : Effect Args Val Out) : St Args Val Out :=
  { table := f.table, handlers := s.handlers.set i f.handler, calls := s.calls ++ f.calls,
    returned := s.returned ++ f.returned, counted := s.counted ++ f.counted }

def step (api : App Args Val Out) (s : St Args Val Out) : Ev Val → Option (St Args Val Out)
  | .request r => some { s with handlers := s.handlers ++ [⟨r, enter api r, none⟩] }
  | .move i m => s.handlers[i]?.bind fun h => (advance api i s.table h m).map (s.apply i)

/-- The store does not fail and no task is cancelled. -/
def healthy : Ev Val → Bool
  | .move _ .readFails | .move _ .setFails | .move _ .cancel => false
  | _ => true

def St.callsFor (s : St Args Val Out) (pid : String) : List (Call Args) := s.calls.filter (·.proposalId == pid)

/-! ## What a move can do -/

/-- The moves of a handler, one constructor for each way through `advance`. -/
inductive Advance (api : App Args Val Out) (i : Nat) (t : Table) (h : Handler Args Val Out) :
    Move Val → Effect Args Val Out → Prop
  | unreadable (hp : h.pc = .getting) (hg : Proposals.get api.codec t h.req.proposalId = none) :
      Advance api i t h .read { handler := h.to (.ended .raised), table := t }
  | read (record : Option (ProposalRecord Args)) (hp : h.pc = .getting)
      (hg : Proposals.get api.codec t h.req.proposalId = some record) :
      Advance api i t h .read { handler := { h with pc := .got record, fetched := record }, table := t }
  | readFails (hp : h.pc = .getting) : Advance api i t h .readFails { handler := h.to (.ended .raised), table := t }
  | missing (record : Option (ProposalRecord Args)) (hp : h.pc = .got record)
      (hm : ∀ r, record = some r → r.status ≠ .pending) :
      Advance api i t h .resume { handler := h.to (.ended (.answered (notFound h.req.proposalId))), table := t }
  | invoke (record : ProposalRecord Args) (hp : h.pc = .got (some record)) (hs : record.status = .pending)
      (he : h.req.endpoint = .approve) :
      Advance api i t h .resume
        { handler := h.to (.calling record), table := t,
          calls := [⟨i, h.req.proposalId, record.action, record.arguments⟩] }
  | decline (record : ProposalRecord Args) (hp : h.pc = .got (some record)) (hs : record.status = .pending)
      (he : h.req.endpoint = .reject) :
      Advance api i t h .resume { handler := h.to (.setting .rejected), table := t }
  | mcpReturns (record : ProposalRecord Args) (v : Val) (hp : h.pc = .calling record) :
      Advance api i t h (.mcpReturns v)
        { handler := h.to (.setting (.applied v)), table := t, returned := [h.req.proposalId] }
  | mcpRaises (record : ProposalRecord Args) (e : String) (hp : h.pc = .calling record) :
      Advance api i t h (.mcpRaises e) { handler := h.to (.setting (.failed e)), table := t }
  | commits (d : Decision Val) (hp : h.pc = .setting d) :
      Advance api i t h .commits
        { handler := h.to (.stored d (setStatus t h.req.proposalId d.status d.error).1),
          table := (setStatus t h.req.proposalId d.status d.error).2 }
  | setFails (hp : (∃ d, h.pc = .setting d) ∨ ∃ d b, h.pc = .stored d b) :
      Advance api i t h .setFails { handler := h.to (.ended .raised), table := t }
  | finishes (d : Decision Val) (b : Bool) (hp : h.pc = .stored d b) :
      Advance api i t h .finishes
        { handler := h.to (.ended (answer api d)), table := t, counted := if b then [d.status] else [] }
  | cancel (hp : ∀ o, h.pc ≠ .ended o) : Advance api i t h .cancel { handler := h.to (.ended .cancelled), table := t }

theorem advance_cases {api : App Args Val Out} {i : Nat} {t : Table} {h : Handler Args Val Out} {m : Move Val}
    {f : Effect Args Val Out} (ha : advance api i t h m = some f) : Advance api i t h m f := by
  unfold advance at ha
  split at ha
  · rename_i hp
    split at ha
    · rename_i hg; cases ha; exact .unreadable hp hg
    · rename_i record hg; cases ha; exact .read record hp hg
  · rename_i hp; cases ha; exact .readFails hp
  · rename_i record hp
    cases ha
    cases record with
    | none => exact .missing none hp (fun _ e => by cases e)
    | some r =>
      by_cases hs : r.status = .pending
      · cases he : h.req.endpoint with
        | approve => simpa [afterGet, hs, he, applyProposal] using Advance.invoke r hp hs he
        | reject => simpa [afterGet, hs, he, applyProposal] using Advance.decline r hp hs he
      · simpa [afterGet, hs, applyProposal] using Advance.missing (some r) hp (fun r' e => by cases e; exact hs)
  · rename_i record v hp; cases ha; exact .mcpReturns record v hp
  · rename_i record e hp; cases ha; exact .mcpRaises record e hp
  · rename_i d hp; cases ha; exact .commits d hp
  · rename_i d hp; cases ha; exact .setFails (Or.inl ⟨d, hp⟩)
  · rename_i d b hp; cases ha; exact .setFails (Or.inr ⟨d, b, hp⟩)
  · rename_i d b hp; cases ha; exact .finishes d b hp
  · cases ha
  · rename_i hne
    cases ha
    exact .cancel fun o ho => hne o ho
  · cases ha

/-- A step appends a new handler, or moves one handler and applies its effect. -/
theorem step_cases {api : App Args Val Out} {s t : St Args Val Out} {e : Ev Val} (h : step api s e = some t) :
    (∃ r, e = .request r ∧ t = { s with handlers := s.handlers ++ [⟨r, enter api r, none⟩] }) ∨
    ∃ i m hd f, e = .move i m ∧ s.handlers[i]? = some hd ∧ Advance api i s.table hd m f ∧ t = s.apply i f := by
  cases e with
  | request r => left; cases h; exact ⟨r, rfl, rfl⟩
  | move i m =>
    right
    obtain ⟨hd, hh, ha⟩ := Option.bind_eq_some_iff.mp h
    obtain ⟨f, hf, rfl⟩ := Option.map_eq_some_iff.mp ha
    exact ⟨i, m, hd, f, rfl, hh, advance_cases hf, rfl⟩

/-- The new handler was authorised and waits for the store, or it was turned away. -/
theorem enter_cases (api : App Args Val Out) (r : Request) :
    (enter api r = .getting ∧ verifyToken api r.authorization = true) ∨
      ∃ a, enter api r = .ended (.answered a) ∧ a.code ≠ 200 := by
  unfold enter
  split
  · exact Or.inr ⟨_, rfl, by simp⟩
  · rename_i hv
    have hv : verifyToken api r.authorization = true := by simpa using hv
    cases r.endpoint with
    | approve =>
      by_cases h1 : api.mcpCall = true
      · by_cases h2 : api.proposalStore = true
        · exact Or.inl ⟨by simp [h1, h2], hv⟩
        · exact Or.inr ⟨disabled, by simp [h1, h2], by simp [disabled]⟩
      · exact Or.inr ⟨disabled, by simp [h1], by simp [disabled]⟩
    | reject =>
      by_cases h2 : api.proposalStore = true
      · exact Or.inl ⟨by simp [h2], hv⟩
      · exact Or.inr ⟨disabled, by simp [h2], by simp [disabled]⟩

@[simp] theorem Handler.to_req (h : Handler Args Val Out) (pc : Pc Args Val Out) : (h.to pc).req = h.req := rfl
@[simp] theorem Handler.to_pc (h : Handler Args Val Out) (pc : Pc Args Val Out) : (h.to pc).pc = pc := rfl
@[simp] theorem Handler.to_to (h : Handler Args Val Out) (pc pc' : Pc Args Val Out) : (h.to pc).to pc' = h.to pc' := rfl
theorem Advance.req {api : App Args Val Out} {i : Nat} {t : Table} {h : Handler Args Val Out} {m : Move Val}
    {f : Effect Args Val Out} (ha : Advance api i t h m f) : f.handler.req = h.req := by
  cases ha <;> rfl

/-- Only a committed UPDATE changes the table. -/
theorem Advance.table {api : App Args Val Out} {i : Nat} {t : Table} {h : Handler Args Val Out} {m : Move Val}
    {f : Effect Args Val Out} (ha : Advance api i t h m f) :
    f.table = t ∨ ∃ d, h.pc = .setting d ∧ f.table = (setStatus t h.req.proposalId d.status d.error).2 := by
  cases ha with
  | commits d hp => exact Or.inr ⟨d, hp, rfl⟩
  | _ => exact Or.inl rfl

theorem Advance.rows {api : App Args Val Out} {i : Nat} {t : Table} {h : Handler Args Val Out} {m : Move Val}
    {f : Effect Args Val Out} (ha : Advance api i t h m f) (pid : String) :
    (statusOf f.table pid).isSome = (statusOf t pid).isSome := by
  rcases ha.table with e | ⟨d, -, e⟩
  · rw [e]
  · rw [e, statusOf_setStatus_isSome]

/-- A property of each handler, given the table, that new handlers have, that a move
    keeps for its own handler and that its change of the table keeps for the others. -/
theorem handlers_step {api : App Args Val Out} {P : Table → Handler Args Val Out → Prop}
    (hnew : ∀ t r, P t ⟨r, enter api r, none⟩)
    (hmove : ∀ i t h m f, P t h → Advance api i t h m f → P f.table f.handler)
    (hkeep : ∀ i t h m f h', P t h' → Advance api i t h m f → P f.table h')
    {s t : St Args Val Out} {e : Ev Val} (hs : ∀ h ∈ s.handlers, P s.table h) (h : step api s e = some t) :
    ∀ h ∈ t.handlers, P t.table h := by
  rcases step_cases h with ⟨r, rfl, rfl⟩ | ⟨i, m, hd, f, rfl, hh, ha, rfl⟩
  · intro h hm
    rcases List.mem_append.mp hm with hm | hm
    · exact hs h hm
    · rw [List.mem_singleton.mp hm]; exact hnew _ r
  · intro h hm
    rcases List.mem_or_eq_of_mem_set hm with hm | rfl
    · exact hkeep i _ hd m f h (hs h hm) ha
    · exact hmove i _ hd m f (hs hd (List.mem_of_getElem? hh)) ha

/-! An app with token `t` and tools that return nothing, and a request for proposal `p`. -/

def demoApp : App Unit Unit Unit where
  expectedToken := "t"
  codec := emptyArgs
  wire := { jsonableEncoder := some, str := id, renders := fun _ => true }

def authorised (e : Endpoint) : Ev Unit := .request ⟨e, "p", some "Bearer t"⟩

end SagaAgents.Triggers.Api
