/-
  SagaAgents.Proposals.Lifecycle — proposals from `add` to their decision, in serial
  histories.

  `Ledger` says what the proposal store and its endpoints are for: a map from ids to
  records and the log of the MCP calls. What a decision stores and what the client is
  answered are written out there, status by status. `serve` is the code: `add` and
  `list_pending` of the store, and the handlers of the approve and reject endpoints, each
  driven to its end with the outcome its `mcp_call` has. A listed record is what the
  endpoint renders.

  Proved: `lifecycle_refines`. For every history the code answers what the ledger answers,
  and its table, its calls and its counters are the ledger's.
-/

import SagaAgents.Lib.Serial
import SagaAgents.Proposals.Failures

namespace SagaAgents.Proposals.Lifecycle

open Lib
open Triggers.Api (Request Endpoint Pc Handler App Wire St Ev Move Advance Effect Decision Outcome verifyToken disabled notFound
  enter advance step answer healthy init demoApp)

variable {Args Val Out : Type}

/-! ## Requests -/

inductive Op (Args Val : Type) where
  | add (id : String) (now : Instant) (agentId runId action : String) (arguments : Args) (rationale : String)
  | list (agentId : String) (authorization : Option String)
  /-- An approve or reject request; `outcome` is what `mcp_call` does if it is invoked. -/
  | decide (r : Request) (outcome : Except String Val)

inductive Answer (Args Out : Type) where
  | added (record : ProposalRecord Args)
  | refused
  | listed (records : List (ProposalRecord Args))
  | responded (o : Outcome Out)
  deriving DecidableEq

/-! ## The ledger -/

structure ToolCall (Args : Type) where
  proposalId : String
  action : String
  arguments : Args
  deriving DecidableEq

structure Ledger (Args : Type) where
  records : Keyed fun r : ProposalRecord Args => r.id
  calls : List (ToolCall Args)

def Ledger.empty : Ledger Args := ⟨Keyed.empty _, []⟩

/-- The agent's pending proposals, oldest first. -/
def Ledger.pendingOf (l : Ledger Args) (agentId : String) : List (ProposalRecord Args) :=
  (l.records.rows.filter fun r => r.status == .pending && r.agentId == agentId).mergeSort
    fun a b => decide (a.createdAt ≤ b.createdAt)

/-- The tool's result, as JSON or as its `str`, or the server's bare 500. -/
def shown (wire : Wire Val Out) (v : Val) : Outcome Out :=
  let result := (wire.jsonableEncoder v).getD (wire.str v)
  if wire.renders result then .answered ⟨200, .applied result⟩ else .raised

/-- A pending proposal is rejected; or its tool is called, and it is applied if the call
    returns and failed, with the text of the exception, if it raises. -/
def Ledger.settle (wire : Wire Val Out) (l : Ledger Args) (r : ProposalRecord Args) :
    Endpoint → Except String Val → Answer Args Out × Ledger Args
  | .reject, _ =>
    (.responded (.answered ⟨200, .rejected⟩), { l with records := l.records.set { r with status := .rejected, error := none } })
  | .approve, .ok v =>
    (.responded (shown wire v),
      ⟨l.records.set { r with status := .applied, error := none }, l.calls ++ [⟨r.id, r.action, r.arguments⟩]⟩)
  | .approve, .error e =>
    (.responded (.answered ⟨500, .error e⟩),
      ⟨l.records.set { r with status := .failed, error := some e }, l.calls ++ [⟨r.id, r.action, r.arguments⟩]⟩)

def Ledger.serve (api : App Args Val Out) (l : Ledger Args) : Op Args Val → Answer Args Out × Ledger Args
  | .add id now agentId runId action arguments rationale =>
    if (l.records.get id).isSome then (.refused, l)
    else
      let record : ProposalRecord Args := ⟨id, agentId, runId, action, arguments, rationale, .pending, now, none⟩
      (.added record, { l with records := l.records.set record })
  | .list agentId authorization =>
    if authorization = some ("Bearer " ++ api.expectedToken) then (.listed (l.pendingOf agentId), l)
    else (.responded (.answered ⟨403, .detail "Invalid or missing token"⟩), l)
  | .decide r outcome =>
    if r.authorization = some ("Bearer " ++ api.expectedToken) then
      match (l.records.get r.proposalId).filter (·.status = .pending) with
      | none => (.responded (.answered ⟨404, .detail ("Proposal not found: " ++ r.proposalId)⟩), l)
      | some record => l.settle api.wire record r.endpoint outcome
    else (.responded (.answered ⟨403, .detail "Invalid or missing token"⟩), l)

/-! ## The code -/

def forbidden : Outcome Out := .answered ⟨403, .detail "Invalid or missing token"⟩

/-- The next move of a handler that nothing disturbs. -/
def next (outcome : Except String Val) : Pc Args Val Out → Option (Move Val)
  | .getting => some .read
  | .got _ => some .resume
  | .calling _ =>
    match outcome with
    | .ok v => some (.mcpReturns v)
    | .error e => some (.mcpRaises e)
  | .setting _ => some .commits
  | .stored _ _ => some .finishes
  | .ended _ => none

/-- Handler `i` goes on for up to this many moves. -/
def drive (api : App Args Val Out) (i : Nat) (outcome : Except String Val) : Nat → St Args Val Out → St Args Val Out
  | 0, s => s
  | n + 1, s =>
    match s.handlers[i]?.bind fun h => next outcome h.pc with
    | none => s
    | some m => drive api i outcome n ((step api s (.move i m)).getD s)

/-- What the handler has answered. -/
def outcomeOf (h : Handler Args Val Out) : Option (Outcome Out) :=
  match h.pc with
  | .ended o => some o
  | _ => none

/-- A handler ends within five moves. -/
def serve (api : App Args Val Out) (s : St Args Val Out) : Op Args Val → Answer Args Out × St Args Val Out
  | .add id now agentId runId action arguments rationale =>
    match add api.codec s.table id now agentId runId action arguments rationale with
    | none => (.refused, s)
    | some (t, record) => (.added record, { s with table := t })
  | .list agentId authorization =>
    if !verifyToken api authorization then (.responded forbidden, s)
    else if !api.proposalStore then (.responded (.answered disabled), s)
    else
      match listPending api.codec s.table (some agentId) with
      | none => (.responded .raised, s)
      | some records => (.listed records, s)
  | .decide r outcome =>
    let t := drive api s.handlers.length outcome 5 { s with handlers := s.handlers ++ [⟨r, enter api r, none⟩] }
    (.responded ((t.handlers[s.handlers.length]?.bind outcomeOf).getD .raised), t)

/-- The decision the code takes on a pending proposal, and the MCP calls that takes. -/
def decisionOn (record : ProposalRecord Args) : Endpoint → Except String Val → Decision Val × List (ToolCall Args)
  | .reject, _ => (.rejected, [])
  | .approve, .ok v => (.applied v, [⟨record.id, record.action, record.arguments⟩])
  | .approve, .error e => (.failed e, [⟨record.id, record.action, record.arguments⟩])

/-- What the UPDATE makes of the record. -/
def decided (r : ProposalRecord Args) (d : Decision Val) : ProposalRecord Args :=
  { r with status := d.status, error := d.error }

/-! ## A handler driven to its end -/

/-- A handler's last move is the end of `drive`. -/
theorem drive_ended {api : App Args Val Out} {outcome : Except String Val} {s : St Args Val Out} {h : Handler Args Val Out}
    {o : Outcome Out} (hp : h.pc = .ended o) (n : Nat) :
    drive api s.handlers.length outcome n { s with handlers := s.handlers ++ [h] } =
      { s with handlers := s.handlers ++ [h] } := by
  cases n with
  | zero => rfl
  | succ n => simp [drive, next, hp]

/-- One move of the last handler. -/
theorem drive_move (api : App Args Val Out) (outcome : Except String Val) (s : St Args Val Out) {h : Handler Args Val Out}
    (m : Move Val) (f : Effect Args Val Out) (hn : next outcome h.pc = some m)
    (ha : advance api s.handlers.length s.table h m = some f) (n : Nat) :
    drive api s.handlers.length outcome (n + 1) { s with handlers := s.handlers ++ [h] } =
      drive api s.handlers.length outcome n
        { table := f.table, handlers := s.handlers ++ [f.handler], calls := s.calls ++ f.calls,
          returned := s.returned ++ f.returned, counted := s.counted ++ f.counted } := by
  simp [drive, hn, step, ha, Triggers.Api.St.apply]

/-- A move of it that neither calls the server nor counts a decision. -/
theorem drive_quiet (api : App Args Val Out) (outcome : Except String Val) (s : St Args Val Out) {h : Handler Args Val Out}
    (m : Move Val) (h' : Handler Args Val Out) (table : Table) (hn : next outcome h.pc = some m)
    (ha : advance api s.handlers.length s.table h m = some { handler := h', table := table }) (n : Nat) :
    drive api s.handlers.length outcome (n + 1) { s with handlers := s.handlers ++ [h] } =
      drive api s.handlers.length outcome n { s with table := table, handlers := s.handlers ++ [h'] } := by
  rw [drive_move api outcome s m _ hn ha]
  simp only [List.append_nil]

theorem drive_run {api : App Args Val Out} {i : Nat} {outcome : Except String Val} (n : Nat) (s : St Args Val Out) :
    Run (step api) (fun s e => healthy e = true ∧ Failures.Serial s e) s (drive api i outcome n s) := by
  induction n generalizing s with
  | zero => exact .refl s
  | succ n ih =>
    unfold drive
    split
    · exact .refl s
    · rename_i m hm
      have hh : healthy (.move i m : Ev Val) = true := by
        obtain ⟨h, -, hn⟩ := Option.bind_eq_some_iff.mp hm
        unfold next at hn
        split at hn <;> (try split at hn) <;> cases hn <;> rfl
      cases hst : step api s (.move i m) with
      | none => exact ih s
      | some t => exact (Run.single (.move i m) ⟨hh, trivial⟩ hst).trans (ih t)

/-- Serving a decision is a serial run of the endpoints, with no failure of the store. -/
theorem decide_run (api : App Args Val Out) {s : St Args Val Out} (hs : s.handlers.all Failures.ended = true) (r : Request)
    (outcome : Except String Val) :
    Run (step api) (fun s e => healthy e = true ∧ Failures.Serial s e) s (serve api s (.decide r outcome)).2 :=
  (Run.single (.request r) ⟨rfl, hs⟩ rfl).trans (drive_run 5 _)

section

variable {api : App Args Val Out} {s : St Args Val Out} {r : Request}

/-- The request is served by driving its handler: where that ends is the answer. -/
theorem serve_decide {outcome : Except String Val} {t : St Args Val Out} {h : Handler Args Val Out} {o : Outcome Out}
    (hd : drive api s.handlers.length outcome 5 { s with handlers := s.handlers ++ [⟨r, enter api r, none⟩] } = t)
    (ht : t.handlers = s.handlers ++ [h]) (hp : h.pc = .ended o) :
    serve api s (.decide r outcome) = (.responded o, t) := by
  subst hd
  simp [serve, ht, outcomeOf, hp]

theorem serve_forbidden (outcome : Except String Val) (hv : verifyToken api r.authorization = false) :
    ∃ h, Failures.ended h = true ∧
      serve api s (.decide r outcome) = (.responded forbidden, { s with handlers := s.handlers ++ [h] }) := by
  have he : enter api r = .ended forbidden := by simp [enter, hv, forbidden]
  refine ⟨⟨r, enter api r, none⟩, by simp [Failures.ended, he], ?_⟩
  exact serve_decide (drive_ended (by exact he) 5) rfl he

theorem enter_getting (hstore : api.proposalStore = true) (hmcp : api.mcpCall = true)
    (hv : verifyToken api r.authorization = true) : enter api r = .getting := by
  cases he : r.endpoint <;> simp [enter, hv, hstore, hmcp, he]

/-- The handler has read the row and looks at it. -/
theorem drive_reads (outcome : Except String Val) (hstore : api.proposalStore = true) (hmcp : api.mcpCall = true)
    (hv : verifyToken api r.authorization = true) {found : Option (ProposalRecord Args)}
    (hg : get api.codec s.table r.proposalId = some found) :
    drive api s.handlers.length outcome 5 { s with handlers := s.handlers ++ [⟨r, enter api r, none⟩] } =
      drive api s.handlers.length outcome 4 { s with handlers := s.handlers ++ [⟨r, .got found, found⟩] } := by
  have he := enter_getting hstore hmcp hv
  exact drive_quiet api outcome s .read ⟨r, .got found, found⟩ s.table (by simp [next, he]) (by simp [advance, he, hg]) 4

/-- No pending row: the handler answers 404. -/
theorem drive_missing (api : App Args Val Out) (outcome : Except String Val) {h : Handler Args Val Out}
    {found : Option (ProposalRecord Args)} (hp : h.pc = .got found)
    (hf : ∀ record, found = some record → record.status ≠ .pending) (n : Nat) :
    drive api s.handlers.length outcome (n + 1) { s with handlers := s.handlers ++ [h] } =
      { s with handlers := s.handlers ++ [h.to (.ended (.answered (notFound h.req.proposalId)))] } := by
  have hafter : Triggers.Api.afterGet h.req found = (.ended (.answered (notFound h.req.proposalId)) : Pc Args Val Out) := by
    cases found with
    | none => rfl
    | some record => simp [Triggers.Api.afterGet, hf record rfl]
  rw [drive_quiet api outcome s .resume (h.to (.ended (.answered (notFound h.req.proposalId)))) s.table (by simp [next, hp])
    (by simp [advance, hp, hafter, Triggers.Api.applyProposal])]
  exact drive_ended (s := s) (by rfl) n

/-- The decision is stored, counted and answered. -/
theorem drive_settles (api : App Args Val Out) (outcome : Except String Val) {h : Handler Args Val Out} {d : Decision Val}
    (hp : h.pc = .setting d) {row : Row} (hrow : s.table.get h.req.proposalId = some row) (n : Nat) :
    drive api s.handlers.length outcome (n + 2) { s with handlers := s.handlers ++ [h] } =
      { s with
        table := s.table.set (row.withStatus d.status d.error), handlers := s.handlers ++ [h.to (.ended (answer api d))],
        counted := s.counted ++ [d.status] } := by
  have hset : setStatus s.table h.req.proposalId d.status d.error = (true, s.table.set (row.withStatus d.status d.error)) := by
    simp [setStatus, hrow]
  let t : St Args Val Out := { s with table := s.table.set (row.withStatus d.status d.error) }
  have hcommits : drive api s.handlers.length outcome (n + 2) { s with handlers := s.handlers ++ [h] } =
      drive api s.handlers.length outcome (n + 1) { t with handlers := s.handlers ++ [h.to (.stored d true)] } :=
    drive_quiet api outcome s .commits (h.to (.stored d true)) t.table (by simp [next, hp]) (by simp [advance, hp, hset, t]) (n + 1)
  have hfinishes : drive api s.handlers.length outcome (n + 1) { t with handlers := s.handlers ++ [h.to (.stored d true)] } =
      drive api s.handlers.length outcome n
        { t with handlers := s.handlers ++ [h.to (.ended (answer api d))], counted := s.counted ++ [d.status] } := by
    have := drive_move api outcome t (h := h.to (.stored d true)) .finishes
      { handler := h.to (.ended (answer api d)), table := t.table, counted := [d.status] } rfl (by simp [advance]) n
    simpa [t] using this
  rw [hcommits, hfinishes]
  exact drive_ended (s := { t with counted := s.counted ++ [d.status] }) (by rfl) n

/-- A pending row is to be approved: the tool is called. -/
theorem drive_calls (api : App Args Val Out) (outcome : Except String Val) {h : Handler Args Val Out}
    {record : ProposalRecord Args} (hp : h.pc = .got (some record)) (hpending : record.status = .pending)
    (he : h.req.endpoint = .approve) (n : Nat) :
    drive api s.handlers.length outcome (n + 1) { s with handlers := s.handlers ++ [h] } =
      drive api s.handlers.length outcome n
        { s with
          handlers := s.handlers ++ [h.to (.calling record)],
          calls := s.calls ++ [⟨s.handlers.length, h.req.proposalId, record.action, record.arguments⟩] } := by
  have := drive_move api outcome s (h := h) .resume
    ⟨h.to (.calling record), s.table, [⟨s.handlers.length, h.req.proposalId, record.action, record.arguments⟩], [], []⟩
    (by simp [next, hp])
    (by simp [advance, hp, Triggers.Api.afterGet, Triggers.Api.applyProposal, hpending, he]) n
  simpa using this

/-- A pending row: the decision is taken, with its call, and settled. -/
theorem drive_decides (api : App Args Val Out) {outcome : Except String Val} {h : Handler Args Val Out}
    {record : ProposalRecord Args} (hp : h.pc = .got (some record)) (hpending : record.status = .pending)
    {row : Row} (hrow : s.table.get h.req.proposalId = some row) {d : Decision Val}
    {calls : List (ToolCall Args)} (hd : decisionOn record h.req.endpoint outcome = (d, calls)) :
    ∃ returned, drive api s.handlers.length outcome 4 { s with handlers := s.handlers ++ [h] } =
      { table := s.table.set (row.withStatus d.status d.error), handlers := s.handlers ++ [h.to (.ended (answer api d))],
        calls := s.calls ++ calls.map (fun k => ⟨s.handlers.length, h.req.proposalId, k.action, k.arguments⟩),
        returned := returned, counted := s.counted ++ [d.status] } := by
  cases he : h.req.endpoint with
  | reject =>
    rw [he] at hd
    cases hd
    refine ⟨s.returned, ?_⟩
    rw [drive_quiet api outcome s .resume (h.to (.setting .rejected)) s.table (by simp [next, hp])
        (by simp [advance, hp, Triggers.Api.afterGet, Triggers.Api.applyProposal, hpending, he]) 3,
      List.map_nil, List.append_nil]
    exact drive_settles api outcome (h := h.to (.setting .rejected)) rfl hrow 1
  | approve =>
    rw [he] at hd
    let t : St Args Val Out :=
      { s with calls := s.calls ++ [⟨s.handlers.length, h.req.proposalId, record.action, record.arguments⟩] }
    have hcalls := drive_calls (s := s) api outcome hp hpending he 3
    cases outcome with
    | ok v =>
      cases hd
      have hmcp : drive api s.handlers.length (.ok v) 3 { t with handlers := s.handlers ++ [h.to (.calling record)] } =
          drive api s.handlers.length (.ok v) 2
            { t with handlers := s.handlers ++ [h.to (.setting (.applied v))], returned := s.returned ++ [h.req.proposalId] } := by
        have := drive_move api (.ok v) t (h := h.to (.calling record)) (.mcpReturns v)
          { handler := h.to (.setting (.applied v)), table := t.table, returned := [h.req.proposalId] } rfl rfl 2
        simpa [t] using this
      refine ⟨s.returned ++ [h.req.proposalId], (hcalls.trans hmcp).trans ?_⟩
      exact drive_settles api (.ok v) (s := { t with returned := s.returned ++ [h.req.proposalId] })
        (h := h.to (.setting (.applied v))) rfl hrow 0
    | error e =>
      cases hd
      have hmcp : drive api s.handlers.length (.error e) 3 { t with handlers := s.handlers ++ [h.to (.calling record)] } =
          drive api s.handlers.length (.error e) 2 { t with handlers := s.handlers ++ [h.to (.setting (.failed e))] } :=
        drive_quiet api (.error e) t (.mcpRaises e) (h.to (.setting (.failed e))) t.table rfl rfl 2
      refine ⟨s.returned, (hcalls.trans hmcp).trans ?_⟩
      exact drive_settles api (.error e) (s := t) (h := h.to (.setting (.failed e))) rfl hrow 0

end

/-! ## The code keeps the ledger -/

/-- The history stores these arguments at this time. -/
def Stores (ops : List (Op Args Val)) (arguments : Args) (now : Instant) : Prop :=
  ∃ id agentId runId action rationale, Op.add id now agentId runId action arguments rationale ∈ ops

/-- What the texts of the store rest on, for what the history stores: a text reads back
    what it was written from, and the times are ordered as their texts are. -/
structure Reads (c : Codec Args) (ops : List (Op Args Val)) : Prop where
  arguments : ∀ a t, Stores ops a t → c.loads (c.dumps a) = some a
  createdAt : ∀ a t, Stores ops a t → c.fromisoformat (c.isoformat t) = some t
  ordered : ∀ a t a' t', Stores ops a t → Stores ops a' t' → (c.isoformat t ≤ c.isoformat t' ↔ t ≤ t')

/-- The records are those the history added, and each was called for as its status says. -/
structure Accounts (ops : List (Op Args Val)) (l : Ledger Args) : Prop where
  given : ∀ r ∈ l.records.rows, Op.add r.id r.createdAt r.agentId r.runId r.action r.arguments r.rationale ∈ ops
  once : ∀ r ∈ l.records.rows, l.calls.filter (·.proposalId == r.id) =
    if r.status = .applied ∨ r.status = .failed then [⟨r.id, r.action, r.arguments⟩] else []
  known : ∀ k ∈ l.calls, (l.records.get k.proposalId).isSome

/-- The row of a record. -/
def rowOf (c : Codec Args) (r : ProposalRecord Args) : Row :=
  { id := r.id, agentId := r.agentId, runId := r.runId, action := r.action, arguments := c.dumps r.arguments,
    rationale := r.rationale, status := r.status, createdAt := c.isoformat r.createdAt, error := r.error }

/-- The table, the calls and the counters of the code are the ledger's. -/
structure Represents (c : Codec Args) (s : St Args Val Out) (l : Ledger Args) : Prop where
  rows : s.table.rows = l.records.rows.map (rowOf c)
  calls : s.calls.map (fun k => ⟨k.proposalId, k.action, k.arguments⟩) = l.calls
  counted : ∀ st, st ≠ .pending → s.counted.count st = s.table.rows.countP (·.status == st)
  ended : s.handlers.all Failures.ended = true

theorem decisionOn_calls (record : ProposalRecord Args) (e : Endpoint) (outcome : Except String Val) :
    (decisionOn record e outcome).2 =
      if (decisionOn record e outcome).1.status = .applied ∨ (decisionOn record e outcome).1.status = .failed then
        [⟨record.id, record.action, record.arguments⟩]
      else [] := by
  unfold decisionOn
  split <;> simp [Decision.status]

theorem decisionOn_ids (record : ProposalRecord Args) (e : Endpoint) (outcome : Except String Val) :
    ∀ k ∈ (decisionOn record e outcome).2, k.proposalId = record.id := by
  intro k hk
  rw [decisionOn_calls] at hk
  split at hk
  · rw [List.mem_singleton.mp hk]
  · cases hk

/-! What the ledger does in each case, in the code's words. -/

section

variable {api : App Args Val Out} {l : Ledger Args} {r : Request}

theorem token_iff {authorization : Option String} :
    verifyToken api authorization = true ↔ authorization = some ("Bearer " ++ api.expectedToken) := beq_iff_eq

theorem settle_decides (api : App Args Val Out) (l : Ledger Args) (record : ProposalRecord Args) (e : Endpoint)
    (outcome : Except String Val) : l.settle api.wire record e outcome =
      (.responded (answer api (decisionOn record e outcome).1),
        ⟨l.records.set (decided record (decisionOn record e outcome).1), l.calls ++ (decisionOn record e outcome).2⟩) := by
  cases e with
  | reject => exact congrArg (Prod.mk _) (congrArg (Ledger.mk _) (List.append_nil l.calls).symm)
  | approve => cases outcome <;> rfl

theorem serve_untrusted (outcome : Except String Val) (hv : verifyToken api r.authorization = false) :
    l.serve api (.decide r outcome) = (.responded forbidden, l) :=
  if_neg fun h => Bool.false_ne_true (hv.symm.trans (token_iff.mpr h))

theorem serve_missing (hv : verifyToken api r.authorization = true)
    (hn : (l.records.get r.proposalId).filter (·.status = .pending) = none) (outcome : Except String Val) :
    l.serve api (.decide r outcome) = (.responded (.answered (notFound r.proposalId)), l) := by
  simp only [Ledger.serve, if_pos (token_iff.mp hv), hn]
  rfl

theorem serve_pending (hv : verifyToken api r.authorization = true) {record : ProposalRecord Args}
    (hr : (l.records.get r.proposalId).filter (·.status = .pending) = some record) (outcome : Except String Val) :
    l.serve api (.decide r outcome) = (.responded (answer api (decisionOn record r.endpoint outcome).1),
      ⟨l.records.set (decided record (decisionOn record r.endpoint outcome).1),
        l.calls ++ (decisionOn record r.endpoint outcome).2⟩) := by
  simp only [Ledger.serve, if_pos (token_iff.mp hv), hr]
  exact settle_decides api l record r.endpoint outcome

end

theorem pending_get {l : Ledger Args} {pid : String} {record : ProposalRecord Args}
    (h : (l.records.get pid).filter (·.status = .pending) = some record) :
    l.records.get pid = some record ∧ record.status = .pending := by
  obtain ⟨h1, h2⟩ := Option.filter_eq_some_iff.mp h
  exact ⟨h1, by simpa using h2⟩

/-- A new record has not been called for. -/
theorem accounts_add {ops : List (Op Args Val)} {l : Ledger Args} (hl : Accounts ops l) {r : ProposalRecord Args}
    (hn : l.records.get r.id = none) (hp : r.status = .pending)
    (hop : Op.add r.id r.createdAt r.agentId r.runId r.action r.arguments r.rationale ∈ ops) :
    Accounts ops { l with records := l.records.set r } := by
  have hnone : l.calls.filter (·.proposalId == r.id) = [] := by
    refine Tasks.filter_other fun k hk e => ?_
    have := hl.known k hk
    rw [e, hn] at this
    cases this
  refine ⟨fun r' hr' => ?_, fun r' hr' => ?_, fun k hk => ?_⟩
  · rcases Keyed.mem_set hr' with e | hr'
    · rw [e]; exact hop
    · exact hl.given r' hr'
  · rcases Keyed.mem_set hr' with e | hr'
    · subst e
      rw [hp, hnone]
      rfl
    · exact hl.once r' hr'
  · show ((l.records.set r).get k.proposalId).isSome
    by_cases e : k.proposalId = r.id
    · rw [e, Keyed.get_set_same]
      rfl
    · rw [Keyed.get_set_ne _ e]
      exact hl.known k hk

/-- A decision is taken once, with the record's own action and arguments. -/
theorem accounts_decide {ops : List (Op Args Val)} {l : Ledger Args} (hl : Accounts ops l) {record : ProposalRecord Args}
    (hg : l.records.get record.id = some record) (hp : record.status = .pending) (e : Endpoint) (outcome : Except String Val) :
    Accounts ops
      ⟨l.records.set (decided record (decisionOn record e outcome).1), l.calls ++ (decisionOn record e outcome).2⟩ := by
  have hmem : record ∈ l.records.rows := (Keyed.get_some hg).1
  have hcalls : ∀ k ∈ (decisionOn record e outcome).2, k.proposalId = record.id := decisionOn_ids record e outcome
  have hold : l.calls.filter (·.proposalId == record.id) = [] := by
    rw [hl.once record hmem, hp]
    rfl
  refine ⟨fun r hr => ?_, fun r hr => ?_, fun k hk => ?_⟩
  · rcases Keyed.mem_set hr with e | hr
    · rw [e]; exact hl.given record hmem
    · exact hl.given r hr
  · rw [List.filter_append]
    by_cases hid : r.id = record.id
    · have hr' : r = decided record (decisionOn record e outcome).1 :=
        Keyed.unique hr (Keyed.get_some (Keyed.get_set_same _ _)).1 hid
      rw [hid, hold, Tasks.filter_own hcalls, List.nil_append, decisionOn_calls, hr']
      rfl
    · have hr' : r ∈ l.records.rows := by
        rcases Keyed.mem_set hr with e | hr
        · rw [e] at hid
          exact absurd rfl hid
        · exact hr
      rw [Tasks.filter_other fun k hk => (hcalls k hk).trans_ne (Ne.symm hid), List.append_nil]
      exact hl.once r hr'
  · show ((l.records.set (decided record (decisionOn record e outcome).1)).get k.proposalId).isSome
    by_cases hid : k.proposalId = record.id
    · have := Keyed.get_set_same l.records (decided record (decisionOn record e outcome).1)
      rw [hid]
      exact Option.isSome_of_eq_some this
    · have hne : k.proposalId ≠ (decided record (decisionOn record e outcome).1).id := hid
      rw [Keyed.get_set_ne _ hne]
      rcases List.mem_append.mp hk with hk | hk
      · exact hl.known k hk
      · exact absurd (hcalls k hk) hid

theorem accounts_step (api : App Args Val Out) {ops : List (Op Args Val)} (l : Ledger Args) (op : Op Args Val) (hop : op ∈ ops)
    (hl : Accounts ops l) : Accounts ops (l.serve api op).2 := by
  cases op with
  | add id now agentId runId action arguments rationale =>
    simp only [Ledger.serve]
    split
    · exact hl
    · rename_i hn
      exact accounts_add (r := ⟨id, agentId, runId, action, arguments, rationale, .pending, now, none⟩) hl
        (Option.not_isSome_iff_eq_none.mp hn) rfl hop
  | list agentId authorization =>
    simp only [Ledger.serve]
    split <;> exact hl
  | decide r outcome =>
    simp only [Ledger.serve]
    split
    · split
      · exact hl
      · rename_i record hrec
        obtain ⟨hg, hp⟩ := pending_get hrec
        have hid : record.id = r.proposalId := (Keyed.get_some hg).2
        rw [settle_decides]
        exact accounts_decide hl (hid ▸ hg) hp r.endpoint outcome
    · exact hl

section

variable {c : Codec Args} {ops : List (Op Args Val)} {s : St Args Val Out} {l : Ledger Args}

theorem recordToRow_id (c : Codec Args) (r : ProposalRecord Args) : (recordToRow c r).id = r.id := rfl

theorem reads_row (hc : Reads c ops) (hl : Accounts ops l) {r : ProposalRecord Args} (hr : r ∈ l.records.rows) :
    rowToRecord c (recordToRow c r) = some r := by
  have hs : Stores ops r.arguments r.createdAt := ⟨_, _, _, _, _, hl.given r hr⟩
  simp [rowToRecord, recordToRow, hc.arguments _ _ hs, hc.createdAt _ _ hs]

/-- `get` returns what the ledger has. -/
theorem get_represented (hc : Reads c ops) (hl : Accounts ops l) (hs : Represents c s l) (pid : String) :
    get c s.table pid = some (l.records.get pid) := by
  have hrow := Keyed.get_map (recordToRow_id c) hs.rows pid
  unfold get
  rw [hrow]
  cases hg : l.records.get pid with
  | none => rfl
  | some r => simp [reads_row hc hl (Keyed.get_some hg).1]

theorem mapM_reads {rs : List (ProposalRecord Args)} (h : ∀ r ∈ rs, rowToRecord c (recordToRow c r) = some r) :
    (rs.map (recordToRow c)).mapM (rowToRecord c) = some rs := by
  induction rs with
  | nil => rfl
  | cons r rs ih =>
    simp [List.mapM_cons, h r List.mem_cons_self, ih fun r hr => h r (List.mem_cons_of_mem _ hr)]

/-- `list_pending` returns what the ledger lists, in its order. -/
theorem list_represented (hc : Reads c ops) (hl : Accounts ops l) (hs : Represents c s l) (agentId : String) :
    listPending c s.table (some agentId) = some (l.pendingOf agentId) := by
  have hstores (r : ProposalRecord Args) (hr : r ∈ l.records.rows) : Stores ops r.arguments r.createdAt :=
    ⟨_, _, _, _, _, hl.given r hr⟩
  have hsort : ((l.records.rows.filter fun r => r.status == .pending && r.agentId == agentId).map (rowOf c)).mergeSort
      (fun a b => decide (a.createdAt ≤ b.createdAt)) = (l.pendingOf agentId).map (rowOf c) := by
    refine (List.map_mergeSort fun a ha b hb => ?_).symm
    have h := hc.ordered _ _ _ _ (hstores a (List.mem_filter.mp ha).1) (hstores b (List.mem_filter.mp hb).1)
    exact decide_eq_decide.mpr h.symm
  unfold listPending
  simp only [hs.rows, List.filter_map]
  rw [show ((fun r : Row => r.status == .pending && (some agentId).all (r.agentId == ·)) ∘ rowOf c) =
    fun r => r.status == .pending && r.agentId == agentId from rfl, hsort]
  refine mapM_reads fun r hr => reads_row hc hl ?_
  exact (List.mem_filter.mp ((List.mergeSort_perm _ _).subset hr)).1

theorem represents_add (hs : Represents c s l) {r : ProposalRecord Args} (hn : l.records.get r.id = none)
    (hp : r.status = .pending) :
    Represents c { s with table := s.table.set (recordToRow c r) } { l with records := l.records.set r } := by
  have hfresh : (recordToRow c r).id ∉ s.table.rows.map (·.id) := by
    refine Keyed.get_none.mp ?_
    rw [Keyed.get_map (recordToRow_id c) hs.rows, recordToRow_id, hn]
    rfl
  refine ⟨Keyed.set_map (recordToRow_id c) hs.rows r, hs.calls, fun st hst => ?_, hs.ended⟩
  rw [Keyed.set_fresh hfresh, List.countP_append, hs.counted st hst]
  have hne : (r.status == st) = false := by
    rw [hp, beq_eq_false_iff_ne]
    exact hst.symm
  simp [recordToRow, hne]

/-- Another handler has ended. -/
theorem represents_handler (hs : Represents c s l) {h : Handler Args Val Out} (he : Failures.ended h = true) :
    Represents c { s with handlers := s.handlers ++ [h] } l :=
  ⟨hs.rows, hs.calls, hs.counted, by simp [hs.ended, he]⟩

/-- The stored decision is the ledger's, and is counted once. -/
theorem represents_decide (hs : Represents c s l) {record : ProposalRecord Args} (hg : l.records.get record.id = some record)
    (hp : record.status = .pending) {d : Decision Val} {calls : List (ToolCall Args)}
    (hcalls : ∀ k ∈ calls, k.proposalId = record.id) (i : Nat) (returned : List String) {h : Handler Args Val Out}
    (he : Failures.ended h = true) :
    Represents c
      { table := s.table.set ((recordToRow c record).withStatus d.status d.error), handlers := s.handlers ++ [h],
        calls := s.calls ++ calls.map (fun k => ⟨i, record.id, k.action, k.arguments⟩), returned := returned,
        counted := s.counted ++ [d.status] }
      ⟨l.records.set (decided record d), l.calls ++ calls⟩ := by
  have hrow : s.table.get (recordToRow c record).id = some (recordToRow c record) := by
    rw [Keyed.get_map (recordToRow_id c) hs.rows, recordToRow_id, hg]
    rfl
  have hsame : calls.map ((fun k : Triggers.Api.Call Args => (⟨k.proposalId, k.action, k.arguments⟩ : ToolCall Args)) ∘
      fun k => ⟨i, record.id, k.action, k.arguments⟩) = calls := by
    refine (List.map_congr_left fun k hk => ?_).trans (List.map_id calls)
    simp [← hcalls k hk]
  refine ⟨Keyed.set_map (recordToRow_id c) hs.rows (decided record d), ?_, fun st hst => ?_, ?_⟩
  · rw [List.map_append, List.map_map, hs.calls, hsame]
  · obtain ⟨pre, post, hold, hnew⟩ := Keyed.set_split (r := (recordToRow c record).withStatus d.status d.error) hrow
    have hcount := hs.counted st hst
    have hpend : ((recordToRow c record).status == st) = false := by
      rw [show (recordToRow c record).status = record.status from rfl, hp, beq_eq_false_iff_ne]
      exact hst.symm
    rw [hold, List.countP_append, List.countP_cons, hpend] at hcount
    rw [hnew, List.countP_append, List.countP_cons, List.count_append, hcount, List.count_singleton]
    by_cases e : d.status = st
    · simp [e]
      omega
    · simp [e]
  · simp [hs.ended, he]

/-- A decision with the token: on a pending proposal it is taken, on any other row it is a 404. -/
theorem decide_represented {api : App Args Val Out} (hstore : api.proposalStore = true) (hmcp : api.mcpCall = true)
    (hc : Reads api.codec ops) (hl : Accounts ops l) (hs : Represents api.codec s l) {r : Request}
    (hv : verifyToken api r.authorization = true) (outcome : Except String Val) :
    (serve api s (.decide r outcome)).1 = (l.serve api (.decide r outcome)).1 ∧
      Represents api.codec (serve api s (.decide r outcome)).2 (l.serve api (.decide r outcome)).2 := by
  have hget := get_represented hc hl hs r.proposalId
  have hdrive := drive_reads outcome hstore hmcp hv hget
  cases hrec : (l.records.get r.proposalId).filter (·.status = .pending) with
  | none =>
    have hf : ∀ record, l.records.get r.proposalId = some record → record.status ≠ .pending := by
      intro record hr hp
      simp [hr, hp] at hrec
    have hd := drive_missing api outcome (s := s)
      (h := ⟨r, .got (l.records.get r.proposalId), l.records.get r.proposalId⟩) rfl hf 3
    rw [serve_decide (hdrive.trans hd) rfl rfl, serve_missing hv hrec]
    exact ⟨rfl, represents_handler hs rfl⟩
  | some record =>
    obtain ⟨hg, hp⟩ := pending_get hrec
    have hid : record.id = r.proposalId := (Keyed.get_some hg).2
    have hrow : s.table.get r.proposalId = some (recordToRow api.codec record) := by
      rw [Keyed.get_map (recordToRow_id api.codec) hs.rows, hg]
      rfl
    rw [hg] at hdrive
    obtain ⟨returned, hd⟩ := drive_decides api (s := s)
      (h := ⟨r, .got (some record), some record⟩) rfl hp hrow (Prod.eta (decisionOn record r.endpoint outcome)).symm
    rw [serve_decide (hdrive.trans hd) rfl rfl, serve_pending hv hrec]
    refine ⟨rfl, ?_⟩
    have hcalls : ∀ k ∈ (decisionOn record r.endpoint outcome).2, k.proposalId = record.id := decisionOn_ids _ _ _
    have hrep := represents_decide hs (hid ▸ hg) hp (d := (decisionOn record r.endpoint outcome).1) hcalls
      s.handlers.length returned (h := ⟨r, .ended (answer api (decisionOn record r.endpoint outcome).1), some record⟩) rfl
    rw [hid] at hrep
    exact hrep

/-- The code and the ledger answer alike, and the code keeps the ledger. -/
theorem represents_step {api : App Args Val Out} (hstore : api.proposalStore = true) (hmcp : api.mcpCall = true)
    (hc : Reads api.codec ops) (hl : Accounts ops l) (hs : Represents api.codec s l) (op : Op Args Val) :
    (serve api s op).1 = (l.serve api op).1 ∧ Represents api.codec (serve api s op).2 (l.serve api op).2 := by
  cases op with
  | add id now agentId runId action arguments rationale =>
    have hg := Keyed.get_map (recordToRow_id api.codec) hs.rows id
    cases hr : l.records.get id with
    | some old =>
      rw [hr] at hg
      simp only [serve, add, Ledger.serve, hg, hr, Option.map_some, Option.isSome_some, if_true]
      exact ⟨trivial, hs⟩
    | none =>
      rw [hr] at hg
      simp only [serve, add, Ledger.serve, hg, hr, Option.map_none, Option.isSome_none, Bool.false_eq_true, if_false]
      exact ⟨trivial, represents_add hs hr rfl⟩
  | list agentId authorization =>
    cases hv : verifyToken api authorization with
    | false =>
      have hno : authorization ≠ some ("Bearer " ++ api.expectedToken) := fun h => Bool.false_ne_true (hv.symm.trans (token_iff.mpr h))
      simp only [serve, Ledger.serve, hv, if_neg hno]
      exact ⟨rfl, hs⟩
    | true =>
      simp only [serve, Ledger.serve, hv, hstore, list_represented hc hl hs agentId, if_pos (token_iff.mp hv), Bool.not_true,
        Bool.false_eq_true, if_false]
      exact ⟨trivial, hs⟩
  | decide r outcome =>
    cases hv : verifyToken api r.authorization with
    | false =>
      obtain ⟨h, he, hserve⟩ := serve_forbidden (s := s) (r := r) outcome hv
      rw [hserve, serve_untrusted outcome hv]
      exact ⟨rfl, represents_handler hs he⟩
    | true => exact decide_represented hstore hmcp hc hl hs hv outcome

end

/-! ## What a history never changes -/

/-- Every row stays as it is, but for the one decision on a pending one. -/
def Kept (before after : Table) : Prop :=
  ∀ row ∈ before.rows, ∃ row' ∈ after.rows, row' = row ∨ (row.status = .pending ∧
    (row' = { row with status := .applied, error := none } ∨ row' = { row with status := .rejected, error := none } ∨
      ∃ e, row' = { row with status := .failed, error := some e }))

/-- The same of the ledger. -/
def Keeps (Val : Type) (l l' : Ledger Args) : Prop :=
  ∀ r ∈ l.records.rows, ∃ r' ∈ l'.records.rows, r' = r ∨ (r.status = .pending ∧ ∃ d : Decision Val, r' = decided r d)

theorem keeps_refl (l : Ledger Args) : Keeps Val l l := fun r hr => ⟨r, hr, Or.inl rfl⟩

theorem keeps_trans (l₁ l₂ l₃ : Ledger Args) (h : Keeps Val l₁ l₂) (h' : Keeps Val l₂ l₃) : Keeps Val l₁ l₃ := by
  intro r hr
  obtain ⟨r₂, hr₂, e⟩ := h r hr
  obtain ⟨r₃, hr₃, e'⟩ := h' r₂ hr₂
  refine ⟨r₃, hr₃, ?_⟩
  rcases e with e | ⟨hp, d, e⟩
  · subst e
    exact e'
  · rcases e' with e' | ⟨hp', -⟩
    · exact Or.inr ⟨hp, d, e'.trans e⟩
    · -- the decided record is no longer pending
      rw [e] at hp'
      exact absurd hp' (Decision.status_ne d)

/-- A write to another id leaves a record where it is. -/
theorem keeps_set {l : Ledger Args} {x : ProposalRecord Args} {calls : List (ToolCall Args)}
    (h : ∀ r, l.records.get x.id = some r → r.status = .pending ∧ ∃ d : Decision Val, x = decided r d) :
    Keeps Val l ⟨l.records.set x, calls⟩ := by
  intro r hr
  have hg := Keyed.get_of_mem hr
  by_cases hid : r.id = x.id
  · rw [hid] at hg
    exact ⟨x, (Keyed.get_some (Keyed.get_set_same l.records x)).1, Or.inr (h r hg)⟩
  · exact ⟨r, (Keyed.get_some ((Keyed.get_set_ne l.records hid).trans hg)).1, Or.inl rfl⟩

theorem keeps_step (api : App Args Val Out) (l : Ledger Args) (op : Op Args Val) : Keeps Val l (l.serve api op).2 := by
  cases op with
  | add id now agentId runId action arguments rationale =>
    simp only [Ledger.serve]
    split
    · exact keeps_refl l
    · rename_i hn
      have hn := Option.not_isSome_iff_eq_none.mp hn
      exact keeps_set (x := ⟨id, agentId, runId, action, arguments, rationale, .pending, now, none⟩) fun r hr => by
        rw [hn] at hr
        cases hr
  | list agentId authorization =>
    simp only [Ledger.serve]
    split <;> exact keeps_refl l
  | decide r outcome =>
    simp only [Ledger.serve]
    split
    · split
      · exact keeps_refl l
      · rename_i record hrec
        obtain ⟨hg, hp⟩ := pending_get hrec
        have hid : record.id = r.proposalId := (Keyed.get_some hg).2
        rw [settle_decides]
        refine keeps_set fun r' hr' => ?_
        have hr' : l.records.get record.id = some r' := hr'
        rw [hid, hg] at hr'
        cases hr'
        exact ⟨hp, _, rfl⟩
    · exact keeps_refl l

theorem kept_represented {c : Codec Args} {s s' : St Args Val Out} {l l' : Ledger Args} (hs : Represents c s l)
    (hs' : Represents c s' l') (h : Keeps Val l l') : Kept s.table s'.table := by
  intro row hrow
  rw [hs.rows] at hrow
  obtain ⟨r, hr, e⟩ := List.mem_map.mp hrow
  subst e
  obtain ⟨r', hr', e⟩ := h r hr
  refine ⟨rowOf c r', hs'.rows ▸ List.mem_map_of_mem hr', ?_⟩
  rcases e with e | ⟨hp, d, e⟩
  · exact Or.inl (by rw [e])
  · refine Or.inr ⟨hp, ?_⟩
    subst e
    cases d with
    | applied v => exact Or.inl rfl
    | rejected => exact Or.inr (Or.inl rfl)
    | failed e => exact Or.inr (Or.inr ⟨e, rfl⟩)

/-! ## The refinement -/

/-- The states after a history, of the code and of the ledger. -/
def after (api : App Args Val Out) (ops : List (Op Args Val)) : St Args Val Out :=
  (answers (serve api) (init (Keyed.empty _)) ops).2

def Ledger.after (api : App Args Val Out) (ops : List (Op Args Val)) : Ledger Args :=
  (answers (Ledger.serve api) Ledger.empty ops).2

theorem refines {api : App Args Val Out} (hstore : api.proposalStore = true) (hmcp : api.mcpCall = true)
    {all ops : List (Op Args Val)} (hops : ∀ op ∈ ops, op ∈ all) (hc : Reads api.codec all) :
    (answers (serve api) (init (Keyed.empty _)) ops).1 = (answers (Ledger.serve api) Ledger.empty ops).1 ∧
      Accounts all (Ledger.after api ops) ∧ Represents api.codec (after api ops) (Ledger.after api ops) := by
  have h0 : Accounts all (Ledger.empty : Ledger Args) ∧
      Represents api.codec (init (Keyed.empty _) : St Args Val Out) (Ledger.empty : Ledger Args) :=
    ⟨⟨fun r hr => (by cases hr), fun r hr => (by cases hr), fun k hk => (by cases hk)⟩, ⟨rfl, rfl, fun _ _ => rfl, rfl⟩⟩
  refine answers_simulate (R := fun s l => Accounts all l ∧ Represents api.codec s l) (fun s l op hop h => ?_) h0
  obtain ⟨ha, hr⟩ := represents_step hstore hmcp hc h.1 h.2 op
  exact ⟨ha, accounts_step api l op (hops op hop) h.1, hr⟩

/-- Every serial history is answered as the ledger answers it, and leaves the ledger's
    records, calls and counts. -/
theorem lifecycle_refines (api : App Args Val Out) (hstore : api.proposalStore = true) (hmcp : api.mcpCall = true)
    (ops : List (Op Args Val)) (hc : Reads api.codec ops) :
    (answers (serve api) (init (Keyed.empty _)) ops).1 = (answers (Ledger.serve api) Ledger.empty ops).1 ∧
      Represents api.codec (after api ops) (Ledger.after api ops) ∧ Accounts ops (Ledger.after api ops) ∧
      ∀ before rest, ops = before ++ rest → Kept (after api before).table (after api ops).table := by
  obtain ⟨hanswers, haccounts, hrep⟩ := refines hstore hmcp (fun _ h => h) hc
  refine ⟨hanswers, hrep, haccounts, fun before rest e => ?_⟩
  subst e
  obtain ⟨-, -, hbefore⟩ := refines hstore hmcp (fun op hop => List.mem_append_left rest hop) hc
  refine kept_represented hbefore hrep ?_
  have hsplit : Ledger.after api (before ++ rest) = (answers (Ledger.serve api) (Ledger.after api before) rest).2 :=
    answers_append _ _ _
  rw [hsplit]
  exact answers_relate (I := fun _ => True) (fun _ _ _ _ => trivial) keeps_refl keeps_trans
    (fun l op _ _ => keeps_step api l op) trivial

/-! A proposal that is approved, after a request with a wrong token, and approved again;
    and one that is rejected. -/

def demoHistory : List (Op Unit Unit) :=
  [.add "p" 0 "event-deduplicator" "r" "merge_events" () "same event",
    .decide ⟨.approve, "p", some "Bearer u"⟩ (.ok ()), .decide ⟨.approve, "p", some "Bearer t"⟩ (.ok ()),
    .decide ⟨.approve, "p", some "Bearer t"⟩ (.ok ()), .add "q" 0 "event-deduplicator" "r" "merge_events" () "same event",
    .decide ⟨.reject, "q", some "Bearer t"⟩ (.ok ())]

theorem reads_demoHistory : Reads demoApp.codec demoHistory := by
  have hzero : ∀ a t, Stores demoHistory a t → t = 0 := by
    intro a t ⟨id, agentId, runId, action, rationale, h⟩
    simp [demoHistory] at h
    rcases h with ⟨-, e, -⟩ | ⟨-, e, -⟩ <;> exact e
  refine ⟨fun a t _ => ?_, fun a t h => ?_, fun a t a' t' h h' => ?_⟩
  · cases a
    rfl
  · rw [hzero a t h]
    rfl
  · rw [hzero a t h, hzero a' t' h']
    simp

theorem lifecycle_refines_demoHistory :
    ((answers (serve demoApp) (init (Keyed.empty _)) demoHistory).1 =
        (answers (Ledger.serve demoApp) Ledger.empty demoHistory).1 ∧
      Represents demoApp.codec (after demoApp demoHistory) (Ledger.after demoApp demoHistory) ∧
      Accounts demoHistory (Ledger.after demoApp demoHistory) ∧
      ∀ before rest, demoHistory = before ++ rest → Kept (after demoApp before).table (after demoApp demoHistory).table) ∧
    (after demoApp demoHistory).counted = [.applied, .rejected] ∧
    (after demoApp demoHistory).calls.map (·.proposalId) = ["p"] :=
  ⟨lifecycle_refines demoApp rfl rfl demoHistory reads_demoHistory, by decide, by decide⟩

end SagaAgents.Proposals.Lifecycle
