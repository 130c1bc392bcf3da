/-
  SagaAgents.Proposals.Store — `SqliteProposalStore` (`proposals/store.py`).

  The table is keyed by `id`. Each store method opens one connection and runs one
  statement, so its effect on the table is one step. `json` and `datetime` texts go through a codec: `arguments` and `created_at` are
  stored as text and read back by `_row_to_record`, which raises (`none`) on a text the
  codec cannot read.
-/

import SagaAgents.Lib.Keyed

namespace SagaAgents.Proposals

inductive Status where
  | pending
  | applied
  | rejected
  | failed
  deriving DecidableEq, Repr

/-- Microseconds since 0001-01-01T00:00:00 UTC, the first datetime. -/
abbrev Instant := Nat

structure ProposalRecord (Args : Type) where
  id : String
  agentId : String
  runId : String
  action : String
  arguments : Args
  rationale : String
  status : Status
  createdAt : Instant
  error : Option String := none
  deriving DecidableEq, Repr

/-- A row of `proposals`: `arguments` and `createdAt` are TEXT. -/
structure Row where
  id : String
  agentId : String
  runId : String
  action : String
  arguments : String
  rationale : String
  status : Status
  createdAt : String
  error : Option String
  deriving DecidableEq, Repr

abbrev Table := Lib.Keyed Row.id

structure Codec (Args : Type) where
  dumps : Args → String
  loads : String → Option Args
  isoformat : Instant → String
  fromisoformat : String → Option Instant

/-- The codec where the arguments are always `{}` and the clock shows the first instant. -/
def emptyArgs : Codec Unit where
  dumps _ := "{}"
  loads s := if s = "{}" then some () else none
  isoformat _ := "0001-01-01T00:00:00+00:00"
  fromisoformat s := if s = "0001-01-01T00:00:00+00:00" then some 0 else none

variable {Args : Type}

def rowToRecord (c : Codec Args) (row : Row) : Option (ProposalRecord Args) :=
  (c.loads row.arguments).bind fun arguments =>
    (c.fromisoformat row.createdAt).map fun createdAt =>
      { id := row.id, agentId := row.agentId, runId := row.runId, action := row.action, arguments := arguments,
        rationale := row.rationale, status := row.status, createdAt := createdAt, error := row.error }

def recordToRow (c : Codec Args) (r : ProposalRecord Args) : Row :=
  { id := r.id, agentId := r.agentId, runId := r.runId, action := r.action, arguments := c.dumps r.arguments,
    rationale := r.rationale, status := r.status, createdAt := c.isoformat r.createdAt, error := r.error }

/-- `add`, with the id `uuid4` draws and the time `datetime.now` reads. An id that is
    in the table violates the primary key: the INSERT raises (`none`). -/
def add (c : Codec Args) (t : Table) (id : String) (now : Instant) (agentId runId action : String) (arguments : Args)
    (rationale : String) : Option (Table × ProposalRecord Args) :=
  let record : ProposalRecord Args :=
    { id := id, agentId := agentId, runId := runId, action := action, arguments := arguments, rationale := rationale,
      status := .pending, createdAt := now }
  if (t.get id).isSome then none else some (t.set (recordToRow c record), record)

/-- `get`: the outer `none` is an unreadable row, the inner one an unknown id. -/
def get (c : Codec Args) (t : Table) (proposalId : String) : Option (Option (ProposalRecord Args)) :=
  match t.get proposalId with
  | none => some none
  | some row => (rowToRecord c row).map some

/-- `list_pending`, oldest first. -/
def listPending (c : Codec Args) (t : Table) (agentId : Option String) : Option (List (ProposalRecord Args)) :=
  let rows := t.rows.filter fun r => r.status == .pending && (agentId.all (r.agentId == ·))
  (rows.mergeSort fun a b => decide (a.createdAt ≤ b.createdAt)).mapM (rowToRecord c)

def Row.withStatus (row : Row) (status : Status) (error : Option String) : Row :=
  { row with status := status, error := error }

@[simp] theorem Row.withStatus_id (row : Row) (s : Status) (e : Option String) : (row.withStatus s e).id = row.id := rfl
@[simp] theorem Row.withStatus_status (row : Row) (s : Status) (e : Option String) : (row.withStatus s e).status = s := rfl

/-- `set_status`: whether a row matched, and the table after the UPDATE. The UPDATE
    does not look at the status it overwrites. -/
def setStatus (t : Table) (proposalId : String) (status : Status) (error : Option String) : Bool × Table :=
  match t.get proposalId with
  | none => (false, t)
  | some row => (true, t.set (row.withStatus status error))

def statusOf (t : Table) (proposalId : String) : Option Status := (t.get proposalId).map (·.status)

/-! ## What a statement changes -/

theorem rowToRecord_fields {c : Codec Args} {row : Row} {r : ProposalRecord Args} (h : rowToRecord c row = some r) :
    r.id = row.id ∧ r.agentId = row.agentId ∧ r.runId = row.runId ∧ r.action = row.action ∧
      c.loads row.arguments = some r.arguments ∧ r.rationale = row.rationale ∧ r.status = row.status ∧
      c.fromisoformat row.createdAt = some r.createdAt ∧ r.error = row.error := by
  obtain ⟨a, ha, h⟩ := Option.bind_eq_some_iff.mp h
  obtain ⟨t, ht, rfl⟩ := Option.map_eq_some_iff.mp h
  exact ⟨rfl, rfl, rfl, rfl, ha, rfl, rfl, ht, rfl⟩

/-- A record that `get` returns is its row, decoded. -/
theorem get_record {c : Codec Args} {t : Table} {pid : String} {r : ProposalRecord Args} (h : get c t pid = some (some r)) :
    ∃ row, t.get pid = some row ∧ rowToRecord c row = some r := by
  unfold get at h
  split at h
  · cases h
  · rename_i row hrow
    obtain ⟨r', hr, he⟩ := Option.map_eq_some_iff.mp h
    cases he
    exact ⟨row, hrow, hr⟩

theorem get_status {c : Codec Args} {t : Table} {pid : String} {r : ProposalRecord Args} (h : get c t pid = some (some r)) :
    statusOf t pid = some r.status := by
  obtain ⟨row, hrow, hr⟩ := get_record h
  simp only [statusOf, hrow, Option.map_some, (rowToRecord_fields hr).2.2.2.2.2.2.1]

theorem get_setStatus_same {t : Table} {pid : String} {row : Row} (h : t.get pid = some row) (s : Status)
    (e : Option String) : (setStatus t pid s e).2.get pid = some (row.withStatus s e) := by
  have hid : row.id = pid := (Lib.Keyed.get_some h).2
  have := Lib.Keyed.get_set_same t (row.withStatus s e)
  simp only [setStatus, h]
  rwa [Row.withStatus_id, hid] at this

theorem get_setStatus_ne {t : Table} {pid pid' : String} (h : pid' ≠ pid) (s : Status) (e : Option String) :
    (setStatus t pid s e).2.get pid' = t.get pid' := by
  unfold setStatus
  split
  · rfl
  · rename_i row hrow
    have hid : row.id = pid := (Lib.Keyed.get_some hrow).2
    exact Lib.Keyed.get_set_ne t (by rw [Row.withStatus_id, hid]; exact h)

/-- An UPDATE leaves every row but for its status and its error. -/
theorem setStatus_rows {t : Table} {pid : String} {s : Status} {e : Option String} {row : Row}
    (h : row ∈ (setStatus t pid s e).2.rows) :
    ∃ old ∈ t.rows, row.id = old.id ∧ row.agentId = old.agentId ∧ row.runId = old.runId ∧ row.action = old.action ∧
      row.arguments = old.arguments ∧ row.rationale = old.rationale ∧ row.createdAt = old.createdAt := by
  unfold setStatus at h
  split at h
  · exact ⟨row, h, rfl, rfl, rfl, rfl, rfl, rfl, rfl⟩
  · rename_i old hold
    rcases Lib.Keyed.mem_set h with e | h
    · rw [e]
      exact ⟨old, (Lib.Keyed.get_some hold).1, rfl, rfl, rfl, rfl, rfl, rfl, rfl⟩
    · exact ⟨row, h, rfl, rfl, rfl, rfl, rfl, rfl, rfl⟩

/-- A successful `add` has a fresh id, and its row is the record. -/
theorem add_cases {c : Codec Args} {t t' : Table} {id : String} {now : Instant} {agentId runId action rationale : String}
    {arguments : Args} {r : ProposalRecord Args} (h : add c t id now agentId runId action arguments rationale = some (t', r)) :
    t.get id = none ∧ t' = t.set (recordToRow c r) ∧ r.id = id ∧ r.agentId = agentId ∧ r.runId = runId ∧ r.action = action ∧
      r.arguments = arguments ∧ r.rationale = rationale ∧ r.status = .pending := by
  simp only [add] at h
  split at h
  · cases h
  · rename_i hn
    cases h
    exact ⟨by simpa using hn, rfl, rfl, rfl, rfl, rfl, rfl, rfl, rfl⟩

theorem statusOf_setStatus_same {t : Table} {pid : String} {s : Status} {e : Option String} {st : Status}
    (h : statusOf t pid = some st) : statusOf (setStatus t pid s e).2 pid = some s := by
  obtain ⟨row, hrow, -⟩ := Option.map_eq_some_iff.mp h
  rw [statusOf, get_setStatus_same hrow, Option.map_some, Row.withStatus_status]

theorem statusOf_setStatus_ne {t : Table} {pid pid' : String} {s : Status} {e : Option String} (h : pid' ≠ pid) :
    statusOf (setStatus t pid s e).2 pid' = statusOf t pid' := by
  rw [statusOf, get_setStatus_ne h, statusOf]

/-- An UPDATE neither adds nor removes a row. -/
theorem statusOf_setStatus_isSome (t : Table) (pid pid' : String) (s : Status) (e : Option String) :
    (statusOf (setStatus t pid s e).2 pid').isSome = (statusOf t pid').isSome := by
  by_cases h : pid' = pid
  · subst h
    cases hs : statusOf t pid' with
    | none =>
      have : t.get pid' = none := by simpa [statusOf] using hs
      simp [setStatus, this, hs]
    | some st => simp [statusOf_setStatus_same hs]
  · rw [statusOf_setStatus_ne h]

end SagaAgents.Proposals
