/-
  SagaAgents.Proposals.Columns — `SqliteProposalStore` down to its statements
  (`proposals/store.py`).

  A row of `proposals` has nine TEXT columns. Each statement lists its columns, and gives
  or takes their values by position; `_row_to_record` takes a row apart by position.
  `arguments` is the text of `json.dumps`, `created_at` the text of `isoformat`, and a
  status any text until a record is made of it.

  Proved, over every history of `add` and `set_status`:
  - `add_returns_iff`: `add` returns a record unless its id is taken or an integer has more
    than 4300 digits.
  - `get_later`, `listed_later`: a record that `add` returned is read back with all its
    fields, and after a `set_status` of it with all but its status and error.
  - `add_refines`, `get_refines`, `listPending_refines`, `setStatus_refines`: the statements
    are the methods of `Proposals.Store`, with Python's texts for its codec.
-/

import SagaAgents.Lib.Calendar
import SagaAgents.Lib.JsonRoundTrip
import SagaAgents.Lib.Sql
import SagaAgents.Proposals.Store

namespace SagaAgents.Proposals.Columns

open Lib
open Lib.Calendar (limit isoformat fromisoformat)

/-! ## The table -/

inductive Column where
  | id
  | agentId
  | runId
  | action
  | arguments
  | rationale
  | status
  | createdAt
  | error
  deriving DecidableEq, Repr

/-- `_CREATE_TABLE`. -/
def createTable : Sql.Schema Column where
  key := .id
  notNull := [.agentId, .runId, .action, .arguments, .rationale, .status, .createdAt]

abbrev Cells := Sql.Cells Column String

abbrev Db := Sql.Table createTable String

def insertColumns : List Column :=
  [.id, .agentId, .runId, .action, .arguments, .rationale, .status, .createdAt, .error]

def listPendingColumns : List Column :=
  [.id, .agentId, .runId, .action, .arguments, .rationale, .status, .createdAt, .error]

def listPendingOfColumns : List Column :=
  [.id, .agentId, .runId, .action, .arguments, .rationale, .status, .createdAt, .error]

def getColumns : List Column :=
  [.id, .agentId, .runId, .action, .arguments, .rationale, .status, .createdAt, .error]

def setStatusColumns : List Column := [.status, .error]

/-! ## Texts -/

/-- A `dict[str, Any]` of JSON values. -/
abbrev Arguments := List (Text × Json)

/-- `json.dumps`; it raises on an integer of more than 4300 digits. -/
def dumps (arguments : Arguments) : Option String := (Json.dumps Json.Style.plain (.obj arguments)).map String.ofList

/-- `json.loads`, of a text that has to be a mapping. -/
def loads (text : String) : Option Arguments :=
  match Json.loads text.toList with
  | some (.obj members) => some members
  | _ => none

/-- What `propose` can receive: keys are distinct, numbers finite, strings of Unicode scalar
    values. -/
structure Proposable (arguments : Arguments) : Prop where
  keys : (Json.obj arguments).all Json.distinctKeys = true
  numbers : (Json.obj arguments).all Json.finiteFloat = true
  strings : (Json.obj arguments).all Json.scalarText = true

instance (arguments : Arguments) : Decidable (Proposable arguments) :=
  decidable_of_iff (_ ∧ _ ∧ _) ⟨fun ⟨k, n, s⟩ => ⟨k, n, s⟩, fun h => ⟨h.keys, h.numbers, h.strings⟩⟩

def statusText : Status → String
  | .pending => "pending"
  | .applied => "applied"
  | .rejected => "rejected"
  | .failed => "failed"

/-- The statuses that `ProposalRecord` takes. -/
def readStatus (text : String) : Option Status :=
  [Status.pending, .applied, .rejected, .failed].find? fun s => statusText s == text

/-! ## The store -/

/-- A datetime in UTC. -/
abbrev Moment := Fin limit

def rowToRecord : List (Option String) → Option (ProposalRecord Arguments)
  | [rowId, agentId, runId, action, argumentsJson, rationale, status, createdAtStr, error] =>
    rowId.bind fun rowId => agentId.bind fun agentId => runId.bind fun runId => action.bind fun action =>
    (argumentsJson.bind loads).bind fun arguments => rationale.bind fun rationale =>
    (status.bind readStatus).bind fun status =>
    (createdAtStr.bind fun text => fromisoformat text.toList).map fun createdAt =>
      { id := rowId, agentId := agentId, runId := runId, action := action, arguments := arguments,
        rationale := rationale, status := status, createdAt := createdAt, error := error }
  | _ => none

/-- The values of the INSERT. -/
def insertValues (r : ProposalRecord Arguments) : Option (List (Option String)) :=
  (dumps r.arguments).map fun argumentsJson =>
    [some r.id, some r.agentId, some r.runId, some r.action, some argumentsJson, some r.rationale, some (statusText r.status),
      some (String.ofList (isoformat r.createdAt)), r.error]

/-- `add`, with the id `uuid4` draws and the time `datetime.now` reads. -/
def add (db : Db) (id : String) (now : Moment) (agentId runId action : String) (arguments : Arguments) (rationale : String) :
    Option (Db × ProposalRecord Arguments) :=
  let record : ProposalRecord Arguments :=
    { id := id, agentId := agentId, runId := runId, action := action, arguments := arguments, rationale := rationale,
      status := .pending, createdAt := now.val }
  (insertValues record).bind fun values => (Sql.insert db insertColumns values).map fun db => (db, record)

/-- `ORDER BY created_at`. -/
def notLater (a b : Cells) : Bool := decide ((a .createdAt).getD "" ≤ (b .createdAt).getD "")

def listPending (db : Db) (agentId : Option String) : Option (List (ProposalRecord Arguments)) :=
  let rows :=
    match agentId with
    | none =>
      ((db.rows.filter fun (row : Cells) => row .status == some "pending").mergeSort notLater).map (Sql.select listPendingColumns)
    | some agentId =>
      ((db.rows.filter fun (row : Cells) => row .status == some "pending" && row .agentId == some agentId).mergeSort notLater).map
        (Sql.select listPendingOfColumns)
  rows.mapM rowToRecord

/-- `get`: the outer `none` is an unreadable row, the inner one an unknown id. -/
def get (db : Db) (proposalId : String) : Option (Option (ProposalRecord Arguments)) :=
  match (db.get (some proposalId)).map (Sql.select getColumns) with
  | none => some none
  | some row => (rowToRecord row).map some

def setStatus (db : Db) (proposalId status : String) (error : Option String) : Db :=
  Sql.update db setStatusColumns [some status, error] (some proposalId)

/-! ## A row and its record -/

/-- The row of a record, with this text of its arguments. -/
def cellsOf (r : ProposalRecord Arguments) (argumentsJson : String) : Cells
  | .id => some r.id
  | .agentId => some r.agentId
  | .runId => some r.runId
  | .action => some r.action
  | .arguments => some argumentsJson
  | .rationale => some r.rationale
  | .status => some (statusText r.status)
  | .createdAt => some (String.ofList (isoformat r.createdAt))
  | .error => r.error

/-- The row has all of the record but its status and error. -/
structure Written (r : ProposalRecord Arguments) (row : Cells) : Prop where
  proposable : Proposable r.arguments
  moment : r.createdAt < limit
  cells : ∃ json, dumps r.arguments = some json ∧ ∀ c, c ∉ setStatusColumns → row c = cellsOf r json c

theorem loads_dumps {arguments : Arguments} {text : String} (h : Proposable arguments) (hd : dumps arguments = some text) :
    loads text = some arguments := by
  obtain ⟨cs, hcs, e⟩ := Option.map_eq_some_iff.mp hd
  subst e
  rw [loads, String.toList_ofList, Json.loads_dumps h.strings h.keys hcs]

/-- What `dumps` has written is read, if not always as the same arguments. -/
theorem loads_written {arguments : Arguments} {text : String} (hd : dumps arguments = some text) :
    ∃ arguments', loads text = some arguments' := by
  obtain ⟨cs, hcs, e⟩ := Option.map_eq_some_iff.mp hd
  subst e
  rw [loads, String.toList_ofList, Json.loads_written hcs]
  exact ⟨_, rfl⟩

theorem dumps_isSome {arguments : Arguments} : (dumps arguments).isSome ↔ (Json.obj arguments).all Json.shortInt = true := by
  have hplain : Json.Style.plain.allowNan = true := rfl
  rw [dumps, Option.isSome_map, Json.dumps, hplain, Bool.true_or, Bool.and_true]
  split <;> simp_all

theorem readStatus_text (s : Status) : readStatus (statusText s) = some s := by
  cases s <;> rfl

/-- The INSERT's row. -/
theorem inserted (r : ProposalRecord Arguments) (json : String) :
    Sql.assign (fun _ => none) insertColumns (insertColumns.map (cellsOf r json)) = cellsOf r json := by
  funext c
  exact Sql.assign_map (by cases c <;> decide)

/-- The row is read as the record, but for its status and error. -/
structure Stored (r : ProposalRecord Arguments) (row : Cells) : Prop where
  moment : r.createdAt < limit
  cells : ∃ json, loads json = some r.arguments ∧ ∀ c, c ∉ setStatusColumns → row c = cellsOf r json c

theorem Written.stored {r : ProposalRecord Arguments} {row : Cells} (h : Written r row) : Stored r row := by
  obtain ⟨json, hjson, hcells⟩ := h.cells
  exact ⟨h.moment, json, loads_dumps h.proposable hjson, hcells⟩

theorem rowToRecord_stored {r : ProposalRecord Arguments} {row : Cells} (h : Stored r row) :
    rowToRecord (Sql.select getColumns row) =
      ((row .status).bind readStatus).map fun s => { r with status := s, error := row .error } := by
  obtain ⟨json, hjson, hcells⟩ := h.cells
  have hid : row .id = some r.id := hcells .id (by decide)
  have hagent : row .agentId = some r.agentId := hcells .agentId (by decide)
  have hrun : row .runId = some r.runId := hcells .runId (by decide)
  have haction : row .action = some r.action := hcells .action (by decide)
  have harguments : row .arguments = some json := hcells .arguments (by decide)
  have hrationale : row .rationale = some r.rationale := hcells .rationale (by decide)
  have hcreated : row .createdAt = some (String.ofList (isoformat r.createdAt)) := hcells .createdAt (by decide)
  simp only [Sql.select, getColumns, List.map_cons, List.map_nil, rowToRecord, hid, hagent, hrun, haction, harguments,
    hrationale, hcreated, Option.bind_some, hjson, String.toList_ofList, Calendar.fromisoformat_isoformat h.moment,
    Option.map_some]
  cases (row .status).bind readStatus <;> rfl

theorem rowToRecord_written {r : ProposalRecord Arguments} {row : Cells} (h : Written r row) :
    rowToRecord (Sql.select getColumns row) =
      ((row .status).bind readStatus).map fun s => { r with status := s, error := row .error } :=
  rowToRecord_stored h.stored

theorem record_id {r r' : ProposalRecord Arguments} {row : Cells} (h : Stored r row)
    (hr : rowToRecord (Sql.select getColumns row) = some r') : row .id = some r'.id := by
  rw [rowToRecord_stored h] at hr
  obtain ⟨s, -, e⟩ := Option.map_eq_some_iff.mp hr
  obtain ⟨json, -, hcells⟩ := h.cells
  rw [← e]
  exact hcells .id (by decide)

/-- What `add` leaves, and what it returns. -/
theorem add_cases {db db' : Db} {id agentId runId action rationale : String} {now : Moment} {arguments : Arguments}
    {r : ProposalRecord Arguments} (h : add db id now agentId runId action arguments rationale = some (db', r)) :
    db.get (some id) = none ∧ r = ⟨id, agentId, runId, action, arguments, rationale, .pending, now.val, none⟩ ∧
      ∃ json, dumps arguments = some json ∧ db' = db.set (cellsOf r json) := by
  obtain ⟨values, hv, h⟩ := Option.bind_eq_some_iff.mp h
  obtain ⟨json, hjson, e⟩ := Option.map_eq_some_iff.mp hv
  obtain ⟨db1, hi, e1⟩ := Option.map_eq_some_iff.mp h
  cases e1
  subst e
  obtain ⟨hfresh, hset⟩ := Sql.insert_some hi
  have hrow := inserted ⟨id, agentId, runId, action, arguments, rationale, .pending, now.val, none⟩ json
  exact ⟨hfresh, rfl, json, hjson, hset.trans (congrArg db.set hrow)⟩

/-- `add` returns a record unless its id is taken, or an integer is too long for its text. -/
theorem add_returns_iff (db : Db) (id agentId runId action rationale : String) (now : Moment) (arguments : Arguments) :
    (∃ db' r, add db id now agentId runId action arguments rationale = some (db', r)) ↔
      db.get (some id) = none ∧ (Json.obj arguments).all Json.shortInt = true := by
  constructor
  · rintro ⟨db', r, h⟩
    obtain ⟨hfresh, -, json, hjson, -⟩ := add_cases h
    exact ⟨hfresh, dumps_isSome.mp (by rw [hjson]; rfl)⟩
  · rintro ⟨hfresh, hshort⟩
    obtain ⟨json, hjson⟩ := Option.isSome_iff_exists.mp (dumps_isSome.mpr hshort)
    let r : ProposalRecord Arguments := ⟨id, agentId, runId, action, arguments, rationale, .pending, now.val, none⟩
    have hv : insertValues r = some (insertColumns.map (cellsOf r json)) := by
      rw [insertValues, hjson]
      rfl
    have hi : Sql.insert db insertColumns (insertColumns.map (cellsOf r json)) = some (db.set (cellsOf r json)) := by
      have hnull : createTable.notNull.any (fun c => (cellsOf r json c).isNone) = false := rfl
      have hkey : db.get (cellsOf r json createTable.key) = none := hfresh
      simp only [Sql.insert, inserted, hnull, hkey, Option.isSome_none, Bool.or_self, Bool.false_eq_true, if_false]
    exact ⟨db.set (cellsOf r json), r, by rw [add, hv, Option.bind_some, hi]; rfl⟩

/-! ## Histories -/

/-- A call that changes the table. -/
inductive Stmt where
  | add (id : String) (now : Moment) (agentId runId action : String) (arguments : { a : Arguments // Proposable a })
      (rationale : String)
  | setStatus (proposalId status : String) (error : Option String)

/-- The table after a call; one that raises leaves it. -/
def exec (db : Db) : Stmt → Db
  | .add id now agentId runId action arguments rationale =>
    (add db id now agentId runId action arguments.val rationale).elim db Prod.fst
  | .setStatus proposalId status error => setStatus db proposalId status error

def execAll (db : Db) (stmts : List Stmt) : Db := stmts.foldl exec db

/-- The status and error that a call gives this proposal. -/
def Stmt.decision (id : String) : Stmt → Option (String × Option String)
  | .setStatus proposalId status error => if proposalId = id then some (status, error) else none
  | _ => none

/-- The last `set_status` on the proposal. -/
def lastDecision (id : String) (stmts : List Stmt) : Option (String × Option String) :=
  (stmts.filterMap (Stmt.decision id)).getLast?

/-- The row after a `set_status` on it, or after none. -/
def decidedRow (row : Cells) : Option (String × Option String) → Cells
  | none => row
  | some (status, error) => Sql.assign row setStatusColumns [some status, error]

/-- Every row is of a record that `add` has stored. -/
def AllWritten (db : Db) : Prop := ∀ row ∈ db.rows, ∃ r, Written r row

theorem lastDecision_cons (id : String) (stmt : Stmt) (stmts : List Stmt) :
    lastDecision id (stmt :: stmts) = (lastDecision id stmts).or (stmt.decision id) := by
  unfold lastDecision
  cases h : stmt.decision id with
  | none => rw [List.filterMap_cons_none h, Option.or_none]
  | some d =>
    rw [List.filterMap_cons_some h, List.getLast?_cons]
    cases (stmts.filterMap (Stmt.decision id)).getLast? <;> rfl

/-- A later `set_status` overwrites the one before it. -/
theorem decidedRow_twice (row : Cells) (d d' : Option (String × Option String)) :
    decidedRow (decidedRow row d) d' = decidedRow row (d'.or d) := by
  cases d' with
  | none => rfl
  | some d' =>
    cases d with
    | none => rfl
    | some d =>
      funext c
      cases c <;> rfl

theorem written_decided {r : ProposalRecord Arguments} {row : Cells} (h : Written r row) (d : Option (String × Option String)) :
    Written r (decidedRow row d) := by
  refine ⟨h.proposable, h.moment, ?_⟩
  obtain ⟨json, hjson, hcells⟩ := h.cells
  refine ⟨json, hjson, fun c hc => ?_⟩
  cases d with
  | none => exact hcells c hc
  | some d => exact (Sql.assign_other hc).trans (hcells c hc)

theorem written_cellsOf {r : ProposalRecord Arguments} {json : String} (hp : Proposable r.arguments) (hm : r.createdAt < limit)
    (hjson : dumps r.arguments = some json) : Written r (cellsOf r json) :=
  ⟨hp, hm, json, hjson, fun _ _ => rfl⟩

/-- What a call does to a row that is there. -/
theorem exec_row {db : Db} {id : String} {row : Cells} (h : db.get (some id) = some row) (stmt : Stmt) :
    (exec db stmt).get (some id) = some (decidedRow row (stmt.decision id)) := by
  cases stmt with
  | add id' now agentId runId action arguments rationale =>
    simp only [exec]
    cases ha : add db id' now agentId runId action arguments.val rationale with
    | none => exact h
    | some p =>
      obtain ⟨db', r⟩ := p
      obtain ⟨hfresh, hr, json, -, hset⟩ := add_cases ha
      have hne : (some id : Option String) ≠ cellsOf r json .id := by
        intro e
        rw [hr] at e
        cases e
        cases h.symm.trans hfresh
      rw [Option.elim_some, hset]
      exact (Keyed.get_set_ne db hne).trans h
  | setStatus proposalId status error =>
    have hkey : createTable.key ∉ setStatusColumns := by decide
    simp only [exec, setStatus, Stmt.decision]
    by_cases e : proposalId = id
    · subst e
      rw [if_pos rfl]
      exact Sql.get_update_same hkey h
    · rw [if_neg e, Sql.get_update_ne hkey (by simpa using Ne.symm e)]
      exact h

/-- What a history does to a row that is there. -/
theorem execAll_row {db : Db} {id : String} {row : Cells} (h : db.get (some id) = some row) (stmts : List Stmt) :
    (execAll db stmts).get (some id) = some (decidedRow row (lastDecision id stmts)) := by
  induction stmts generalizing db row with
  | nil => exact h
  | cons stmt stmts ih =>
    have hrow := ih (exec_row h stmt)
    rw [decidedRow_twice, ← lastDecision_cons] at hrow
    exact hrow

theorem allWritten_add {db db' : Db} {id agentId runId action rationale : String} {now : Moment} {arguments : Arguments}
    {r : ProposalRecord Arguments} (hdb : AllWritten db) (hp : Proposable arguments)
    (h : add db id now agentId runId action arguments rationale = some (db', r)) : AllWritten db' := by
  obtain ⟨-, hr, json, hjson, hset⟩ := add_cases h
  subst hr
  intro row hrow
  rw [hset] at hrow
  rcases Keyed.mem_set hrow with e | hrow
  · rw [e]
    exact ⟨_, written_cellsOf hp now.isLt hjson⟩
  · exact hdb row hrow

theorem allWritten_exec {db : Db} (hdb : AllWritten db) (stmt : Stmt) : AllWritten (exec db stmt) := by
  cases stmt with
  | add id now agentId runId action arguments rationale =>
    simp only [exec]
    cases ha : add db id now agentId runId action arguments.val rationale with
    | none => exact hdb
    | some p => exact allWritten_add hdb arguments.property ha
  | setStatus proposalId status error =>
    intro row hrow
    rcases Sql.mem_update hrow with hrow | ⟨old, hold, e⟩
    · exact hdb row hrow
    · obtain ⟨r, hr⟩ := hdb old hold
      rw [e]
      exact ⟨r, written_decided hr (some (status, error))⟩

theorem allWritten_execAll {db : Db} (hdb : AllWritten db) (stmts : List Stmt) : AllWritten (execAll db stmts) := by
  induction stmts generalizing db with
  | nil => exact hdb
  | cons stmt stmts ih => exact ih (allWritten_exec hdb stmt)

theorem allWritten_empty : AllWritten (Keyed.empty _) := by
  intro row hrow
  cases hrow

/-! ## What is read back -/

/-- The rows that `list_pending` selects. -/
def pendingOf (agentId : Option String) (row : Cells) : Bool :=
  row .status == some "pending" && agentId.all fun a => row .agentId == some a

/-- The row that `add` leaves. -/
theorem add_row {db db' : Db} {id agentId runId action rationale : String} {now : Moment} {arguments : Arguments}
    {r : ProposalRecord Arguments} (hp : Proposable arguments)
    (h : add db id now agentId runId action arguments rationale = some (db', r)) :
    ∃ row, db'.get (some id) = some row ∧ Written r row ∧ rowToRecord (Sql.select getColumns row) = some r ∧
      ∀ agent, agent = none ∨ agent = some agentId → pendingOf agent row = true := by
  obtain ⟨-, hr, json, hjson, hset⟩ := add_cases h
  subst hr
  have hw := written_cellsOf (r := ⟨id, agentId, runId, action, arguments, rationale, .pending, now.val, none⟩) hp now.isLt hjson
  refine ⟨_, ?_, hw, ?_, ?_⟩
  · rw [hset]
    exact Keyed.get_set_same db _
  · rw [rowToRecord_written hw]
    rfl
  · rintro agent (e | e) <;> subst e
    · rfl
    · exact Bool.and_eq_true_iff.mpr ⟨rfl, beq_self_eq_true agentId⟩

/-- `get`, after a call of `add` and any later calls. -/
theorem get_later {db db' : Db} {id agentId runId action rationale : String} {now : Moment} {arguments : Arguments}
    {r : ProposalRecord Arguments} (hp : Proposable arguments)
    (h : add db id now agentId runId action arguments rationale = some (db', r)) (later : List Stmt) :
    get (execAll db' later) id =
      match lastDecision id later with
      | none => some (some r)
      | some (status, error) => (readStatus status).map fun s => some { r with status := s, error := error } := by
  obtain ⟨row, hget, hw, hr, -⟩ := add_row hp h
  rw [get, execAll_row hget later, Option.map_some]
  show (rowToRecord (Sql.select getColumns _)).map some = _
  cases lastDecision id later with
  | none => exact congrArg (Option.map some) hr
  | some d =>
    rw [rowToRecord_written (written_decided hw _), Option.map_map]
    rfl

theorem listPending_eq (db : Db) (agentId : Option String) :
    listPending db agentId =
      (((db.rows.filter (pendingOf agentId)).mergeSort notLater).map (Sql.select getColumns)).mapM rowToRecord := by
  cases agentId with
  | none =>
    have hp : pendingOf none = fun row => row .status == some "pending" := by
      funext row
      exact Bool.and_true _
    rw [hp]
    rfl
  | some a => rfl

theorem mapM_some {α β : Type} {f : α → Option β} {xs : List α} (h : ∀ x ∈ xs, ∃ y, f x = some y) :
    ∃ ys, xs.mapM f = some ys ∧ ys.map some = xs.map f := by
  induction xs with
  | nil => exact ⟨[], rfl, rfl⟩
  | cons x xs ih =>
    obtain ⟨y, hy⟩ := h x List.mem_cons_self
    obtain ⟨ys, hys, hmap⟩ := ih fun x hx => h x (List.mem_cons_of_mem _ hx)
    refine ⟨y :: ys, by simp [List.mapM_cons, hy, hys], ?_⟩
    rw [List.map_cons, List.map_cons, hmap, hy]

/-- Every row is read as a record once its status is one. -/
def AllStored (db : Db) : Prop := ∀ row ∈ db.rows, ∃ r, Stored r row

theorem AllWritten.stored {db : Db} (h : AllWritten db) : AllStored db := by
  intro row hrow
  obtain ⟨r, hr⟩ := h row hrow
  exact ⟨r, hr.stored⟩

/-- `list_pending` returns the records of the pending rows, sorted. -/
theorem listPending_rows {db : Db} (hdb : AllStored db) (agentId : Option String) :
    ∃ rs, listPending db agentId = some rs ∧
      rs.map some = ((db.rows.filter (pendingOf agentId)).mergeSort notLater).map (rowToRecord ∘ Sql.select getColumns) := by
  rw [listPending_eq, List.mapM_map]
  apply mapM_some
  intro row hrow
  obtain ⟨hrow, hpend⟩ := List.mem_filter.mp (List.mem_mergeSort.mp hrow)
  obtain ⟨r, hr⟩ := hdb row hrow
  simp only [pendingOf, Bool.and_eq_true, beq_iff_eq] at hpend
  rw [Function.comp_apply, rowToRecord_stored hr, hpend.1]
  exact ⟨_, rfl⟩

/-- `list_pending` returns, and lists the records of the pending rows. -/
theorem listPending_some {db : Db} (hdb : AllWritten db) (agentId : Option String) :
    ∃ rs, listPending db agentId = some rs ∧
      ∀ r, r ∈ rs ↔ ∃ row ∈ db.rows, pendingOf agentId row = true ∧ rowToRecord (Sql.select getColumns row) = some r := by
  obtain ⟨rs, hrs, hmap⟩ := listPending_rows hdb.stored agentId
  refine ⟨rs, hrs, fun r => ?_⟩
  have hmem : r ∈ rs ↔ some r ∈ rs.map some := (List.mem_map_of_injective (Option.some_injective _)).symm
  rw [hmem, hmap]
  simp only [List.mem_map, List.mem_mergeSort, List.mem_filter, Function.comp_apply, and_assoc]

/-- `list_pending`, after a call of `add` and any later calls but a `set_status` of it. -/
theorem listed_later {db db' : Db} {id agentId runId action rationale : String} {now : Moment} {arguments : Arguments}
    {r : ProposalRecord Arguments} (hdb : AllWritten db) (hp : Proposable arguments)
    (h : add db id now agentId runId action arguments rationale = some (db', r)) {later : List Stmt}
    (hnone : lastDecision id later = none) {agent : Option String} (hf : agent = none ∨ agent = some agentId) :
    ∃ rs, listPending (execAll db' later) agent = some rs ∧ ∀ r', r' ∈ rs ∧ r'.id = id ↔ r' = r := by
  obtain ⟨row, hget, hw, hr, hpend⟩ := add_row hp h
  have hrow := execAll_row hget later
  rw [hnone] at hrow
  obtain ⟨hmem, hkey⟩ := Keyed.get_some hrow
  have hall := allWritten_execAll (allWritten_add hdb hp h) later
  obtain ⟨rs, hrs, hin⟩ := listPending_some hall agent
  refine ⟨rs, hrs, fun r' => ?_⟩
  rw [hin]
  constructor
  · rintro ⟨⟨row', hmem', -, hr'⟩, hid⟩
    -- the key is unique, so it is the same row
    obtain ⟨r0, hw'⟩ := hall row' hmem'
    have hid' := record_id hw'.stored hr'
    rw [hid] at hid'
    cases Keyed.unique hmem' hmem (hid'.trans hkey.symm)
    exact Option.some.inj (hr'.symm.trans hr)
  · intro e
    subst e
    have hid := record_id hw.stored hr
    exact ⟨⟨row, hmem, hpend agent hf, hr⟩, Option.some.inj (hid.symm.trans hkey)⟩

/-! ## The methods of the store -/

/-- The texts of the standard library. Arguments that `json.dumps` refuses get a text that
    `json.loads` refuses. -/
def pythonCodec : Codec Arguments where
  dumps arguments := (dumps arguments).getD ""
  loads := loads
  isoformat t := String.ofList (isoformat t)
  fromisoformat text := fromisoformat text.toList

def cellsOfRow (row : Row) : Cells
  | .id => some row.id
  | .agentId => some row.agentId
  | .runId => some row.runId
  | .action => some row.action
  | .arguments => some row.arguments
  | .rationale => some row.rationale
  | .status => some (statusText row.status)
  | .createdAt => some row.createdAt
  | .error => row.error

/-- The database holds the rows of the table. -/
def Represents (db : Db) (t : Table) : Prop := db.rows = t.rows.map cellsOfRow

theorem cellsOfRow_id (row : Row) : cellsOfRow row createTable.key = some row.id := rfl

theorem rowToRecord_row (row : Row) :
    rowToRecord (Sql.select getColumns (cellsOfRow row)) = Proposals.rowToRecord pythonCodec row := by
  show (((loads row.arguments).bind fun arguments => ((some (statusText row.status)).bind readStatus).bind fun status =>
    (fromisoformat row.createdAt.toList).map fun createdAt => _ : Option (ProposalRecord Arguments))) = _
  rw [Option.bind_some, readStatus_text]
  rfl

variable {db : Db} {t : Table}

theorem get_row (h : Represents db t) (id : String) : db.get (some id) = (t.get id).map cellsOfRow :=
  Keyed.get_image (f := cellsOfRow) (Option.some_injective _) cellsOfRow_id h id

theorem get_refines (h : Represents db t) (id : String) : get db id = Proposals.get pythonCodec t id := by
  rw [get, get_row h, Proposals.get]
  cases t.get id with
  | none => rfl
  | some row => exact congrArg (Option.map some) (rowToRecord_row row)

theorem add_refines (h : Represents db t) (id agentId runId action rationale : String) (now : Moment) {arguments : Arguments}
    (hshort : (Json.obj arguments).all Json.shortInt = true) :
    (add db id now agentId runId action arguments rationale = none ∧
        Proposals.add pythonCodec t id now agentId runId action arguments rationale = none) ∨
      ∃ db' t' r, add db id now agentId runId action arguments rationale = some (db', r) ∧
        Proposals.add pythonCodec t id now agentId runId action arguments rationale = some (t', r) ∧ Represents db' t' := by
  obtain ⟨json, hjson⟩ := Option.isSome_iff_exists.mp (dumps_isSome.mpr hshort)
  cases hid : t.get id with
  | some row =>
    refine Or.inl ⟨?_, by simp [Proposals.add, hid]⟩
    by_contra hne
    obtain ⟨⟨db', r⟩, ha⟩ := Option.ne_none_iff_exists'.mp hne
    have hfresh := (add_cases ha).1
    rw [get_row h, hid] at hfresh
    cases hfresh
  | none =>
    have hfresh : db.get (some id) = none := by rw [get_row h, hid]; rfl
    obtain ⟨db', r, ha⟩ := (add_returns_iff db id agentId runId action rationale now arguments).mpr ⟨hfresh, hshort⟩
    obtain ⟨-, hr, json', hjson', hset⟩ := add_cases ha
    subst hr
    refine Or.inr ⟨db', _, _, ha, by simp only [Proposals.add, hid]; rfl, ?_⟩
    have hcells : cellsOf ⟨id, agentId, runId, action, arguments, rationale, .pending, now.val, none⟩ json' =
        cellsOfRow (recordToRow pythonCodec ⟨id, agentId, runId, action, arguments, rationale, .pending, now.val, none⟩) := by
      funext c
      cases c <;> first | rfl | exact congrArg (fun d : Option String => some (d.getD "")) hjson'.symm
    rw [hset, hcells]
    exact Keyed.set_image (f := cellsOfRow) (Option.some_injective _) cellsOfRow_id h _

/-- A proposal that the table takes the statements take too. -/
theorem add_represented (h : Represents db t) (now : Moment) {id agentId runId action rationale : String} {arguments : Arguments}
    (hshort : (Json.obj arguments).all Json.shortInt = true) {t' : Table} {r : ProposalRecord Arguments}
    (ha : Proposals.add pythonCodec t id now agentId runId action arguments rationale = some (t', r)) :
    ∃ db', add db id now agentId runId action arguments rationale = some (db', r) ∧ Represents db' t' := by
  rcases add_refines h id agentId runId action rationale now hshort with ⟨-, hnone⟩ | ⟨db', t'', r', hadd, hsome, hrep⟩
  · cases hnone.symm.trans ha
  · cases hsome.symm.trans ha
    exact ⟨db', hadd, hrep⟩

theorem setStatus_refines (h : Represents db t) (id : String) (s : Status) (e : Option String) :
    Represents (setStatus db id (statusText s) e) (Proposals.setStatus t id s e).2 := by
  unfold setStatus Sql.update Proposals.setStatus
  rw [get_row h]
  cases t.get id with
  | none => exact h
  | some row =>
    have hcells : Sql.assign (cellsOfRow row) setStatusColumns [some (statusText s), e] = cellsOfRow (row.withStatus s e) := by
      funext c
      cases c <;> rfl
    show Represents (db.set (Sql.assign (cellsOfRow row) setStatusColumns [some (statusText s), e])) (t.set (row.withStatus s e))
    rw [hcells]
    exact Keyed.set_image (f := cellsOfRow) (Option.some_injective _) cellsOfRow_id h _

theorem listPending_refines (h : Represents db t) (agentId : Option String) :
    listPending db agentId = Proposals.listPending pythonCodec t agentId := by
  have hfilter : (pendingOf agentId ∘ cellsOfRow) = fun row => row.status == .pending && (agentId.all (row.agentId == ·)) := by
    funext row
    have hstatus : (some (statusText row.status) == some "pending") = (row.status == .pending) := by
      cases row.status <;> rfl
    have hagent : (agentId.all fun a => some row.agentId == some a) = agentId.all (row.agentId == ·) := by
      cases agentId <;> rfl
    exact congrArg₂ (· && ·) hstatus hagent
  have hsort (rows : List Row) : (rows.map cellsOfRow).mergeSort notLater =
      (rows.mergeSort fun a b => decide (a.createdAt ≤ b.createdAt)).map cellsOfRow := by
    symm
    apply List.map_mergeSort
    intro a _ b _
    rfl
  have hread : (rowToRecord ∘ Sql.select getColumns) ∘ cellsOfRow = Proposals.rowToRecord pythonCodec := by
    funext row
    exact rowToRecord_row row
  rw [listPending_eq, h, List.filter_map, hfilter, hsort, List.mapM_map, List.mapM_map, hread, Proposals.listPending]

end SagaAgents.Proposals.Columns
