/-
  SagaAgents.Reviewed — the list of pending proposals, and what is approved from it
  (`triggers/api.py`, `list_proposals`).

  A reviewer asks for the pending proposals of an agent, reads the JSON text of the answer,
  and approves one by its id. `list_pending` selects the rows in one statement, so an answer
  is a function of the table of that instant. The service goes on meanwhile, and may be
  started again in between (`Restarts`). What pydantic makes of the arguments in JSON mode
  and of a datetime is a parameter.

  Proved:
  - `list_answered_iff`: the list of an agent is answered iff each of its pending records can
    be rendered, and the entries that are read from the answer show these records, member by
    member, oldest first. One that cannot, say with a lone surrogate in its arguments, takes
    the list of its agent away until it is decided, and no other list
    (`surrogate_takes_list`).
  - `shown_is_invoked`: every entry of every answer shows a stored proposal as its run has
    proposed it, and whatever any life invokes for that id is what the entry shows.
-/

import SagaAgents.Proposals.Listing
import SagaAgents.Restarts
import SagaAgents.Triggers.ApproveResult
import SagaAgents.Triggers.Messages
import SagaAgents.Verbatim

namespace SagaAgents.Reviewed

open Lib
open Proposals (Codec ProposalRecord Row Table Instant rowToRecord)
open Proposals.Columns (Arguments Proposable pythonCodec statusText)
open Restarts (Life Same Stored RowOf)
open Triggers.Api (App)
open Triggers.ApproveResult (responseStyle plainNode)

variable {Val Out : Type}

/-! ## The answer -/

/-- What pydantic writes in JSON mode; `none` if it raises. -/
structure Pydantic where
  arguments : Arguments → Option Json
  datetime : Instant → String

def text (s : String) : Json := .str (Text.ofString s)

def entry (p : Pydantic) (r : ProposalRecord Arguments) (arguments : Json) : Json :=
  .obj [(Text.ofString "id", text r.id), (Text.ofString "agent_id", text r.agentId), (Text.ofString "run_id", text r.runId),
    (Text.ofString "action", text r.action), (Text.ofString "arguments", arguments),
    (Text.ofString "rationale", text r.rationale), (Text.ofString "status", text (statusText r.status)),
    (Text.ofString "created_at", text (p.datetime r.createdAt)), (Text.ofString "error", r.error.elim .null text)]

/-- `r.model_dump(mode="json")`. -/
def modelDump (p : Pydantic) (r : ProposalRecord Arguments) : Option Json := (p.arguments r.arguments).map (entry p r)

/-- `JSONResponse.render`, of a JSON value. -/
def render (v : Json) : Option (List Char) := (Json.dumps responseStyle v).filter fun _ => v.all Json.scalarText

inductive Listed where
  | detail (code : Nat) (text : String)
  | error (code : Nat) (text : String)
  | records (text : List Char)
  | raised
  deriving DecidableEq, Repr

/-- `GET /agents/{agent_id}/proposals`. -/
def listProposals (p : Pydantic) (api : App Arguments Val Out) (t : Table) (agentId : String) (authorization : Option String) :
    Listed :=
  if !Triggers.Api.verifyToken api authorization then .detail 403 "Invalid or missing token"
  else if !api.proposalStore then .error 503 "proposals disabled"
  else
    match (Proposals.listPending api.codec t (some agentId)).bind fun records =>
      (records.mapM (modelDump p)).bind fun dumped => render (.list dumped) with
    | none => .raised
    | some body => .records body

/-! ## The service and its answers -/

structure St (Val Out : Type) where
  service : Restarts.St Arguments Val Out
  listed : List Listed

inductive Ev (Val Out : Type) where
  | service (e : Restarts.Ev Arguments Val Out)
  | list (agentId : String) (authorization : Option String)

def init (w : System.Wiring Arguments Val Out) : St Val Out := ⟨Restarts.init w, []⟩

def step (p : Pydantic) (s : St Val Out) : Ev Val Out → Option (St Val Out)
  | .service e => (Restarts.step s.service e).map fun t => { s with service := t }
  | .list agentId authorization =>
    some { s with listed :=
      s.listed ++ [listProposals p s.service.life.wiring.app s.service.table agentId authorization] }

/-- The member of a mapping. -/
def field (name : String) : Json → Option Json
  | .obj ms => (ms.find? fun m => m.1 == Text.ofString name).map Prod.snd
  | _ => none

/-! ## Records that were shown -/

/-- A record of this row; it may have had another status then. -/
structure ReadFrom (lives : List (Life Arguments Val Out)) (row : Row) (r : ProposalRecord Arguments) : Prop where
  id : r.id = row.id
  agent : r.agentId = row.agentId
  run : r.runId = row.runId
  action : r.action = row.action
  rationale : r.rationale = row.rationale
  arguments : ∃ ℓ ∈ lives, ℓ.wiring.app.codec.loads row.arguments = some r.arguments

/-- The answer is the text of records that were read from rows of the table. -/
def Shown (p : Pydantic) (s : Restarts.St Arguments Val Out) (body : List Char) : Prop :=
  ∃ (records : List (ProposalRecord Arguments)) (dumped : List Json),
    records.mapM (modelDump p) = some dumped ∧ render (.list dumped) = some body ∧
    ∀ r ∈ records, ∃ row ∈ s.table.rows, ReadFrom s.lives row r

theorem mapM_map {α β : Type} {f : α → Option β} {xs : List α} {ys : List β} (h : xs.mapM f = some ys) :
    ys.map some = xs.map f := by
  induction xs generalizing ys with
  | nil =>
    cases h
    rfl
  | cons x xs ih =>
    rw [List.mapM_cons] at h
    obtain ⟨y, hy, h⟩ := Option.bind_eq_some_iff.mp h
    obtain ⟨zs, hzs, h⟩ := Option.bind_eq_some_iff.mp h
    cases h
    rw [List.map_cons, List.map_cons, hy, ih hzs]

theorem mapM_forall₂ {α β : Type} {f : α → Option β} {xs : List α} {ys : List β} (h : xs.mapM f = some ys) :
    List.Forall₂ (fun x y => f x = some y) xs ys := by
  have hsame : List.Forall₂ (· = ·) (xs.map f) (ys.map some) := by
    rw [mapM_map h]
    exact List.forall₂_refl _
  rwa [List.forall₂_map_left_iff, List.forall₂_map_right_iff] at hsame

theorem forall₂_from {α β : Type} {R : α → β → Prop} {xs : List α} {ys : List β} (h : List.Forall₂ R xs ys) {y : β} (hy : y ∈ ys) :
    ∃ x ∈ xs, R x y := by
  induction h with
  | nil => cases hy
  | cons hR _ ih =>
    rcases List.mem_cons.mp hy with e | hy
    · subst e
      exact ⟨_, List.mem_cons_self, hR⟩
    · obtain ⟨x, hx, hxy⟩ := ih hy
      exact ⟨x, List.mem_cons_of_mem _ hx, hxy⟩

/-- What `mapM` returns comes from an element. -/
theorem mapM_from {α β : Type} {f : α → Option β} {xs : List α} {ys : List β} (h : xs.mapM f = some ys) {y : β} (hy : y ∈ ys) :
    ∃ x ∈ xs, f x = some y := forall₂_from (mapM_forall₂ h) hy

theorem listed_shown {p : Pydantic} {s : Restarts.St Arguments Val Out} {agentId : String} {authorization : Option String}
    {body : List Char} (h : listProposals p s.life.wiring.app s.table agentId authorization = .records body) :
    Shown p s body := by
  unfold listProposals at h
  split at h
  · cases h
  · split at h
    · cases h
    · split at h
      · cases h
      · rename_i found hfound
        cases h
        obtain ⟨records, hrecords, hfound⟩ := Option.bind_eq_some_iff.mp hfound
        obtain ⟨dumped, hdumped, hrender⟩ := Option.bind_eq_some_iff.mp hfound
        refine ⟨records, dumped, hdumped, hrender, fun r hr => ?_⟩
        obtain ⟨row, hrow, hread⟩ := mapM_from hrecords hr
        have hmem := (List.mem_filter.mp (List.mem_mergeSort.mp hrow)).1
        obtain ⟨hid, hagent, hrun, haction, hloads, hrationale, -⟩ := Proposals.rowToRecord_fields hread
        exact ⟨row, hmem, hid, hagent, hrun, haction, hrationale, s.life, List.mem_append_right _ List.mem_cons_self, hloads⟩

theorem readFrom_last {s t : Restarts.St Arguments Val Out} {e : Restarts.Ev Arguments Val Out}
    (hstep : Restarts.step s e = some t) {row row' : Row} (hsame : Same row row') {r : ProposalRecord Arguments}
    (h : ReadFrom s.lives row r) : ReadFrom t.lives row' r := by
  obtain ⟨ℓ, hℓ, hloads⟩ := h.arguments
  obtain ⟨m, hm, hw⟩ := Restarts.lives_last hstep hℓ
  rw [Same] at hsame
  rw [hsame]
  exact ⟨h.id, h.agent, h.run, h.action, h.rationale, m, hm, by rw [hw]; exact hloads⟩

theorem shown_last {p : Pydantic} {s t : Restarts.St Arguments Val Out} {e : Restarts.Ev Arguments Val Out}
    (hstep : Restarts.step s e = some t) {body : List Char} (h : Shown p s body) : Shown p t body := by
  obtain ⟨records, dumped, hdumped, hrender, hread⟩ := h
  refine ⟨records, dumped, hdumped, hrender, fun r hr => ?_⟩
  obtain ⟨row, hrow, hfrom⟩ := hread r hr
  obtain ⟨row', hrow', hsame⟩ := Restarts.rows_last hstep hrow
  exact ⟨row', hrow', readFrom_last hstep hsame hfrom⟩

theorem shown_run {p : Pydantic} {w : System.Wiring Arguments Val Out} {ok : St Val Out → Ev Val Out → Prop} {s : St Val Out}
    (h : Run (step p) ok (init w) s) : ∀ body, Listed.records body ∈ s.listed → Shown p s.service body := by
  refine Run.invariant (I := fun s : St Val Out => ∀ body, Listed.records body ∈ s.listed → Shown p s.service body)
    (fun s e t hs _ hstep body hbody => ?_) h (fun body hbody => (by cases hbody))
  cases e with
  | service e =>
    obtain ⟨u, hu, e⟩ := Option.map_eq_some_iff.mp hstep
    subst e
    exact shown_last hu (hs body hbody)
  | list agentId authorization =>
    cases hstep
    rcases List.mem_append.mp hbody with hbody | hbody
    · exact hs body hbody
    · exact listed_shown (List.mem_singleton.mp hbody).symm

theorem service_run {p : Pydantic} {w : System.Wiring Arguments Val Out} {ok : St Val Out → Ev Val Out → Prop} {s : St Val Out}
    (h : Run (step p) ok (init w) s) : Run Restarts.step (fun _ _ => True) (Restarts.init w) s.service := by
  refine Run.simulate (I := fun _ => True) St.service (fun _ _ _ _ _ _ => trivial) (fun s e t _ _ hstep => ?_) h trivial
  cases e with
  | service e =>
    obtain ⟨u, hu, e⟩ := Option.map_eq_some_iff.mp hstep
    subst e
    exact Run.single _ trivial hu
  | list agentId authorization =>
    cases hstep
    exact .refl _

/-! ## Reading an answer -/

theorem rereadElems_map (st : Json.Style) (vs : List Json) : Json.rereadElems st vs = vs.map (Json.reread st) := by
  induction vs with
  | nil => rfl
  | cons v vs ih => rw [Json.rereadElems, ih, List.map_cons]

theorem rereadText_ofString (st : Json.Style) (s : String) : Json.rereadText st (Text.ofString s) = Text.ofString s :=
  Json.rereadText_scalar st (Triggers.ApproveResult.scalar_chars s.toList)

theorem reread_text (st : Json.Style) (s : String) : Json.reread st (text s) = text s := by
  rw [text, Json.reread, rereadText_ofString]

/-- Of an entry only the arguments can be read as something else. -/
theorem reread_entry (st : Json.Style) (p : Pydantic) (r : ProposalRecord Arguments) (arguments : Json) :
    Json.reread st (entry p r arguments) = entry p r (Json.reread st arguments) := by
  have herror : Json.reread st (r.error.elim .null text) = r.error.elim .null text := by
    cases r.error with
    | none => rfl
    | some e => exact reread_text st e
  simp only [entry, Json.reread, Json.rereadMembers, rereadText_ofString, reread_text, herror]
  rw [Json.dict, Keyed.ofList_rows]
  exact (by decide : ([Text.ofString "id", Text.ofString "agent_id", Text.ofString "run_id", Text.ofString "action",
    Text.ofString "arguments", Text.ofString "rationale", Text.ofString "status", Text.ofString "created_at",
    Text.ofString "error"]).Nodup)

/-- The entries of an answer are the dumps of its records, as they are read. -/
theorem read_entries {p : Pydantic} {records : List (ProposalRecord Arguments)} {dumped : List Json} {body : List Char}
    (hdumped : records.mapM (modelDump p) = some dumped) (h : render (.list dumped) = some body) :
    Json.loads body = some (.list (dumped.map (Json.reread responseStyle))) ∧
      List.Forall₂ (fun r e => ∃ arguments, p.arguments r.arguments = some arguments ∧
        e = entry p r (Json.reread responseStyle arguments)) records (dumped.map (Json.reread responseStyle)) := by
  obtain ⟨hdumps, -⟩ := Option.filter_eq_some_iff.mp h
  have hloads := Json.loads_written hdumps
  rw [Json.reread, rereadElems_map] at hloads
  refine ⟨hloads, List.forall₂_map_right_iff.mpr ((mapM_forall₂ hdumped).imp fun r j hdump => ?_)⟩
  obtain ⟨arguments, ha, e⟩ := Option.map_eq_some_iff.mp hdump
  exact ⟨arguments, ha, by rw [← e, reread_entry]⟩

theorem entry_id (p : Pydantic) (r : ProposalRecord Arguments) (a : Json) : field "id" (entry p r a) = some (text r.id) := rfl

theorem entry_agent (p : Pydantic) (r : ProposalRecord Arguments) (a : Json) :
    field "agent_id" (entry p r a) = some (text r.agentId) := rfl

theorem entry_run (p : Pydantic) (r : ProposalRecord Arguments) (a : Json) :
    field "run_id" (entry p r a) = some (text r.runId) := rfl

theorem entry_action (p : Pydantic) (r : ProposalRecord Arguments) (a : Json) :
    field "action" (entry p r a) = some (text r.action) := rfl

theorem entry_arguments (p : Pydantic) (r : ProposalRecord Arguments) (a : Json) :
    field "arguments" (entry p r a) = some a := rfl

theorem entry_rationale (p : Pydantic) (r : ProposalRecord Arguments) (a : Json) :
    field "rationale" (entry p r a) = some (text r.rationale) := rfl

/-- Arguments that `propose` can receive are read as they were written. -/
theorem reread_proposable (st : Json.Style) {arguments : Arguments} (h : Proposable arguments) :
    Json.reread st (.obj arguments) = .obj arguments := by
  apply Json.reread_sound
  show (Json.obj arguments).all (fun x => Json.scalarText x && Json.distinctKeys x) = true
  rw [Json.all_and, h.strings, h.keys]
  rfl

/-! ## Which lists can be answered -/

theorem all_plain (v : Json) :
    v.all plainNode = (v.all Json.shortInt && v.all Json.finiteFloat && v.all Json.scalarText) := by
  rw [← Json.all_and, ← Json.all_and]
  rfl

theorem render_isSome (v : Json) : (render v).isSome = v.all plainNode := by
  rw [all_plain, render, Json.dumps]
  cases v.all Json.shortInt <;> cases v.all Json.finiteFloat <;> cases v.all Json.scalarText <;> rfl

theorem all_list (vs : List Json) : (Json.list vs).all plainNode = true ↔ ∀ v ∈ vs, v.all plainNode = true := by
  show Json.allElems plainNode vs = true ↔ _
  induction vs with
  | nil => simp [Json.allElems]
  | cons v vs ih => rw [Json.allElems, Bool.and_eq_true, ih, List.forall_mem_cons]

theorem all_text (s : String) : (text s).all plainNode = true :=
  Triggers.ApproveResult.scalar_chars s.toList

theorem all_entry (p : Pydantic) (r : ProposalRecord Arguments) (arguments : Json) :
    (entry p r arguments).all plainNode = arguments.all plainNode := by
  have hs (s : String) : (Text.ofString s).all isScalar = true := Triggers.ApproveResult.scalar_chars s.toList
  have herror : (r.error.elim .null text).all plainNode = true := by
    cases r.error with
    | none => rfl
    | some e => exact all_text e
  simp only [entry, Json.all, Json.allMembers, all_text, herror, Bool.and_true, Bool.true_and, Triggers.ApproveResult.plainNode,
    Json.shortInt, Json.finiteFloat, Json.scalarText, List.all_cons, List.all_nil, hs]

/-- The records of an answer, and the answer. -/
theorem body_of_records (p : Pydantic) (records : List (ProposalRecord Arguments)) :
    (((records.mapM (modelDump p)).bind fun dumped => render (.list dumped)).isSome = true ↔
      ∀ r ∈ records, ((p.arguments r.arguments).any fun arguments => arguments.all plainNode) = true) := by
  constructor
  · intro h r hr
    obtain ⟨body, h⟩ := Option.isSome_iff_exists.mp h
    obtain ⟨dumped, hdumped, hrender⟩ := Option.bind_eq_some_iff.mp h
    have hplain : (Json.list dumped).all plainNode = true := by rw [← render_isSome, hrender]; rfl
    have hmem : modelDump p r ∈ dumped.map some := by
      rw [mapM_map hdumped]
      exact List.mem_map_of_mem hr
    obtain ⟨j, hj, e⟩ := List.mem_map.mp hmem
    obtain ⟨arguments, ha, e'⟩ := Option.map_eq_some_iff.mp e.symm
    have hall := (all_list dumped).mp hplain j hj
    rw [← e', all_entry] at hall
    rw [ha, Option.any_some, hall]
  · intro h
    have hsome : ∀ r ∈ records, ∃ j, modelDump p r = some j := by
      intro r hr
      obtain ⟨arguments, ha, -⟩ := (Option.any_eq_true _ _).mp (h r hr)
      exact ⟨_, by rw [modelDump, ha]; rfl⟩
    obtain ⟨dumped, hdumped, -⟩ := Proposals.Columns.mapM_some hsome
    rw [hdumped, Option.bind_some, render_isSome, all_list]
    intro j hj
    obtain ⟨r, hr, hdump⟩ := mapM_from hdumped hj
    obtain ⟨arguments, ha, e⟩ := Option.map_eq_some_iff.mp hdump
    have hall := h r hr
    rw [ha, Option.any_some] at hall
    rw [← e, all_entry, hall]

/-- The entry has exactly these members, which are what the pending record has. -/
structure Reads (p : Pydantic) (r : ProposalRecord Arguments) (e : Json) : Prop where
  members : ∃ ms, e = .obj ms ∧ ms.map Prod.fst =
    ["id", "agent_id", "run_id", "action", "arguments", "rationale", "status", "created_at", "error"].map Text.ofString
  id : field "id" e = some (text r.id)
  agentId : field "agent_id" e = some (text r.agentId)
  runId : field "run_id" e = some (text r.runId)
  action : field "action" e = some (text r.action)
  arguments : ∃ j, p.arguments r.arguments = some j ∧ (j.all Json.distinctKeys = true → field "arguments" e = some j)
  rationale : field "rationale" e = some (text r.rationale)
  status : field "status" e = some (text "pending")
  createdAt : field "created_at" e = some (text (p.datetime r.createdAt))
  error : field "error" e = some (r.error.elim .null text)

/-- What pydantic makes of the arguments can be written, and is read as it was. -/
theorem reread_plain {v : Json} (hplain : v.all plainNode = true) (hkeys : v.all Json.distinctKeys = true) :
    Json.reread responseStyle v = v := by
  apply Json.reread_sound
  rw [all_plain, Bool.and_eq_true] at hplain
  show v.all (fun x => Json.scalarText x && Json.distinctKeys x) = true
  rw [Json.all_and, hplain.2, hkeys]
  rfl

theorem reads_entry {p : Pydantic} {r : ProposalRecord Arguments} (hr : r.status = .pending) {j : Json}
    (hj : p.arguments r.arguments = some j) (hplain : j.all plainNode = true) :
    Reads p r (entry p r (Json.reread responseStyle j)) := by
  have hstatus : text (statusText r.status) = text "pending" := by
    rw [hr]
    rfl
  refine ⟨⟨_, rfl, rfl⟩, rfl, rfl, rfl, rfl, ⟨j, hj, fun hkeys => ?_⟩, rfl, congrArg some hstatus, rfl, rfl⟩
  rw [entry_arguments, reread_plain hplain hkeys]

/-- A pending row of the agent is read as a pending record of the agent. -/
theorem record_pending {r₀ r : ProposalRecord Arguments} {row : Proposals.Columns.Cells} {agentId : String}
    (hrow : Proposals.Columns.Stored r₀ row) (hpending : Proposals.Columns.pendingOf (some agentId) row = true)
    (h : Proposals.Columns.rowToRecord (Sql.select Proposals.Columns.getColumns row) = some r) :
    r.agentId = agentId ∧ r.status = .pending := by
  obtain ⟨_, -, hcells⟩ := hrow.cells
  have hagent : row .agentId = some r₀.agentId := hcells .agentId (by decide)
  simp only [Proposals.Columns.pendingOf, Option.all_some, Bool.and_eq_true, beq_iff_eq, hagent] at hpending
  rw [Proposals.Columns.rowToRecord_stored hrow, hpending.1] at h
  cases h
  exact ⟨Option.some.inj hpending.2, rfl⟩

/-- The list of an agent has pending records of the agent. -/
theorem listed_pending {db : Proposals.Columns.Db} {agentId : String} {records : List (ProposalRecord Arguments)}
    (hstored : Proposals.Columns.AllStored db)
    (hmap : records.map some =
      ((db.rows.filter (Proposals.Columns.pendingOf (some agentId))).mergeSort Proposals.Columns.notLater).map
        (Proposals.Columns.rowToRecord ∘ Sql.select Proposals.Columns.getColumns)) :
    ∀ r ∈ records, r.agentId = agentId ∧ r.status = .pending := by
  intro r hr
  have hread : some r ∈ records.map some := List.mem_map_of_mem hr
  rw [hmap] at hread
  obtain ⟨row, hrow, hread⟩ := List.mem_map.mp hread
  obtain ⟨hrow, hpending⟩ := List.mem_filter.mp (List.mem_mergeSort.mp hrow)
  obtain ⟨r₀, hr₀⟩ := hstored row hrow
  exact record_pending hr₀ hpending hread

/-- A body of pending records is read as entries that show them. -/
theorem reads_body {p : Pydantic} {records : List (ProposalRecord Arguments)} (hpending : ∀ r ∈ records, r.status = .pending)
    {body : List Char} (h : ((records.mapM (modelDump p)).bind fun dumped => render (.list dumped)) = some body) :
    ∃ entries, Json.loads body = some (.list entries) ∧ List.Forall₂ (Reads p) records entries := by
  have hplain := (body_of_records p records).mp (by rw [h]; rfl)
  obtain ⟨dumped, hdumped, hrender⟩ := Option.bind_eq_some_iff.mp h
  obtain ⟨hloads, hentries⟩ := read_entries hdumped hrender
  refine ⟨_, hloads, ?_⟩
  have hall := (List.forall₂_and_left _ _).mpr ⟨fun r hr => And.intro (hpending r hr) (hplain r hr), hentries⟩
  refine hall.imp ?_
  rintro r e ⟨⟨hst, hj'⟩, j, hj, e'⟩
  rw [hj, Option.any_some] at hj'
  rw [e']
  exact reads_entry hst hj hj'

/-- The list of an agent is answered iff each of its pending records can be rendered, and is
    a bare 500 otherwise. The entries of the answer show these records, oldest first. -/
theorem list_answered_iff (p : Pydantic) {db : Proposals.Columns.Db} {t : Table} (hdb : Proposals.Columns.Reached db)
    (ht : Proposals.Columns.Represents db t) {api : App Arguments Val Out} (hcodec : api.codec = pythonCodec)
    (hstore : api.proposalStore = true) {authorization : Option String}
    (hv : Triggers.Api.verifyToken api authorization = true) (agentId : String) :
    ∃ records : List (ProposalRecord Arguments), (records.map some).Perm
        ((db.rows.filter (Proposals.Columns.pendingOf (some agentId))).map fun row =>
          Proposals.Columns.rowToRecord (Sql.select Proposals.Columns.getColumns row)) ∧
      (∀ r ∈ records, r.agentId = agentId ∧ r.status = .pending) ∧
      records.Pairwise (fun r r' => r.createdAt ≤ r'.createdAt) ∧
      ((∃ body, listProposals p api t agentId authorization = .records body) ↔
        ∀ r ∈ records, ((p.arguments r.arguments).any fun arguments => arguments.all plainNode) = true) ∧
      (listProposals p api t agentId authorization = .raised ∨
        ∃ body entries, listProposals p api t agentId authorization = .records body ∧ Json.loads body = some (.list entries) ∧
          List.Forall₂ (Reads p) records entries) := by
  have hstored := Proposals.Columns.reached_stored hdb
  obtain ⟨records, hrecords, hmap⟩ := Proposals.Columns.listPending_rows hstored (some agentId)
  have hlist : listProposals p api t agentId authorization =
      ((records.mapM (modelDump p)).bind fun dumped => render (.list dumped)).elim .raised .records := by
    rw [Proposals.Columns.listPending_refines ht] at hrecords
    simp only [listProposals, hv, hstore, hcodec, hrecords, Bool.not_true, Bool.false_eq_true, if_false, Option.bind_some]
    cases (records.mapM (modelDump p)).bind fun dumped => render (.list dumped) <;> rfl
  have hpending := listed_pending hstored hmap
  refine ⟨records, ?_, hpending, Proposals.Columns.listed_sorted hstored hmap, ?_, ?_⟩
  · rw [hmap]
    exact (List.mergeSort_perm _ _).map _
  · rw [← body_of_records p records, hlist]
    cases (records.mapM (modelDump p)).bind fun dumped => render (.list dumped) with
    | none => simp
    | some body => simp
  · rw [hlist]
    cases hrendered : (records.mapM (modelDump p)).bind fun dumped => render (.list dumped) with
    | none => exact Or.inl rfl
    | some body =>
      obtain ⟨entries, hloads, hreads⟩ := reads_body (fun r hr => (hpending r hr).2) hrendered
      exact Or.inr ⟨body, entries, rfl, hloads, hreads⟩

/-! Pydantic in JSON mode, as far as it does not raise: a float that is not finite becomes
    `null`, and a datetime in UTC ends with `Z`. -/

mutual

def jsonMode : Json → Json
  | .float x => if x.isFinite then .float x else .null
  | .list vs => .list (jsonElems vs)
  | .obj ms => .obj (jsonMembers ms)
  | .null => .null
  | .bool b => .bool b
  | .int i => .int i
  | .str s => .str s

def jsonElems : List Json → List Json
  | [] => []
  | v :: vs => jsonMode v :: jsonElems vs

def jsonMembers : List (Text × Json) → List (Text × Json)
  | [] => []
  | (k, v) :: ms => (k, jsonMode v) :: jsonMembers ms

end

mutual

theorem jsonMode_finite : (v : Json) → v.all Json.finiteFloat = true → jsonMode v = v
  | .null, _ | .bool _, _ | .int _, _ | .str _, _ => rfl
  | .float x, h => by
    have hx : x.isFinite = true := h
    rw [jsonMode, if_pos hx]
  | .list vs, h => by rw [jsonMode, jsonElems_finite vs h]
  | .obj ms, h => by rw [jsonMode, jsonMembers_finite ms h]

theorem jsonElems_finite : (vs : List Json) → Json.allElems Json.finiteFloat vs = true → jsonElems vs = vs
  | [], _ => rfl
  | v :: vs, h => by
    rw [Json.allElems, Bool.and_eq_true] at h
    rw [jsonElems, jsonMode_finite v h.1, jsonElems_finite vs h.2]

theorem jsonMembers_finite : (ms : List (Text × Json)) → Json.allMembers Json.finiteFloat ms = true → jsonMembers ms = ms
  | [], _ => rfl
  | (k, v) :: ms, h => by
    rw [Json.allMembers, Bool.and_eq_true] at h
    rw [jsonMembers, jsonMode_finite v h.1, jsonMembers_finite ms h.2]

end

def demoPydantic : Pydantic where
  arguments arguments := some (jsonMode (.obj arguments))
  datetime t := String.ofList ((Calendar.isoformat t).take ((Calendar.isoformat t).length - 6) ++ ['Z'])

theorem demoPydantic_proposable {arguments : Arguments} (h : Proposable arguments) :
    demoPydantic.arguments arguments = some (.obj arguments) :=
  congrArg some (jsonMode_finite _ h.numbers)

/-- How many entries an answer has. -/
def Listed.entries : Listed → Option Nat
  | .records body =>
    match Json.loads body with
    | some (.list es) => some es.length
    | _ => none
  | _ => none

def retag : Arguments :=
  [(Text.ofString "media", .str (Text.ofString "m-7")),
    (Text.ofString "tags", .list [.str (Text.ofString "été"), .bool true, .null]), (Text.ofString "rank", .int (-3))]

def remove : Arguments := [(Text.ofString "media", .str (Text.ofString "m-2"))]

/-- Two proposals of one agent; the clock was set back a day before the second one. -/
def twoPending : Option Table :=
  (Proposals.add pythonCodec (Keyed.empty Row.id) "q" 63915264000000123 "media-curator" "r2" "retag_media" retag "wrong").bind
    fun a => (Proposals.add pythonCodec a.1 "p" 63915177600000000 "media-curator" "r1" "delete_media" remove "unused").map (·.1)

def twoBody : String :=
  "[\x7b\"id\":\"p\",\"agent_id\":\"media-curator\",\"run_id\":\"r1\",\"action\":\"delete_media\",\"arguments\":\x7b\"media\":\"m-2\"\x7d," ++
    "\"rationale\":\"unused\",\"status\":\"pending\",\"created_at\":\"2026-05-24T00:00:00Z\",\"error\":null\x7d," ++
    "\x7b\"id\":\"q\",\"agent_id\":\"media-curator\",\"run_id\":\"r2\",\"action\":\"retag_media\"," ++
    "\"arguments\":\x7b\"media\":\"m-7\",\"tags\":[\"été\",true,null],\"rank\":-3\x7d," ++
    "\"rationale\":\"wrong\",\"status\":\"pending\",\"created_at\":\"2026-05-25T00:00:00.000123Z\",\"error\":null\x7d]"

theorem mergeSort_pair {α : Type} (le : α → α → Bool) (a b : α) : [a, b].mergeSort le = if le a b then [a, b] else [b, a] := by
  rw [List.mergeSort]
  simp [List.MergeSort.Internal.splitInTwo, List.merge]

def retagRow : Row :=
  ⟨"q", "media-curator", "r2", "retag_media",
    "\x7b\"media\": \"m-7\", \"tags\": [\"\\u00e9t\\u00e9\", true, null], \"rank\": -3\x7d", "wrong", .pending,
    "2026-05-25T00:00:00.000123+00:00", none⟩

def removeRow : Row :=
  ⟨"p", "media-curator", "r1", "delete_media", "\x7b\"media\": \"m-2\"\x7d", "unused", .pending, "2026-05-24T00:00:00+00:00", none⟩

theorem twoPending_rows : twoPending.map (·.rows) = some [retagRow, removeRow] := by decide +kernel

theorem listed_two {t : Table} (h : t.rows = [retagRow, removeRow]) :
    listProposals demoPydantic Verbatim.demo.app t "media-curator" (some "Bearer t") = .records twoBody.toList := by
  have hsorted : Proposals.listPending pythonCodec t (some "media-curator") =
      [removeRow, retagRow].mapM (Proposals.rowToRecord pythonCodec) := by
    rw [Proposals.listPending, h]
    show ([retagRow, removeRow].mergeSort _).mapM _ = _
    rw [mergeSort_pair]
    rfl
  rw [listProposals, show Verbatim.demo.app.codec = pythonCodec from rfl, hsorted]
  decide +kernel

/-- Both are in the answer, the older one first. -/
theorem list_answered_two :
    ∃ db t records entries, Proposals.Columns.Reached db ∧ Proposals.Columns.Represents db t ∧
      listProposals demoPydantic Verbatim.demo.app t "media-curator" (some "Bearer t") = .records twoBody.toList ∧
      Json.loads twoBody.toList = some (.list entries) ∧ entries.length = 2 ∧ List.Forall₂ (Reads demoPydantic) records entries := by
  have hempty : Proposals.Columns.Represents (Keyed.empty _) (Keyed.empty Row.id) := rfl
  have hv : Triggers.Api.verifyToken Verbatim.demo.app (some "Bearer t") = true := by decide
  have hretag : (Json.obj retag).all Json.shortInt = true := rfl
  have hremove : (Json.obj remove).all Json.shortInt = true := rfl
  have htwo : (Listed.records twoBody.toList).entries = some 2 := by decide +kernel
  obtain ⟨t, ht, hrows⟩ := Option.map_eq_some_iff.mp twoPending_rows
  have hbody := listed_two hrows
  obtain ⟨⟨t₁, r₁⟩, ha₁, ht⟩ := Option.bind_eq_some_iff.mp ht
  obtain ⟨⟨t₂, r₂⟩, ha₂, e⟩ := Option.map_eq_some_iff.mp ht
  subst e
  obtain ⟨db₁, hadd₁, hrep₁⟩ := Proposals.Columns.add_represented hempty ⟨63915264000000123, by decide⟩ hretag ha₁
  obtain ⟨db₂, hadd₂, hrep₂⟩ := Proposals.Columns.add_represented hrep₁ ⟨63915177600000000, by decide⟩ hremove ha₂
  have hdb := (Proposals.Columns.Reached.init.add hadd₁).add hadd₂
  obtain ⟨records, -, -, -, -, hanswer⟩ := list_answered_iff demoPydantic hdb hrep₂ rfl rfl hv "media-curator"
  rcases hanswer with hraised | ⟨body, entries, hb, hloads, hreads⟩
  · cases hraised.symm.trans hbody
  · rw [Listed.records.inj (hb.symm.trans hbody)] at hloads
    rw [Listed.entries, hloads] at htwo
    exact ⟨db₂, t₂, records, entries, hdb, hrep₂, hbody, hloads, Option.some.inj htwo, hreads⟩

def surrogateRow : Row :=
  ⟨"p", "event-deduplicator", "r", "retag", "\x7b\"title\": \"\\ud83d\"\x7d", "why", .pending, "2026-05-25T00:00:00.000123+00:00",
    none⟩

/-- One pending proposal with a lone surrogate in its arguments: its agent's list is a bare
    500, and another agent's is answered. -/
theorem surrogate_takes_list :
    listProposals demoPydantic Verbatim.demo.app (Keyed.empty Row.id |>.set surrogateRow) "event-deduplicator" (some "Bearer t") =
        .raised ∧
      listProposals demoPydantic Verbatim.demo.app (Keyed.empty Row.id |>.set surrogateRow) "media-curator" (some "Bearer t") =
        .records "[]".toList := by
  decide +kernel

/-! ## What is shown is what is invoked -/

/-- The entry shows what run `r` has proposed, under the id it was stored with. -/
structure Shows (e : Json) (o : System.Origin Arguments) (r : Runtime.Runner.RunState Arguments) : Prop where
  id : field "id" e = some (text o.proposalId)
  agent : field "agent_id" e = some (text r.definition.id)
  run : field "run_id" e = some (text r.runId)
  action : field "action" e = some (text o.proposed.action)
  arguments : Proposable o.proposed.arguments → field "arguments" e = some (.obj o.proposed.arguments)
  rationale : field "rationale" e = some (text o.proposed.rationale)

theorem shows_entry {p : Pydantic} (hp : ∀ arguments, Proposable arguments → p.arguments arguments = some (.obj arguments))
    {lives : List (Life Arguments Val Out)} (hc : ∀ ℓ ∈ lives, ℓ.wiring.app.codec = pythonCodec) {row : Row}
    {record : ProposalRecord Arguments} (hread : ReadFrom lives row record) {o : System.Origin Arguments}
    {r : Runtime.Runner.RunState Arguments} (hof : RowOf pythonCodec r o row) {arguments : Json}
    (ha : p.arguments record.arguments = some arguments) : Shows (entry p record (Json.reread responseStyle arguments)) o r := by
  refine ⟨?_, ?_, ?_, ?_, fun hprop => ?_, ?_⟩
  · rw [entry_id, hread.id, hof.id]
  · rw [entry_agent, hread.agent, hof.agent]
  · rw [entry_run, hread.run, hof.run]
  · rw [entry_action, hread.action, hof.action]
  · obtain ⟨ℓ, hℓ, hloads⟩ := hread.arguments
    rw [hc ℓ hℓ, hof.arguments] at hloads
    have e := Verbatim.codec_reads hprop hloads
    rw [e, hp _ hprop] at ha
    cases ha
    rw [entry_arguments, reread_proposable _ hprop]
  · rw [entry_rationale, hread.rationale, hof.rationale]

/-- A call for the proposal of this row is for what the row says. -/
theorem call_of_row {s : Restarts.St Arguments Val Out} (hs : Restarts.Inv s ∧ Restarts.Past s)
    (hc : ∀ ℓ ∈ s.lives, ℓ.wiring.app.codec = pythonCodec) {row : Row} (hrow : row ∈ s.table.rows) {o : System.Origin Arguments}
    {r : Runtime.Runner.RunState Arguments} (hof : RowOf pythonCodec r o row) {ℓ' : Life Arguments Val Out} (hℓ' : ℓ' ∈ s.lives)
    {c : Triggers.Api.Call Arguments} (hcall : c ∈ ℓ'.system.api.calls) (hid : c.proposalId = o.proposalId) :
    c.action = o.proposed.action ∧ (Proposable o.proposed.arguments → c.arguments = o.proposed.arguments) := by
  obtain ⟨j, hj⟩ := List.mem_iff_getElem?.mp hℓ'
  obtain ⟨-, -, -, -, -, -, k, -, ℓ, o', r', hk, hst, hpid, -, haction, hloads⟩ := Restarts.called_of hs hj hcall
  have hℓ := List.mem_of_getElem? hk
  obtain ⟨r'', -, row', hrow', hof'⟩ := hs.1.lasting ℓ hℓ o' hst.origin
  rw [hc ℓ hℓ] at hof' hloads
  rw [hc ℓ' hℓ'] at hloads
  -- one row has the id, so both proposals have its texts
  have e : row' = row := Keyed.unique hrow' hrow (by rw [hof'.id, hof.id, hpid, hid])
  rw [e] at hof'
  refine ⟨by rw [haction, ← hof'.action, hof.action], fun hprop => ?_⟩
  rw [← hof'.arguments, hof.arguments] at hloads
  exact Verbatim.codec_reads hprop hloads

/-- Every entry of an answer shows a stored proposal, and what is invoked for its id, in
    any life, is its action with its arguments. -/
theorem shown_is_invoked {p : Pydantic}
    (hp : ∀ arguments, Proposable arguments → p.arguments arguments = some (.obj arguments))
    {w : System.Wiring Arguments Val Out} {ok : St Val Out → Ev Val Out → Prop} {s : St Val Out} (h : Run (step p) ok (init w) s)
    (hc : ∀ ℓ ∈ s.service.lives, ℓ.wiring.app.codec = pythonCodec) {body : List Char} (hb : .records body ∈ s.listed) :
    ∃ entries, Json.loads body = some (.list entries) ∧ ∀ e ∈ entries, ∃ ℓ ∈ s.service.lives, ∃ o r, Stored ℓ o r ∧
      Shows e o r ∧ ∀ ℓ' ∈ s.service.lives, ∀ c ∈ ℓ'.system.api.calls, c.proposalId = o.proposalId →
        c.action = o.proposed.action ∧ (Proposable o.proposed.arguments → c.arguments = o.proposed.arguments) := by
  have hinv := Restarts.past_run (service_run h)
  obtain ⟨records, dumped, hdumped, hrender, hread⟩ := shown_run h body hb
  obtain ⟨hloads, hentries⟩ := read_entries hdumped hrender
  refine ⟨_, hloads, fun e he => ?_⟩
  obtain ⟨record, hrecord, arguments, ha, e'⟩ := forall₂_from hentries he
  obtain ⟨row, hrow, hfrom⟩ := hread record hrecord
  obtain ⟨ℓ, hℓ, o, r, hst, hof⟩ := hinv.1.backed row hrow
  rw [hc ℓ hℓ] at hof
  refine ⟨ℓ, hℓ, o, r, hst, by rw [e']; exact shows_entry hp hc hfrom hof ha, fun ℓ' hℓ' c hcall hid => ?_⟩
  exact call_of_row hinv hc hrow hof hℓ' hcall hid

/-! A proposal is listed, the service is started again without agents, and then the
    proposal is approved. -/

def withoutAgents : System.Wiring Arguments Unit Unit :=
  { Verbatim.demo with definitions := Keyed.ofList Config.AgentDefinition.id [] }

def reviews : List (Ev Unit Unit) :=
  (Verbatim.demoRun.take 5).map (.service ∘ .step) ++
    [.list "event-deduplicator" (some "Bearer t"), .service (.restart withoutAgents)] ++
      (Verbatim.demoRun.drop 5).map (.service ∘ .step)

/-- Every life is of a wiring that the service was started with. -/
theorem lives_started {p : Pydantic} {P : System.Wiring Arguments Val Out → Prop} {es : List (Ev Val Out)} {s t : St Val Out}
    (h : exec (step p) (fun _ _ => True) s es = some t) (hs : ∀ ℓ ∈ s.service.lives, P ℓ.wiring)
    (hes : ∀ w, .service (.restart w) ∈ es → P w) : ∀ ℓ ∈ t.service.lives, P ℓ.wiring := by
  induction es generalizing s with
  | nil =>
    cases h
    exact hs
  | cons e es ih =>
    simp only [exec, if_true] at h
    obtain ⟨u, hu, h⟩ := Option.bind_eq_some_iff.mp h
    refine ih h (fun ℓ hℓ => ?_) fun w hw => hes w (List.mem_cons_of_mem _ hw)
    cases e with
    | list agentId authorization =>
      cases hu
      exact hs ℓ hℓ
    | service e =>
      obtain ⟨v, hv, e'⟩ := Option.map_eq_some_iff.mp hu
      subst e'
      cases e with
      | step e =>
        obtain ⟨system, -, e'⟩ := Option.map_eq_some_iff.mp hv
        subst e'
        rcases List.mem_append.mp hℓ with hℓ | hℓ
        · exact hs ℓ (List.mem_append_left _ hℓ)
        · rw [List.mem_singleton.mp hℓ]
          exact hs s.service.life (List.mem_append_right _ List.mem_cons_self)
      | restart w =>
        cases hv
        rcases List.mem_append.mp hℓ with hℓ | hℓ
        · exact hs ℓ hℓ
        · rw [List.mem_singleton.mp hℓ]
          exact hes w List.mem_cons_self

theorem reviews_codec (w : System.Wiring Arguments Unit Unit) (h : .service (.restart w) ∈ reviews) :
    w.app.codec = pythonCodec := by
  simp only [reviews, Verbatim.demoRun, List.take, List.drop, List.map_cons, List.map_nil, Function.comp_apply,
    List.cons_append, List.nil_append, List.mem_cons, List.not_mem_nil, or_false, Ev.service.injEq, reduceCtorEq, false_or,
    Restarts.Ev.restart.injEq] at h
  rw [h]
  rfl

theorem entries_one {l : Listed} (h : l.entries = some 1) :
    ∃ body e, l = .records body ∧ Json.loads body = some (.list [e]) := by
  cases l with
  | records body =>
    simp only [Listed.entries] at h
    split at h
    · rename_i es hl
      obtain ⟨e, he⟩ := List.length_eq_one_iff.mp (Option.some.inj h)
      exact ⟨body, e, rfl, by rw [hl, he]⟩
    · cases h
  | _ => cases h

/-- What the list has shown is invoked, in the next life. -/
theorem shown_is_invoked_later :
    ∃ s, Run (step demoPydantic) (fun _ _ => True) (init Verbatim.demo) s ∧ s.service.past.length = 1 ∧
      ∃ body e c, .records body ∈ s.listed ∧ Json.loads body = some (.list [e]) ∧ s.service.life.system.api.calls = [c] ∧
        c.proposalId = "p" ∧ ∃ o r, Shows e o r ∧ (c.proposalId = o.proposalId →
          c.action = o.proposed.action ∧ (Proposable o.proposed.arguments → c.arguments = o.proposed.arguments)) := by
  obtain ⟨s, he, hp⟩ := (Option.any_eq_true _ _).mp
    (by decide +kernel : (exec (step demoPydantic) (fun _ _ => True) (init Verbatim.demo) reviews).any (fun s =>
      s.service.past.length == 1 && s.listed.any (fun l => l.entries == some 1) &&
        s.service.life.system.api.calls.map (·.proposalId) == ["p"]) = true)
  simp only [Bool.and_eq_true, beq_iff_eq, List.any_eq_true, List.map_eq_singleton_iff] at hp
  obtain ⟨⟨hlen, answer, hanswer, hone⟩, c, hcalls, hid⟩ := hp
  have hinit : ∀ ℓ ∈ (init Verbatim.demo : St Unit Unit).service.lives, ℓ.wiring.app.codec = pythonCodec := by
    intro ℓ hℓ
    rw [List.mem_singleton.mp hℓ]
    rfl
  have hc := lives_started (P := fun w => w.app.codec = pythonCodec) he hinit reviews_codec
  obtain ⟨body, e, hbody, hread⟩ := entries_one hone
  rw [hbody] at hanswer
  obtain ⟨entries, hloads, hall⟩ := shown_is_invoked (fun _ => demoPydantic_proposable) (Run.of_exec he) hc hanswer
  rw [hread] at hloads
  cases hloads
  obtain ⟨-, -, o, r, -, hshows, hinvoked⟩ := hall e List.mem_cons_self
  refine ⟨s, Run.of_exec he, hlen, body, e, c, hanswer, hread, hcalls, hid, o, r, hshows, ?_⟩
  exact hinvoked s.service.life (List.mem_append_right _ List.mem_cons_self) c (by rw [hcalls]; exact List.mem_cons_self)

end SagaAgents.Reviewed
