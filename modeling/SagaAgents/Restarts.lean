/-
  SagaAgents.Restarts — the service is stopped and started again, on one database file.

  A life is the system of `System` from one start of the process to its end, which may come
  at any point: with it the runs and the handlers are gone, and what has been committed
  stays. The next life finds the table as it is (`init` creates it only if there is none).
  Its configuration may be another one: other definitions, another token.

  Proved, over any number of lives:
  - `table_is_ledger`: the table has exactly one row for each proposal that was stored in
    any life, with the agent, the run, the action, the arguments and the rationale of that
    time, and no other rows.
  - `approved_in_some_life`: what an approve handler invokes was proposed and stored by a
    run of a proposal-mode agent, in its own life or an earlier one; the request has the
    token of its own life, and the record was pending. The agent need not exist any more
    (`approved_after_removal`).
-/

import SagaAgents.System

namespace SagaAgents.Restarts

open Lib
open Proposals (Codec ProposalRecord Row Table rowToRecord)
open Runtime.Runner (RunState)
open SagaAgents.System (Grow Origin RunOk Wiring)

variable {Args Val Out : Type}

structure Life (Args Val Out : Type) where
  wiring : Wiring Args Val Out
  system : System.St Args Val Out

structure St (Args Val Out : Type) where
  past : List (Life Args Val Out)
  life : Life Args Val Out

inductive Ev (Args Val Out : Type) where
  | step (e : System.Ev Args Val)
  | restart (w : Wiring Args Val Out)

def St.lives (s : St Args Val Out) : List (Life Args Val Out) := s.past ++ [s.life]

/-- The service starts, and finds this table. -/
def Life.on (w : Wiring Args Val Out) (table : Table) : Life Args Val Out :=
  ⟨w, [], Triggers.Api.init table, [], [], []⟩

def init (w : Wiring Args Val Out) : St Args Val Out := ⟨[], .on w (Keyed.empty Row.id)⟩

def step (s : St Args Val Out) : Ev Args Val Out → Option (St Args Val Out)
  | .step e => (System.step s.life.wiring s.life.system e).map fun t => { s with life := { s.life with system := t } }
  | .restart w => some ⟨s.lives, .on w s.life.system.api.table⟩

def St.table (s : St Args Val Out) : Table := s.life.system.api.table

/-! ## Proposals and their rows -/

/-- Run `r` of this life has stored proposal `o`, with the values a `propose` call of it was
    given. -/
structure Stored (ℓ : Life Args Val Out) (o : Origin Args) (r : RunState Args) : Prop where
  origin : o ∈ ℓ.system.origins
  run : ℓ.system.runs[o.run]? = some r
  definition : ℓ.wiring.definitions.get r.definition.id = some r.definition
  mode : r.definition.autonomy = .proposal
  proposed : o.proposed ∈ r.proposals
  given : ⟨o.run, o.proposed.action, o.proposed.arguments, o.proposed.rationale⟩ ∈ ℓ.system.proposeCalls

/-- The row of a proposal that was stored by `r`. -/
structure RowOf (c : Codec Args) (r : RunState Args) (o : Origin Args) (row : Row) : Prop where
  id : row.id = o.proposalId
  agent : row.agentId = r.definition.id
  run : row.runId = r.runId
  action : row.action = o.proposed.action
  arguments : row.arguments = c.dumps o.proposed.arguments
  rationale : row.rationale = o.proposed.rationale

def Backed (lives : List (Life Args Val Out)) (row : Row) : Prop :=
  ∃ ℓ ∈ lives, ∃ o r, Stored ℓ o r ∧ RowOf ℓ.wiring.app.codec r o row

/-- The rows differ in their status and their error at most. -/
def Same (row row' : Row) : Prop := row' = row.withStatus row'.status row'.error

structure Inv (s : St Args Val Out) : Prop where
  runs : ∀ r ∈ s.life.system.runs, RunOk s.life.wiring r
  given : System.Given s.life.system.runs s.life.system.proposeCalls
  backed : ∀ row ∈ s.table.rows, Backed s.lives row
  lasting : ∀ ℓ ∈ s.lives, ∀ o ∈ ℓ.system.origins, ∃ r, Stored ℓ o r ∧ ∃ row ∈ s.table.rows, RowOf ℓ.wiring.app.codec r o row
  once : (s.lives.flatMap fun ℓ => ℓ.system.origins.map (·.proposalId)).Nodup
  fetched : ∀ h ∈ s.life.system.api.handlers, ∀ record, h.fetched = some record →
    ∃ row, Backed s.lives row ∧ row.id = h.req.proposalId ∧ rowToRecord s.life.wiring.app.codec row = some record
  approved : Proposals.Approval.Approved s.life.wiring.app s.life.system.api

variable {s : St Args Val Out} {ℓ ℓ' : Life Args Val Out} {o : Origin Args} {r : RunState Args} {row row' : Row}

theorem same_refl (row : Row) : Same row row := rfl

theorem rowOf_same {c : Codec Args} (h : RowOf c r o row) (hs : Same row row') : RowOf c r o row' := by
  rw [Same] at hs
  rw [hs]
  exact ⟨h.id, h.agent, h.run, h.action, h.arguments, h.rationale⟩

/-- The life has gone on. -/
structure Grown (ℓ ℓ' : Life Args Val Out) : Prop where
  wiring : ℓ'.wiring = ℓ.wiring
  runs : Grow ℓ.system.runs ℓ'.system.runs
  proposeCalls : ∀ c ∈ ℓ.system.proposeCalls, c ∈ ℓ'.system.proposeCalls
  origins : ∀ o ∈ ℓ.system.origins, o ∈ ℓ'.system.origins

/-- What a run has stored it goes on having stored. -/
theorem stored_grown (hg : Grown ℓ ℓ') (h : Stored ℓ o r) :
    ∃ r', Stored ℓ' o r' ∧ ∀ c row, RowOf c r o row → RowOf c r' o row := by
  obtain ⟨r', hr', hgr⟩ := hg.runs _ r h.run
  refine ⟨r', ⟨hg.origins o h.origin, hr', ?_, ?_, System.mem_grown hgr h.proposed, hg.proposeCalls _ h.given⟩,
    fun c row hrow => ?_⟩
  · rw [hg.wiring, hgr.definition]
    exact h.definition
  · rw [hgr.definition]
    exact h.mode
  · exact ⟨hrow.id, by rw [hgr.definition]; exact hrow.agent, by rw [hgr.runId]; exact hrow.run, hrow.action,
      hrow.arguments, hrow.rationale⟩

theorem backed_grown {past : List (Life Args Val Out)} (hg : Grown ℓ ℓ') (h : Backed (past ++ [ℓ]) row) :
    Backed (past ++ [ℓ']) row := by
  obtain ⟨m, hm, o, r, hs, hrow⟩ := h
  rcases List.mem_append.mp hm with hm | hm
  · exact ⟨m, List.mem_append_left _ hm, o, r, hs, hrow⟩
  · rw [List.mem_singleton.mp hm] at hs hrow
    obtain ⟨r', hs', hkeep⟩ := stored_grown hg hs
    exact ⟨ℓ', List.mem_append_right _ List.mem_cons_self, o, r', hs', by rw [hg.wiring]; exact hkeep _ _ hrow⟩

theorem backed_same {lives : List (Life Args Val Out)} (h : Backed lives row) (hs : Same row row') : Backed lives row' := by
  obtain ⟨ℓ, hℓ, o, r, hst, hrow⟩ := h
  exact ⟨ℓ, hℓ, o, r, hst, rowOf_same hrow hs⟩

/-! ## A step of the current life -/

/-- Runs go on, rows are updated and read; no row is added. -/
theorem inv_goes (hs : Inv s) {t : System.St Args Val Out} (hruns : Grow s.life.system.runs t.runs)
    (hok : ∀ r ∈ t.runs, RunOk s.life.wiring r) (hgiven : System.Given t.runs t.proposeCalls)
    (hcalls : ∀ c ∈ s.life.system.proposeCalls, c ∈ t.proposeCalls) (horigins : t.origins = s.life.system.origins)
    (hto : ∀ row ∈ s.table.rows, ∃ row' ∈ t.api.table.rows, Same row row')
    (hof : ∀ row' ∈ t.api.table.rows, ∃ row ∈ s.table.rows, Same row row')
    (hfetched : ∀ h ∈ t.api.handlers, ∀ record, h.fetched = some record →
      (∃ h' ∈ s.life.system.api.handlers, h'.fetched = some record ∧ h'.req = h.req) ∨
        ∃ row ∈ s.table.rows, row.id = h.req.proposalId ∧ rowToRecord s.life.wiring.app.codec row = some record)
    (happ : Proposals.Approval.Approved s.life.wiring.app t.api) : Inv { s with life := { s.life with system := t } } := by
  have hg : Grown s.life { s.life with system := t } := ⟨rfl, hruns, hcalls, fun o ho => by rw [horigins]; exact ho⟩
  refine ⟨hok, hgiven, fun row' hrow' => ?_, fun m hm o ho => ?_, ?_, fun h hh record hf => ?_, happ⟩
  · obtain ⟨row, hrow, hsame⟩ := hof row' hrow'
    exact backed_same (backed_grown hg (hs.backed row hrow)) hsame
  · have hold : ∃ m' ∈ s.lives, o ∈ m'.system.origins ∧ (∀ r row, Stored m' o r ∧ RowOf m'.wiring.app.codec r o row →
        ∃ r', Stored m o r' ∧ RowOf m.wiring.app.codec r' o row) := by
      rcases List.mem_append.mp hm with hm | hm
      · exact ⟨m, List.mem_append_left _ hm, ho, fun r row h => ⟨r, h⟩⟩
      · rw [List.mem_singleton.mp hm] at ho ⊢
        refine ⟨s.life, List.mem_append_right _ List.mem_cons_self, by rw [← horigins]; exact ho, fun r row h => ?_⟩
        obtain ⟨r', hs', hkeep⟩ := stored_grown hg h.1
        exact ⟨r', hs', hkeep _ _ h.2⟩
    obtain ⟨m', hm', ho', hnew⟩ := hold
    obtain ⟨r, hst, row, hrow, hof'⟩ := hs.lasting m' hm' o ho'
    obtain ⟨row', hrow', hsame⟩ := hto row hrow
    obtain ⟨r', hst', hof''⟩ := hnew r row ⟨hst, hof'⟩
    exact ⟨r', hst', row', hrow', rowOf_same hof'' hsame⟩
  · have hsame : (St.lives { s with life := { s.life with system := t } }).flatMap (fun ℓ => ℓ.system.origins.map (·.proposalId)) =
        s.lives.flatMap fun ℓ => ℓ.system.origins.map (·.proposalId) := by
      simp [St.lives, horigins]
    rw [hsame]
    exact hs.once
  · rcases hfetched h hh record hf with ⟨h', hh', hf', hreq⟩ | ⟨row, hrow, hid, hdec⟩
    · obtain ⟨row, hb, hid, hdec⟩ := hs.fetched h' hh' record hf'
      exact ⟨row, backed_grown hg hb, by rw [hid, hreq], hdec⟩
    · exact ⟨row, backed_grown hg (hs.backed row hrow), hid, hdec⟩

theorem inv_runs (hs : Inv s) {runs : List (RunState Args)} (hg : Grow s.life.system.runs runs)
    (hok : ∀ r ∈ runs, RunOk s.life.wiring r) (tools : List (System.ToolCall Args)) {calls : List (System.ProposeCall Args)}
    (hcalls : ∀ c ∈ s.life.system.proposeCalls, c ∈ calls) (hgiven : System.Given runs calls) :
    Inv { s with life := { s.life with
      system := { s.life.system with runs := runs, toolCalls := tools, proposeCalls := calls } } } :=
  inv_goes hs hg hok hgiven hcalls rfl (fun row hrow => ⟨row, hrow, same_refl row⟩) (fun row hrow => ⟨row, hrow, same_refl row⟩)
    (fun h hh _ hf => Or.inl ⟨h, hh, hf, rfl⟩) hs.approved

theorem stored_id_in_table (hs : Inv s) {id : String} (h : id ∈ s.lives.flatMap fun ℓ => ℓ.system.origins.map (·.proposalId)) :
    ∃ row ∈ s.table.rows, row.id = id := by
  obtain ⟨ℓ, hℓ, ho⟩ := List.mem_flatMap.mp h
  obtain ⟨o, ho, e⟩ := List.mem_map.mp ho
  obtain ⟨r, -, row, hrow, hof⟩ := hs.lasting ℓ hℓ o ho
  exact ⟨row, hrow, hof.id.trans e⟩

/-- A run of the current life has stored a proposal under a new id. -/
theorem inv_row (hs : Inv s) (hfresh : s.table.get row.id = none) (hr : s.life.system.runs[o.run]? = some r)
    (hmode : r.definition.autonomy = .proposal) (hmem : o.proposed ∈ r.proposals)
    (hrow : RowOf s.life.wiring.app.codec r o row) :
    Inv { s with life := { s.life with system := { s.life.system with
      api := { s.life.system.api with table := s.table.set row }, origins := s.life.system.origins ++ [o] } } } := by
  have hg : Grown s.life { s.life with system := { s.life.system with
      api := { s.life.system.api with table := s.table.set row }, origins := s.life.system.origins ++ [o] } } :=
    ⟨rfl, System.grow_refl _, fun _ hc => hc, fun o' ho => List.mem_append_left _ ho⟩
  have hrows : (s.table.set row).rows = s.table.rows ++ [row] := Keyed.set_fresh (Keyed.get_none.mp hfresh)
  have hkept : ∀ old ∈ s.table.rows, old ∈ (s.table.set row).rows := by
    intro old hold
    rw [hrows]
    exact List.mem_append_left _ hold
  have hnew : Stored { s.life with system := { s.life.system with
      api := { s.life.system.api with table := s.table.set row }, origins := s.life.system.origins ++ [o] } } o r :=
    ⟨List.mem_append_right _ List.mem_cons_self, hr, (hs.runs r (List.mem_of_getElem? hr)).1, hmode, hmem,
      hs.given o.run r hr o.proposed hmem⟩
  refine ⟨hs.runs, hs.given, ?_, ?_, ?_, ?_, hs.approved⟩
  · intro row' hm
    rcases Keyed.mem_set hm with e | hm
    · rw [e]
      exact ⟨_, List.mem_append_right _ List.mem_cons_self, o, r, hnew, hrow⟩
    · exact backed_grown hg (hs.backed row' hm)
  · intro m hm o' ho
    rcases List.mem_append.mp hm with hm | hm
    · obtain ⟨r', hst, old, hold, hof⟩ := hs.lasting m (List.mem_append_left _ hm) o' ho
      exact ⟨r', hst, old, hkept old hold, hof⟩
    · rw [List.mem_singleton.mp hm] at ho ⊢
      rcases List.mem_append.mp ho with ho | ho
      · obtain ⟨r', hst, old, hold, hof⟩ := hs.lasting s.life (List.mem_append_right _ List.mem_cons_self) o' ho
        obtain ⟨r'', hst', hkeep⟩ := stored_grown hg hst
        exact ⟨r'', hst', old, hkept old hold, hkeep _ _ hof⟩
      · rw [List.mem_singleton.mp ho]
        exact ⟨r, hnew, row, (by rw [St.table, hrows]; exact List.mem_append_right _ List.mem_cons_self), hrow⟩
  · -- a row of every earlier proposal is in the table, so its id is another one
    have hids : (St.lives { s with life := { s.life with system := { s.life.system with
        api := { s.life.system.api with table := s.table.set row }, origins := s.life.system.origins ++ [o] } } }).flatMap
          (fun ℓ => ℓ.system.origins.map (·.proposalId)) =
        (s.lives.flatMap fun ℓ => ℓ.system.origins.map (·.proposalId)) ++ [o.proposalId] := by
      simp [St.lives]
    rw [hids]
    refine List.nodup_append.mpr ⟨hs.once, List.nodup_singleton _, fun a ha b hb e => ?_⟩
    obtain ⟨old, hold, hid⟩ := stored_id_in_table hs ha
    have hget := Keyed.get_of_mem hold
    rw [hid, e, List.mem_singleton.mp hb, ← hrow.id, hfresh] at hget
    cases hget
  · intro h hh record hf
    obtain ⟨row', hb, hid, hdec⟩ := hs.fetched h hh record hf
    exact ⟨row', backed_grown hg hb, hid, hdec⟩

theorem inv_add (hs : Inv s) {i : Nat} {id : String} {now : Proposals.Instant} {r r' : RunState Args} {t : System.St Args Val Out}
    {m : Runtime.Runner.Move Args} (hr : s.life.system.runs[i]? = some r) (hafter : System.afterAdd m = true)
    (hadv : Runtime.Runner.advance s.life.wiring.runner r m = some r') (h : System.addNext s.life.wiring s.life.system i id now r r' = some t) :
    Inv { s with life := { s.life with system := t } } := by
  have hg := Runtime.Runner.advance_grows hadv
  have hgiven := System.given_move hs.given hr hadv
  rw [System.afterAdd_silent hafter, List.append_nil] at hgiven
  unfold System.addNext at h
  split at h
  case h_2 => cases h
  obtain ⟨p, hk, h⟩ := Option.bind_eq_some_iff.mp h
  obtain ⟨⟨table, record⟩, hadd, e⟩ := Option.map_eq_some_iff.mp h
  obtain ⟨hfresh, htable, hid, hagent, hrun, haction, harguments, hrationale, -⟩ := Proposals.add_cases hadd
  have hmem := List.mem_of_getElem? hk
  have hok := hs.runs r (List.mem_of_getElem? hr)
  have hi := inv_runs hs (System.grow_set hr hg) (fun q hq => ?_) s.life.system.toolCalls (fun _ hc => hc) hgiven
  · subst e
    rw [htable]
    have hrow : RowOf s.life.wiring.app.codec r' ⟨id, i, p⟩ (Proposals.recordToRow s.life.wiring.app.codec record) := by
      refine ⟨hid, ?_, ?_, haction, ?_, hrationale⟩
      · rw [hg.definition]
        exact hagent
      · rw [hg.runId]
        exact hrun
      · show s.life.wiring.app.codec.dumps record.arguments = _
        rw [harguments]
    refine inv_row hi ?_ (Tasks.get_moved hr) ?_ (System.mem_grown hg hmem) hrow
    · show s.life.system.api.table.get record.id = none
      rw [hid]
      exact hfresh
    · rw [hg.definition]
      exact hok.2 (List.ne_nil_of_mem hmem)
  · rcases List.mem_or_eq_of_mem_set hq with hq | e
    · exact hs.runs q hq
    · rw [e]
      exact System.runOk_grows hok hg

/-- An UPDATE leaves every row, but for its status and its error. -/
theorem setStatus_to (t : Table) (pid : String) (status : Proposals.Status) (error : Option String) (h : row ∈ t.rows) :
    ∃ row' ∈ (Proposals.setStatus t pid status error).2.rows, Same row row' := by
  have hget := Keyed.get_of_mem h
  by_cases e : row.id = pid
  · rw [e] at hget
    exact ⟨_, (Keyed.get_some (Proposals.get_setStatus_same hget status error)).1, rfl⟩
  · rw [← Proposals.get_setStatus_ne e status error] at hget
    exact ⟨row, (Keyed.get_some hget).1, same_refl row⟩

theorem setStatus_of {t : Table} {pid : String} {status : Proposals.Status} {error : Option String}
    (h : row' ∈ (Proposals.setStatus t pid status error).2.rows) : ∃ row ∈ t.rows, Same row row' := by
  obtain ⟨old, hold, hid, hagent, hrun, haction, harguments, hrationale, hcreated⟩ := Proposals.setStatus_rows h
  refine ⟨old, hold, ?_⟩
  rw [Same, Row.withStatus, ← hid, ← hagent, ← hrun, ← haction, ← harguments, ← hrationale, ← hcreated]

theorem api_rows {app : Triggers.Api.App Args Val Out} {a b : Triggers.Api.St Args Val Out} {e : Triggers.Api.Ev Val}
    (h : Triggers.Api.step app a e = some b) (hrow : row ∈ a.table.rows) : ∃ row' ∈ b.table.rows, Same row row' := by
  rcases Triggers.Api.step_cases h with ⟨req, -, e⟩ | ⟨i, m, hd, f, -, hi, hadv, e⟩
  · subst e
    exact ⟨row, hrow, same_refl row⟩
  · subst e
    show ∃ row' ∈ f.table.rows, Same row row'
    rcases hadv.table with e | ⟨d, -, e⟩
    · rw [e]
      exact ⟨row, hrow, same_refl row⟩
    · rw [e]
      exact setStatus_to _ _ _ _ hrow

theorem inv_api (hs : Inv s) {e : Triggers.Api.Ev Val} {api : Triggers.Api.St Args Val Out}
    (h : Triggers.Api.step s.life.wiring.app s.life.system.api e = some api) :
    Inv { s with life := { s.life with system := { s.life.system with api := api } } } := by
  have happ := Proposals.Approval.approved_step hs.approved h
  rcases Triggers.Api.step_cases h with ⟨req, -, e⟩ | ⟨i, m, hd, f, -, hi, hadv, e⟩
  · subst e
    refine inv_goes hs (System.grow_refl _) hs.runs hs.given (fun _ hc => hc) rfl (fun row hrow => ⟨row, hrow, same_refl row⟩)
      (fun row hrow => ⟨row, hrow, same_refl row⟩) (fun h hh record hf => ?_) happ
    rcases List.mem_append.mp hh with hh | hh
    · exact Or.inl ⟨h, hh, hf, rfl⟩
    · rw [List.mem_singleton.mp hh] at hf
      cases hf
  · subst e
    refine inv_goes hs (System.grow_refl _) hs.runs hs.given (fun _ hc => hc) rfl (fun row hrow => api_rows h hrow) (fun row hrow => ?_)
      (fun h hh record hf => ?_) happ
    · have hrow : row ∈ f.table.rows := hrow
      rcases hadv.table with e | ⟨d, -, e⟩
      · rw [e] at hrow
        exact ⟨row, hrow, same_refl row⟩
      · rw [e] at hrow
        exact setStatus_of hrow
    · rcases List.mem_or_eq_of_mem_set hh with hh | e
      · exact Or.inl ⟨h, hh, hf, rfl⟩
      · subst e
        rcases (Proposals.Approval.fetched_move hadv).2 with hsame | ⟨found, hget, hrec⟩
        · exact Or.inl ⟨hd, List.mem_of_getElem? hi, by rw [← hsame]; exact hf, hadv.req.symm⟩
        · -- the record just read is a row of the table
          rw [hrec] at hf
          subst hf
          obtain ⟨row, hrow, hdec⟩ := Proposals.get_record hget
          obtain ⟨hmem, hkey⟩ := Keyed.get_some hrow
          exact Or.inr ⟨row, hmem, by rw [hadv.req]; exact hkey, hdec⟩

theorem inv_system (hs : Inv s) {e : System.Ev Args Val} {t : System.St Args Val Out}
    (h : System.step s.life.wiring s.life.system e = some t) : Inv { s with life := { s.life with system := t } } := by
  cases e with
  | start agentId runId traceId =>
    obtain ⟨d, hd, e⟩ := Option.map_eq_some_iff.mp h
    subst e
    refine inv_runs hs (System.grow_append _ _) (fun r hr => ?_) s.life.system.toolCalls (fun _ hc => hc)
      (System.given_start hs.given d runId traceId)
    rcases List.mem_append.mp hr with hr | hr
    · exact hs.runs r hr
    · rw [List.mem_singleton.mp hr]
      refine ⟨?_, fun hne => absurd rfl hne⟩
      show s.life.wiring.definitions.get d.id = some d
      rw [(Keyed.get_some hd).2]
      exact hd
  | run i m =>
    cases m with
    | added => cases h
    | _ =>
      obtain ⟨r, hr, h⟩ := Option.bind_eq_some_iff.mp h
      obtain ⟨r', ha, e⟩ := Option.map_eq_some_iff.mp h
      subst e
      have hg := Runtime.Runner.advance_grows ha
      refine inv_runs hs (System.grow_set hr hg) (fun q hq => ?_) _ (fun _ hc => List.mem_append_left _ hc)
        (System.given_move hs.given hr ha)
      rcases List.mem_or_eq_of_mem_set hq with hq | e
      · exact hs.runs q hq
      · rw [e]
        exact System.runOk_grows (hs.runs r (List.mem_of_getElem? hr)) hg
  | add i id now m =>
    simp only [System.step] at h
    split at h
    · rename_i hafter
      obtain ⟨r, hr, h⟩ := Option.bind_eq_some_iff.mp h
      obtain ⟨r', ha, h⟩ := Option.bind_eq_some_iff.mp h
      exact inv_add hs hr hafter ha h
    · cases h
  | api e =>
    obtain ⟨api, ha, e⟩ := Option.map_eq_some_iff.mp h
    subst e
    exact inv_api hs ha

/-- The next life has no runs and no handlers yet, and it finds the table. -/
theorem inv_restart (hs : Inv s) (w : Wiring Args Val Out) : Inv ⟨s.lives, .on w s.table⟩ := by
  have hnone : ∀ o, o ∉ (Life.on w s.table).system.origins := fun o ho => (by cases ho)
  refine ⟨fun r hr => (by cases hr), fun i r hr => (by cases hr), fun row hrow => ?_, fun m hm o ho => ?_, ?_,
    fun h hh => (by cases hh), fun h hh => (by cases hh), fun c hc => (by cases hc)⟩
  · obtain ⟨ℓ, hℓ, hst⟩ := hs.backed row hrow
    exact ⟨ℓ, List.mem_append_left _ hℓ, hst⟩
  · rcases List.mem_append.mp hm with hm | hm
    · exact hs.lasting m hm o ho
    · rw [List.mem_singleton.mp hm] at ho
      exact absurd ho (hnone o)
  · have hids : (St.lives ⟨s.lives, .on w s.table⟩).flatMap (fun ℓ => ℓ.system.origins.map (·.proposalId)) =
        s.lives.flatMap fun ℓ => ℓ.system.origins.map (·.proposalId) := by
      simp [St.lives, Life.on]
    rw [hids]
    exact hs.once

theorem inv_step (s : St Args Val Out) (e : Ev Args Val Out) (t : St Args Val Out) (hs : Inv s) (h : step s e = some t) :
    Inv t := by
  cases e with
  | step e =>
    obtain ⟨system, hstep, e⟩ := Option.map_eq_some_iff.mp h
    subst e
    exact inv_system hs hstep
  | restart w =>
    cases h
    exact inv_restart hs w

theorem inv_init (w : Wiring Args Val Out) : Inv (init w) := by
  have hnone : ∀ ℓ ∈ (init w).lives, ∀ o, o ∉ ℓ.system.origins := by
    intro ℓ hℓ o ho
    rw [List.mem_singleton.mp hℓ] at ho
    cases ho
  refine ⟨fun r hr => (by cases hr), fun i r hr => (by cases hr), fun row hrow => (by cases hrow),
    fun ℓ hℓ o ho => absurd ho (hnone ℓ hℓ o), ?_, fun h hh => (by cases hh), fun h hh => (by cases hh), fun c hc => (by cases hc)⟩
  show List.Nodup []
  exact List.nodup_nil

theorem inv_run {w : Wiring Args Val Out} {ok : St Args Val Out → Ev Args Val Out → Prop} (h : Run step ok (init w) s) : Inv s :=
  h.invariant (fun s e t hs _ h => inv_step s e t hs h) (inv_init w)

/-! ## What lasts -/

theorem lives_last {e : Ev Args Val Out} {t : St Args Val Out} (h : step s e = some t) (hℓ : ℓ ∈ s.lives) :
    ∃ m ∈ t.lives, m.wiring = ℓ.wiring := by
  cases e with
  | step e =>
    obtain ⟨system, -, e⟩ := Option.map_eq_some_iff.mp h
    subst e
    rcases List.mem_append.mp hℓ with hℓ | hℓ
    · exact ⟨ℓ, List.mem_append_left _ hℓ, rfl⟩
    · rw [List.mem_singleton.mp hℓ]
      exact ⟨_, List.mem_append_right _ List.mem_cons_self, rfl⟩
  | restart w =>
    cases h
    exact ⟨ℓ, List.mem_append_left _ hℓ, rfl⟩

/-- No step takes a row away, or changes more of it than its status and its error. -/
theorem rows_last {e : Ev Args Val Out} {t : St Args Val Out} (h : step s e = some t) (hrow : row ∈ s.table.rows) :
    ∃ row' ∈ t.table.rows, Same row row' := by
  cases e with
  | restart w =>
    cases h
    exact ⟨row, hrow, same_refl row⟩
  | step e =>
    obtain ⟨system, hstep, e⟩ := Option.map_eq_some_iff.mp h
    subst e
    cases e with
    | start agentId runId traceId =>
      obtain ⟨d, -, e⟩ := Option.map_eq_some_iff.mp hstep
      subst e
      exact ⟨row, hrow, same_refl row⟩
    | run i m =>
      cases m with
      | added => cases hstep
      | _ =>
        obtain ⟨r, -, hstep⟩ := Option.bind_eq_some_iff.mp hstep
        obtain ⟨r', -, e⟩ := Option.map_eq_some_iff.mp hstep
        subst e
        exact ⟨row, hrow, same_refl row⟩
    | add i id now m =>
      simp only [System.step] at hstep
      split at hstep
      case isFalse => cases hstep
      obtain ⟨r, -, hstep⟩ := Option.bind_eq_some_iff.mp hstep
      obtain ⟨r', -, hadd⟩ := Option.bind_eq_some_iff.mp hstep
      unfold System.addNext at hadd
      split at hadd
      case h_2 => cases hadd
      obtain ⟨p, -, hadd⟩ := Option.bind_eq_some_iff.mp hadd
      obtain ⟨⟨table, record⟩, hadd, e⟩ := Option.map_eq_some_iff.mp hadd
      obtain ⟨hfresh, htable, hid, -⟩ := Proposals.add_cases hadd
      subst e
      refine ⟨row, ?_, same_refl row⟩
      show row ∈ table.rows
      rw [htable, Keyed.set_fresh (Keyed.get_none.mp (by rw [← hid] at hfresh; exact hfresh))]
      exact List.mem_append_left _ hrow
    | api e =>
      obtain ⟨api, ha, e⟩ := Option.map_eq_some_iff.mp hstep
      subst e
      exact api_rows ha hrow

/-! ## The table over all lives -/

/-- The table has one row for each proposal that was ever stored, as it was stored, and no
    other rows. -/
theorem table_is_ledger {w : Wiring Args Val Out} {ok : St Args Val Out → Ev Args Val Out → Prop} (h : Run step ok (init w) s) :
    (s.lives.flatMap fun ℓ => ℓ.system.origins.map (·.proposalId)).Perm (s.table.rows.map Row.id) ∧
      ∀ ℓ ∈ s.lives, ∀ o ∈ ℓ.system.origins, ∃ r row, Stored ℓ o r ∧ s.table.get o.proposalId = some row ∧
        RowOf ℓ.wiring.app.codec r o row := by
  have hinv := inv_run h
  refine ⟨(List.perm_ext_iff_of_nodup hinv.once s.table.nodup).mpr fun id => ⟨fun hid => ?_, fun hid => ?_⟩, ?_⟩
  · obtain ⟨row, hrow, e⟩ := stored_id_in_table hinv hid
    exact List.mem_map.mpr ⟨row, hrow, e⟩
  · obtain ⟨row, hrow, e⟩ := List.mem_map.mp hid
    obtain ⟨ℓ, hℓ, o, r, hst, hof⟩ := hinv.backed row hrow
    exact List.mem_flatMap.mpr ⟨ℓ, hℓ, List.mem_map.mpr ⟨o, hst.origin, hof.id.symm.trans e⟩⟩
  · intro ℓ hℓ o ho
    obtain ⟨r, hst, row, hrow, hof⟩ := hinv.lasting ℓ hℓ o ho
    have hget := Keyed.get_of_mem hrow
    rw [hof.id] at hget
    exact ⟨r, row, hst, hget, hof⟩

/-! ## Approval over all lives -/

/-- The call was made in life `j` by an authorised approve handler, from a pending record
    of a proposal that a run of that life or an earlier one has stored. -/
def Called (lives : List (Life Args Val Out)) (j : Nat) (ℓ' : Life Args Val Out) (c : Triggers.Api.Call Args) : Prop :=
  ∃ hd record, ℓ'.system.api.handlers[c.handler]? = some hd ∧ Proposals.Approval.Approves ℓ'.wiring.app hd c ∧
    hd.fetched = some record ∧ record.status = .pending ∧
    ∃ k ≤ j, ∃ ℓ o r, lives[k]? = some ℓ ∧ Stored ℓ o r ∧ o.proposalId = c.proposalId ∧
      record.agentId = r.definition.id ∧ c.action = o.proposed.action ∧
      ℓ'.wiring.app.codec.loads (ℓ.wiring.app.codec.dumps o.proposed.arguments) = some c.arguments

theorem called_append {lives : List (Life Args Val Out)} {j : Nat} {c : Triggers.Api.Call Args} (m : Life Args Val Out)
    (h : Called lives j ℓ' c) : Called (lives ++ [m]) j ℓ' c := by
  obtain ⟨hd, record, hh, happ, hf, hst, k, hk, ℓ, o, r, hℓ, hrest⟩ := h
  exact ⟨hd, record, hh, happ, hf, hst, k, hk, ℓ, o, r, Tasks.get_kept hℓ, hrest⟩

/-- The handlers of the current life read rows of this table. -/
theorem called_now (hs : Inv s) {c : Triggers.Api.Call Args} (hc : c ∈ s.life.system.api.calls) :
    Called s.lives s.past.length s.life c := by
  obtain ⟨hd, hh, happ⟩ := hs.approved.2 c hc
  obtain ⟨record, hf, hst, haction, harguments⟩ := happ.record
  obtain ⟨row, ⟨ℓ, hℓ, o, r, hstored, hof⟩, hid, hdec⟩ := hs.fetched hd (List.mem_of_getElem? hh) record hf
  obtain ⟨-, hagent, -, hact, hloads, -⟩ := Proposals.rowToRecord_fields hdec
  obtain ⟨k, hk⟩ := List.mem_iff_getElem?.mp hℓ
  have hlt : k < s.lives.length := (List.getElem?_eq_some_iff.mp hk).1
  have hle : k ≤ s.past.length := by
    rw [St.lives, List.length_append, List.length_singleton] at hlt
    omega
  refine ⟨hd, record, hh, happ, hf, hst, k, hle, ℓ, o, r, hk, hstored, ?_, hagent.trans hof.agent, ?_, ?_⟩
  · rw [← hof.id, hid, happ.proposal]
  · rw [← haction, hact, hof.action]
  · rw [← hof.arguments, hloads, harguments]

/-- The calls of the lives that are over. -/
def Past (s : St Args Val Out) : Prop :=
  ∀ j m, s.past[j]? = some m → ∀ c ∈ m.system.api.calls, Called s.past j m c

theorem past_step (s : St Args Val Out) (e : Ev Args Val Out) (t : St Args Val Out) (hs : Inv s ∧ Past s)
    (h : step s e = some t) : Inv t ∧ Past t := by
  refine ⟨inv_step s e t hs.1 h, ?_⟩
  cases e with
  | step e =>
    obtain ⟨system, -, e⟩ := Option.map_eq_some_iff.mp h
    subst e
    exact hs.2
  | restart w =>
    cases h
    intro j m hm c hc
    by_cases hj : j < s.past.length
    · have hold : s.past[j]? = some m := by
        rw [← List.getElem?_append_left hj]
        exact hm
      exact called_append s.life (hs.2 j m hold c hc)
    · -- the life that has just ended
      have hlast : j = s.past.length := by
        have hlt : j < s.lives.length := (List.getElem?_eq_some_iff.mp hm).1
        rw [St.lives, List.length_append, List.length_singleton] at hlt
        omega
      rw [hlast] at hm ⊢
      have e : s.life = m := Option.some.inj ((List.getElem?_concat_length).symm.trans hm)
      rw [← e] at hc ⊢
      exact called_now hs.1 hc

theorem past_run {w : Wiring Args Val Out} {ok : St Args Val Out → Ev Args Val Out → Prop} (h : Run step ok (init w) s) :
    Inv s ∧ Past s :=
  Run.invariant (I := fun s => Inv s ∧ Past s) (fun s e t hs _ h => past_step s e t hs h) h
    ⟨inv_init w, fun j m hm => (by cases hm)⟩

theorem called_of (hs : Inv s ∧ Past s) {j : Nat} (hℓ : s.lives[j]? = some ℓ') {c : Triggers.Api.Call Args}
    (hc : c ∈ ℓ'.system.api.calls) : Called s.lives j ℓ' c := by
  by_cases hj : j < s.past.length
  · rw [St.lives, List.getElem?_append_left hj] at hℓ
    exact called_append s.life (hs.2 j ℓ' hℓ c hc)
  · have hlast : j = s.past.length := by
      have hlt : j < s.lives.length := (List.getElem?_eq_some_iff.mp hℓ).1
      rw [St.lives, List.length_append, List.length_singleton] at hlt
      omega
    rw [hlast] at hℓ ⊢
    have e : s.life = ℓ' := Option.some.inj ((List.getElem?_concat_length).symm.trans hℓ)
    rw [← e] at hc ⊢
    exact called_now hs.1 hc

/-- What an approve handler invokes, a run of its life or an earlier one has proposed and
    stored, whatever the definitions are now. -/
theorem approved_in_some_life {w : Wiring Args Val Out} {ok : St Args Val Out → Ev Args Val Out → Prop}
    (h : Run step ok (init w) s) {j : Nat} (hℓ : s.lives[j]? = some ℓ') {c : Triggers.Api.Call Args}
    (hc : c ∈ ℓ'.system.api.calls) : Called s.lives j ℓ' c :=
  called_of (past_run h) hℓ hc

/-! The service is started again without agents, and the proposal of the first life is
    approved. -/

def withoutAgents : Wiring Unit Unit Unit := { System.demo with definitions := Keyed.ofList Config.AgentDefinition.id [] }

def approvesLater : List (Ev Unit Unit Unit) :=
  ((System.proposesAndApproves "merge_events").take 5).map .step ++ [.restart withoutAgents] ++
    ((System.proposesAndApproves "merge_events").drop 5).map .step

theorem approved_after_removal :
    ∃ s, Run step (fun _ _ => True) (init System.demo) s ∧ s.past.length = 1 ∧ s.life.wiring.definitions.rows = [] ∧
      ∃ c ∈ s.life.system.api.calls, c.action = "merge_events" ∧ Called s.lives 1 s.life c := by
  obtain ⟨s, hr, hp⟩ := Run.exists_of_exec step (fun _ _ => True) (init System.demo) approvesLater
    (fun s => s.past.length == 1 && s.life.wiring.definitions.rows.isEmpty &&
      s.life.system.api.calls.any (·.action == "merge_events")) (by decide)
  simp only [Bool.and_eq_true, beq_iff_eq, List.isEmpty_iff, List.any_eq_true] at hp
  obtain ⟨⟨hlen, hnone⟩, c, hc, haction⟩ := hp
  have hlast : s.lives[1]? = some s.life := by
    rw [St.lives, ← hlen]
    exact List.getElem?_concat_length
  exact ⟨s, hr, hlen, hnone, c, hc, haction, approved_in_some_life hr hlast hc⟩

/-- Two lives: the row is still the first life's proposal. -/
theorem table_is_ledger_two :
    ∃ s, Run step (fun _ _ => True) (init System.demo) s ∧ s.past.length = 1 ∧
      (s.lives.flatMap fun ℓ => ℓ.system.origins.map (·.proposalId)).Perm (s.table.rows.map Row.id) ∧
      s.table.rows.map Row.id = ["p"] := by
  obtain ⟨s, hr, hp⟩ := Run.exists_of_exec step (fun _ _ => True) (init System.demo) approvesLater
    (fun s => s.past.length == 1 && s.table.rows.map Row.id == ["p"]) (by decide)
  simp only [Bool.and_eq_true, beq_iff_eq] at hp
  exact ⟨s, hr, hp.1, (table_is_ledger hr).1, hp.2⟩

end SagaAgents.Restarts
