/-
  SagaAgents.Verbatim — what is approved is what was proposed.

  The values given to `propose` (`proposeCalls`) reach `mcp_call` through the run's list,
  the sink, a row of the table and the record that the approve handler reads. `Kept` follows
  them: a row has the texts of its proposal, and the record a handler goes by was read from
  such a row.

  Proved: `call_as_stored` (an approve call has the action of a proposal of a run, and the
  arguments that its text decodes to), and with the texts of `Proposals.Columns`
  `approved_as_proposed`: a record of the store is read back as it was added, and an
  approve call has the action and the arguments that a `propose` call was given.
-/

import SagaAgents.Proposals.Columns
import SagaAgents.System

namespace SagaAgents.Verbatim

open Lib
open Proposals (Codec Row ProposalRecord)
open Proposals.Columns (Arguments Proposable Moment Stmt execAll lastDecision readStatus pythonCodec)
open SagaAgents.System (Wiring St Ev Origin init step)

variable {Args Val Out : Type}

/-! ## Texts of proposals -/

/-- The row is of a proposal that a run has stored. -/
def RowKept (c : Codec Args) (origins : List (Origin Args)) (row : Row) : Prop :=
  ∃ o ∈ origins, o.proposalId = row.id ∧ o.proposed.action = row.action ∧ c.dumps o.proposed.arguments = row.arguments

/-- The record was read from such a row. -/
def RecordKept (c : Codec Args) (origins : List (Origin Args)) (pid : String) (r : ProposalRecord Args) : Prop :=
  ∃ o ∈ origins, o.proposalId = pid ∧ o.proposed.action = r.action ∧
    c.loads (c.dumps o.proposed.arguments) = some r.arguments

structure Kept (w : Wiring Args Val Out) (s : St Args Val Out) : Prop where
  rows : ∀ row ∈ s.api.table.rows, RowKept w.app.codec s.origins row
  fetched : ∀ h ∈ s.api.handlers, ∀ r, h.fetched = some r → RecordKept w.app.codec s.origins h.req.proposalId r

variable {w : Wiring Args Val Out} {s t : St Args Val Out}

theorem rowKept_mono {c : Codec Args} {origins : List (Origin Args)} {row : Row} (h : RowKept c origins row) (o : Origin Args) :
    RowKept c (origins ++ [o]) row := by
  obtain ⟨o', ho, hrow⟩ := h
  exact ⟨o', List.mem_append_left _ ho, hrow⟩

theorem recordKept_mono {c : Codec Args} {origins : List (Origin Args)} {pid : String} {r : ProposalRecord Args}
    (h : RecordKept c origins pid r) (o : Origin Args) : RecordKept c (origins ++ [o]) pid r := by
  obtain ⟨o', ho, hr⟩ := h
  exact ⟨o', List.mem_append_left _ ho, hr⟩

/-- The row of a run's next proposal has its texts. -/
theorem kept_add (hs : Kept w s) {i : Nat} {id : String} {now : Proposals.Instant} {r r' : Runtime.Runner.RunState Args}
    (h : System.addNext w s i id now r r' = some t) : Kept w t := by
  unfold System.addNext at h
  split at h
  case h_2 => cases h
  obtain ⟨p, -, h⟩ := Option.bind_eq_some_iff.mp h
  obtain ⟨⟨table, record⟩, hadd, e⟩ := Option.map_eq_some_iff.mp h
  obtain ⟨-, htable, hid, -, -, haction, harguments, -, -⟩ := Proposals.add_cases hadd
  subst e
  refine ⟨?_, ?_⟩
  · intro row hrow
    have hrow : row ∈ table.rows := hrow
    rw [htable] at hrow
    rcases Keyed.mem_set hrow with e | hrow
    · subst e
      refine ⟨⟨id, i, p⟩, List.mem_append_right _ List.mem_cons_self, hid.symm, haction.symm, ?_⟩
      show w.app.codec.dumps p.arguments = w.app.codec.dumps record.arguments
      rw [harguments]
    · exact rowKept_mono (hs.rows row hrow) _
  · intro hd hm record' hf
    exact recordKept_mono (hs.fetched hd hm record' hf) _

/-- An UPDATE leaves the texts, and a handler reads a row of the table. -/
theorem kept_api (hs : Kept w s) {e : Triggers.Api.Ev Val} {api : Triggers.Api.St Args Val Out}
    (h : Triggers.Api.step w.app s.api e = some api) : Kept w { s with api := api } := by
  rcases Triggers.Api.step_cases h with ⟨req, -, e⟩ | ⟨i, m, hd, f, -, hi, hadv, e⟩
  · subst e
    refine ⟨hs.rows, ?_⟩
    intro hd hm r hf
    rcases List.mem_append.mp hm with hm | hm
    · exact hs.fetched hd hm r hf
    · rw [List.mem_singleton.mp hm] at hf
      cases hf
  · subst e
    refine ⟨?_, ?_⟩
    · intro row hm
      have hm : row ∈ f.table.rows := hm
      rcases hadv.table with e | ⟨d, -, e⟩
      · rw [e] at hm
        exact hs.rows row hm
      · rw [e] at hm
        obtain ⟨old, hold, hid, -, -, haction, harguments, -⟩ := Proposals.setStatus_rows hm
        unfold RowKept
        rw [hid, haction, harguments]
        exact hs.rows old hold
    · intro hd' hm r hf
      rcases List.mem_or_eq_of_mem_set hm with hm | e
      · exact hs.fetched hd' hm r hf
      · rw [e] at hf ⊢
        rw [hadv.req]
        rcases (Proposals.Approval.fetched_move hadv).2 with hsame | ⟨record, hg, hrec⟩
        · exact hs.fetched hd (List.mem_of_getElem? hi) r (by rw [← hsame]; exact hf)
        · rw [hrec] at hf
          subst hf
          obtain ⟨row, hrow, hdec⟩ := Proposals.get_record hg
          obtain ⟨-, -, -, haction, hloads, -⟩ := Proposals.rowToRecord_fields hdec
          obtain ⟨hmem, hkey⟩ := Keyed.get_some hrow
          obtain ⟨o, ho, hpid, hact, hdumps⟩ := hs.rows row hmem
          exact ⟨o, ho, hpid.trans hkey, hact.trans haction.symm, by rw [hdumps]; exact hloads⟩

theorem kept_step (s : St Args Val Out) (e : Ev Args Val) (t : St Args Val Out) (hs : Kept w s) (h : step w s e = some t) :
    Kept w t := by
  cases e with
  | start agentId runId traceId =>
    obtain ⟨d, -, e⟩ := Option.map_eq_some_iff.mp h
    subst e
    exact ⟨hs.rows, hs.fetched⟩
  | run i m =>
    cases m with
    | added => cases h
    | _ =>
      obtain ⟨r, -, h⟩ := Option.bind_eq_some_iff.mp h
      obtain ⟨r', -, e⟩ := Option.map_eq_some_iff.mp h
      subst e
      exact ⟨hs.rows, hs.fetched⟩
  | add i id now m =>
    simp only [step] at h
    split at h
    · obtain ⟨r, -, h⟩ := Option.bind_eq_some_iff.mp h
      obtain ⟨r', -, h⟩ := Option.bind_eq_some_iff.mp h
      exact kept_add hs h
    · cases h
  | api e =>
    obtain ⟨api, ha, e⟩ := Option.map_eq_some_iff.mp h
    subst e
    exact kept_api hs ha

theorem kept_reach {ok : St Args Val Out → Ev Args Val → Prop} (h : Run (step w) ok init s) : Kept w s := by
  refine h.invariant (fun s e t hs _ h => kept_step s e t hs h) ⟨?_, ?_⟩
  all_goals intro x hx; cases hx

/-- An approve call is of a proposal that a run has made, with its action and the
    arguments that its text decodes to. -/
theorem call_as_stored {ok : St Args Val Out → Ev Args Val → Prop} (h : Run (step w) ok init s) {c : Triggers.Api.Call Args}
    (hc : c ∈ s.api.calls) :
    ∃ o ∈ s.origins, o.proposalId = c.proposalId ∧ (∃ r, s.runs[o.run]? = some r ∧ o.proposed ∈ r.proposals) ∧
      ⟨o.run, o.proposed.action, o.proposed.arguments, o.proposed.rationale⟩ ∈ s.proposeCalls ∧
      c.action = o.proposed.action ∧ w.app.codec.loads (w.app.codec.dumps o.proposed.arguments) = some c.arguments := by
  have hinv := System.inv_reach h
  obtain ⟨hd, hh, happ⟩ := hinv.approved.2 c hc
  obtain ⟨record, hf, -, haction, harguments⟩ := happ.record
  obtain ⟨o, ho, hpid, hact, hloads⟩ := (kept_reach h).fetched hd (List.mem_of_getElem? hh) record hf
  obtain ⟨r, hr, -, hmem⟩ := hinv.origins o ho
  exact ⟨o, ho, hpid.trans happ.proposal, ⟨r, hr, hmem⟩, hinv.given o.run r hr o.proposed hmem, (hact.trans haction).symm,
    by rw [hloads, harguments]⟩

/-! ## Python's texts -/

theorem codec_reads {arguments arguments' : Arguments} (hp : Proposable arguments)
    (h : pythonCodec.loads (pythonCodec.dumps arguments) = some arguments') : arguments' = arguments := by
  have h : Proposals.Columns.loads ((Proposals.Columns.dumps arguments).getD "") = some arguments' := h
  cases hd : Proposals.Columns.dumps arguments with
  | none =>
    rw [hd] at h
    cases h
  | some text =>
    rw [hd, Option.getD_some, Proposals.Columns.loads_dumps hp hd] at h
    exact (Option.some.inj h).symm

/-- A record that `add` returned is read back with all its fields, by `get` and by
    `list_pending`, until a `set_status` on it, and then by `get` with all but its status
    and error. An approve call has the action and the arguments that a `propose` call was
    given. -/
theorem approved_as_proposed :
    (∀ (before : List Stmt) (id agentId runId action rationale : String) (now : Moment) (arguments : Arguments),
      Proposable arguments →
      let db := execAll (Keyed.empty _) before
      ((∃ db' r, Proposals.Columns.add db id now agentId runId action arguments rationale = some (db', r)) ↔
        db.get (some id) = none ∧ (Json.obj arguments).all Json.shortInt = true) ∧
      ∀ db' r, Proposals.Columns.add db id now agentId runId action arguments rationale = some (db', r) →
        r = ⟨id, agentId, runId, action, arguments, rationale, .pending, now.val, none⟩ ∧
        ∀ later : List Stmt,
          (lastDecision id later = none →
            Proposals.Columns.get (execAll db' later) id = some (some r) ∧
            ∀ agent, agent = none ∨ agent = some agentId →
              ∃ rs, Proposals.Columns.listPending (execAll db' later) agent = some rs ∧ ∀ r', r' ∈ rs ∧ r'.id = id ↔ r' = r) ∧
          (∀ status error, lastDecision id later = some (status, error) →
            Proposals.Columns.get (execAll db' later) id =
              (readStatus status).map fun s => some { r with status := s, error := error })) ∧
    (∀ w : Wiring Arguments Val Out, w.app.codec = pythonCodec → ∀ s, Run (step w) (fun _ _ => True) init s →
      ∀ c ∈ s.api.calls, ∃ o ∈ s.origins, o.proposalId = c.proposalId ∧
        (∃ r, s.runs[o.run]? = some r ∧ o.proposed ∈ r.proposals) ∧
        ⟨o.run, o.proposed.action, o.proposed.arguments, o.proposed.rationale⟩ ∈ s.proposeCalls ∧
        c.action = o.proposed.action ∧ (Proposable o.proposed.arguments → c.arguments = o.proposed.arguments)) := by
  refine ⟨?_, ?_⟩
  · intro before id agentId runId action rationale now arguments hp
    refine ⟨Proposals.Columns.add_returns_iff _ _ _ _ _ _ _ _, ?_⟩
    intro db' r h
    have hall := Proposals.Columns.allWritten_execAll Proposals.Columns.allWritten_empty before
    refine ⟨(Proposals.Columns.add_cases h).2.1, fun later => ?_⟩
    have hget := Proposals.Columns.get_later hp h later
    refine ⟨?_, ?_⟩
    · intro hnone
      rw [hnone] at hget
      exact ⟨hget, fun agent hf => Proposals.Columns.listed_later hall hp h hnone hf⟩
    · intro status error hd
      rw [hd] at hget
      exact hget
  · intro w hc s h c hmem
    obtain ⟨o, ho, hpid, hrun, hgiven, haction, hloads⟩ := call_as_stored h hmem
    rw [hc] at hloads
    exact ⟨o, ho, hpid, hrun, hgiven, haction, fun hp => codec_reads hp hloads⟩

/-! Arguments with every kind of JSON value, a proposal of a run that has them, approved;
    and the store's record of it, after a `set_status` on another proposal. -/

def demoArguments : Arguments :=
  [(Text.ofString "flag", .bool true), (Text.ofString "items", .list [.int (-1), .null, .list []]),
    (Text.ofString "nested", .obj [(Text.ofString "clé \u2028", .str (Text.ofString "\"😀\n"))]),
    (Text.ofString "weight", .float (ofRat false (3 / 2)))]

/-- 25 May 2026, 123 microseconds past midnight. -/
def demoMoment : Moment := ⟨63915264000000123, by decide⟩

def demo : Wiring Arguments Unit Unit where
  definitions := System.demo.definitions
  runner := System.demo.runner
  app := { expectedToken := "t", codec := pythonCodec, wire := Triggers.Api.demoApp.wire }

def demoRun : List (Ev Arguments Unit) :=
  [.start "event-deduplicator" "r" none, .run 0 .resolved, .run 0 (.propose "merge_events" demoArguments "same event"),
    .run 0 (.agentEnds (.returned "done" 0)), .add 0 "p" demoMoment.val .added,
    .api (Triggers.Api.authorised .approve), .api (.move 0 .read), .api (.move 0 .resume)]

theorem demoArguments_proposable : Proposable demoArguments :=
  ⟨rfl, by decide +kernel, rfl⟩

/-- The record is read back while another proposal is decided, and is decided itself; and
    a run's proposal is approved as it was made. -/
theorem approved_as_proposed_demo :
    (∃ db r, Proposals.Columns.add (Keyed.empty _) "p" demoMoment "event-deduplicator" "r" "merge_events" demoArguments
        "same event" = some (db, r) ∧ r.arguments = demoArguments ∧
      Proposals.Columns.get (execAll db [.setStatus "q" "failed" (some "gone")]) "p" = some (some r) ∧
      Proposals.Columns.get (execAll db [.setStatus "p" "applied" none]) "p" = some (some { r with status := .applied })) ∧
    ∃ s, Run (step demo) (fun _ _ => True) init s ∧ ∃ c ∈ s.api.calls, c.action = "merge_events" ∧
      ∃ o ∈ s.origins, o.proposalId = c.proposalId ∧ c.action = o.proposed.action ∧ c.arguments = o.proposed.arguments ∧
        ⟨o.run, c.action, c.arguments, o.proposed.rationale⟩ ∈ s.proposeCalls := by
  have h := @approved_as_proposed Unit Unit
  refine ⟨?_, ?_⟩
  · obtain ⟨hadd, hkept⟩ := h.1 [] "p" "event-deduplicator" "r" "merge_events" "same event" demoMoment demoArguments
      demoArguments_proposable
    obtain ⟨db, r, hr⟩ := hadd.mpr ⟨rfl, rfl⟩
    obtain ⟨e, hlater⟩ := hkept db r hr
    have herror : r.error = none := by rw [e]
    refine ⟨db, r, hr, by rw [e], ((hlater _).1 rfl).1, ?_⟩
    rw [(hlater [.setStatus "p" "applied" none]).2 "applied" none rfl, ← herror]
    rfl
  · obtain ⟨s, hrun, hs⟩ := Run.exists_of_exec (step demo) (fun _ _ => True) init demoRun
      (fun s => s.api.calls.any (fun c => c.action == "merge_events") &&
        s.origins.all fun o => decide (Proposable o.proposed.arguments)) (by decide +kernel)
    simp only [Bool.and_eq_true, List.any_eq_true, List.all_eq_true, beq_iff_eq, decide_eq_true_eq] at hs
    obtain ⟨⟨c, hc, haction⟩, hall⟩ := hs
    obtain ⟨o, ho, hpid, -, hgiven, hact, hargs⟩ := h.2 demo rfl s hrun c hc
    rw [← hact, ← hargs (hall o ho)] at hgiven
    exact ⟨s, hrun, c, hc, haction, o, ho, hpid, hact, hargs (hall o ho), hgiven⟩

end SagaAgents.Verbatim
