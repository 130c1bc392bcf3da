/-
  SagaAgents.Proposals.Listing — the order of `list_pending` (`proposals/store.py`).

  `created_at` is a text, and `ORDER BY` compares the bytes of texts. The text of a
  datetime leaves its fraction out when it is zero, so texts have two lengths, and "+" is
  compared with "." where one ends earlier.

  Proved, over every history of `add` and `set_status` with any arguments and clock values:
  - `notLater_bytes`: the model's comparison of texts is that of their bytes.
  - `listed_oldest_first`: the texts are in the order of the datetimes, and `list_pending`
    returns the pending rows it was asked for, each once, oldest first.
-/

import SagaAgents.Lib.TextOrder
import SagaAgents.Proposals.Columns

namespace SagaAgents.Proposals.Columns

open Lib
open Lib.Calendar (limit isoformat isoformat_lt_iff)
open Lib.TextOrder (bytes bytes_lt_iff)

/-! ## Histories with any arguments -/

/-- The tables that `add` and `set_status` make of a new one; a call that raises leaves the
    table as it is. -/
inductive Reached : Db → Prop
  | init : Reached (Keyed.empty _)
  | add {db db' : Db} {id agentId runId action rationale : String} {now : Moment} {arguments : Arguments}
      {r : ProposalRecord Arguments} : Reached db →
      add db id now agentId runId action arguments rationale = some (db', r) → Reached db'
  | setStatus {db : Db} (proposalId status : String) (error : Option String) : Reached db →
      Reached (setStatus db proposalId status error)

theorem stored_cellsOf {r : ProposalRecord Arguments} {json : String} (hm : r.createdAt < limit)
    (hjson : dumps r.arguments = some json) : ∃ r', Stored r' (cellsOf r json) := by
  obtain ⟨arguments, hload⟩ := loads_written hjson
  refine ⟨{ r with arguments := arguments }, hm, json, hload, fun c _ => ?_⟩
  cases c <;> rfl

theorem stored_decided {r : ProposalRecord Arguments} {row : Cells} (h : Stored r row) (values : List (Option String)) :
    Stored r (Sql.assign row setStatusColumns values) := by
  obtain ⟨json, hjson, hcells⟩ := h.cells
  refine ⟨h.moment, json, hjson, fun c hc => ?_⟩
  rw [Sql.assign_other hc]
  exact hcells c hc

theorem reached_stored {db : Db} (h : Reached db) : AllStored db := by
  induction h with
  | init =>
    intro row hrow
    cases hrow
  | add _ ha ih =>
    obtain ⟨-, hr, json, hjson, hset⟩ := add_cases ha
    intro row hrow
    rw [hset] at hrow
    rcases Keyed.mem_set hrow with e | hrow
    · subst e hr
      exact stored_cellsOf (Fin.isLt _) hjson
    · exact ih row hrow
  | setStatus proposalId status error _ ih =>
    intro row hrow
    rcases Sql.mem_update hrow with hrow | ⟨old, hold, e⟩
    · exact ih row hrow
    · subst e
      obtain ⟨r, hr⟩ := ih old hold
      exact ⟨r, stored_decided hr _⟩

/-! ## Order -/

/-- The text that `add` stores for a datetime. -/
def stamp (t : Moment) : String := String.ofList (isoformat t.val)

theorem stamp_lt_iff (t u : Moment) : bytes (stamp t) < bytes (stamp u) ↔ t < u := by
  rw [bytes_lt_iff]
  show (stamp t).toList < (stamp u).toList ↔ t.val < u.val
  rw [stamp, stamp, String.toList_ofList, String.toList_ofList]
  exact isoformat_lt_iff t.isLt u.isLt

/-- Texts are compared by their bytes. -/
theorem notLater_bytes (a b : Cells) :
    notLater a b = true ↔ ¬ bytes ((b .createdAt).getD "") < bytes ((a .createdAt).getD "") := by
  rw [bytes_lt_iff, not_lt, notLater, decide_eq_true_iff]

theorem notLater_trans (a b c : Cells) (hab : notLater a b = true) (hbc : notLater b c = true) : notLater a c = true := by
  simp only [notLater, decide_eq_true_iff] at hab hbc ⊢
  exact le_trans hab hbc

theorem notLater_total (a b : Cells) : (notLater a b || notLater b a) = true := by
  simp only [notLater, Bool.or_eq_true, decide_eq_true_iff]
  exact le_total _ _

/-- A row that is not sorted behind another is of a record made no later. -/
theorem notLater_stored {r s : ProposalRecord Arguments} {a b : Cells} (ha : Stored r a) (hb : Stored s b)
    (h : notLater a b = true) : r.createdAt ≤ s.createdAt := by
  obtain ⟨json, -, hcells⟩ := ha.cells
  obtain ⟨json', -, hcells'⟩ := hb.cells
  have hra : a .createdAt = some (stamp ⟨r.createdAt, ha.moment⟩) := hcells .createdAt (by decide)
  have hsb : b .createdAt = some (stamp ⟨s.createdAt, hb.moment⟩) := hcells' .createdAt (by decide)
  rw [notLater_bytes, hra, hsb, Option.getD_some, Option.getD_some, stamp_lt_iff] at h
  exact Nat.le_of_not_lt h

theorem createdAt_read {r r' : ProposalRecord Arguments} {row : Cells} (h : Stored r row)
    (hr : rowToRecord (Sql.select getColumns row) = some r') : r'.createdAt = r.createdAt := by
  rw [rowToRecord_stored h] at hr
  obtain ⟨s, -, e⟩ := Option.map_eq_some_iff.mp hr
  rw [← e]

variable {db : Db} {agentId : Option String} {rs : List (ProposalRecord Arguments)}

theorem listed_sorted (hdb : AllStored db)
    (hmap : rs.map some = ((db.rows.filter (pendingOf agentId)).mergeSort notLater).map (rowToRecord ∘ Sql.select getColumns)) :
    rs.Pairwise fun r s => r.createdAt ≤ s.createdAt := by
  let Ordered (o p : Option (ProposalRecord Arguments)) : Prop := ∀ r s, o = some r → p = some s → r.createdAt ≤ s.createdAt
  have hrows : (((db.rows.filter (pendingOf agentId)).mergeSort notLater).map (rowToRecord ∘ Sql.select getColumns)).Pairwise
      Ordered := by
    rw [List.pairwise_map]
    apply List.Pairwise.imp_of_mem _ (List.pairwise_mergeSort notLater_trans notLater_total _)
    intro a b ha hb hle r s hr hs
    obtain ⟨r', hr'⟩ := hdb a (List.mem_filter.mp (List.mem_mergeSort.mp ha)).1
    obtain ⟨s', hs'⟩ := hdb b (List.mem_filter.mp (List.mem_mergeSort.mp hb)).1
    rw [createdAt_read hr' hr, createdAt_read hs' hs]
    exact notLater_stored hr' hs' hle
  rw [← hmap, List.pairwise_map] at hrows
  exact hrows.imp fun h => h _ _ rfl rfl

theorem listed_ids (hdb : AllStored db)
    (hmap : rs.map some = ((db.rows.filter (pendingOf agentId)).mergeSort notLater).map (rowToRecord ∘ Sql.select getColumns)) :
    (rs.map ProposalRecord.id).Nodup := by
  have hid : ∀ row ∈ (db.rows.filter (pendingOf agentId)).mergeSort notLater,
      ((rowToRecord ∘ Sql.select getColumns) row).map ProposalRecord.id = row createTable.key := by
    intro row hrow
    obtain ⟨r', hr'⟩ := hdb row (List.mem_filter.mp (List.mem_mergeSort.mp hrow)).1
    have hread := List.mem_map_of_mem (f := rowToRecord ∘ Sql.select getColumns) hrow
    rw [← hmap] at hread
    obtain ⟨r, -, hr⟩ := List.mem_map.mp hread
    rw [← hr]
    exact (record_id hr' hr.symm).symm
  have hkeys : (rs.map ProposalRecord.id).map some =
      ((db.rows.filter (pendingOf agentId)).mergeSort notLater).map fun row => row createTable.key := by
    have h := congrArg (List.map (Option.map ProposalRecord.id)) hmap
    rw [List.map_map, List.map_map] at h
    rw [List.map_map, ← List.map_congr_left hid]
    exact h
  have hperm := (List.mergeSort_perm (db.rows.filter (pendingOf agentId)) notLater).map fun row => row createTable.key
  have hsub := (List.filter_sublist (p := pendingOf agentId) (l := db.rows)).map fun row => row createTable.key
  apply List.Nodup.of_map some
  rw [hkeys, hperm.nodup_iff]
  exact db.nodup.sublist hsub

/-- Later datetimes have later texts; and `list_pending` returns the pending rows of the
    agent, or of all agents, each once, oldest first. -/
theorem listed_oldest_first :
    (∀ t u : Moment, t < u → bytes (stamp t) < bytes (stamp u)) ∧
      ∀ db, Reached db → ∀ agentId, ∃ rs, listPending db agentId = some rs ∧
        (rs.map some).Perm ((db.rows.filter (pendingOf agentId)).map fun row => rowToRecord (Sql.select getColumns row)) ∧
        (rs.map ProposalRecord.id).Nodup ∧ rs.Pairwise fun r s => r.createdAt ≤ s.createdAt := by
  constructor
  · intro t u h
    exact (stamp_lt_iff t u).mpr h
  · intro db h agentId
    have hdb := reached_stored h
    obtain ⟨rs, hrs, hmap⟩ := listPending_rows hdb agentId
    refine ⟨rs, hrs, ?_, listed_ids hdb hmap, listed_sorted hdb hmap⟩
    rw [hmap]
    exact (List.mergeSort_perm _ _).map _

/-- A table with one pending proposal. -/
theorem listed_oldest_first_demo :
    ∃ db, Reached db ∧ ∃ rs, listPending db (some "media-curator") = some rs ∧
      (rs.map some).Perm ((db.rows.filter (pendingOf (some "media-curator"))).map fun row => rowToRecord (Sql.select getColumns row)) := by
  obtain ⟨db, r, h⟩ := (add_returns_iff (Keyed.empty _) "p1" "media-curator" "run1" "delete_media" "unused" ⟨0, by decide⟩ []).mpr ⟨rfl, rfl⟩
  have hdb : Reached db := Reached.init.add h
  obtain ⟨rs, hrs, hperm, -⟩ := listed_oldest_first.2 db hdb (some "media-curator")
  exact ⟨db, hdb, rs, hrs, hperm⟩

end SagaAgents.Proposals.Columns
