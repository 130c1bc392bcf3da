/-
  SagaAgents.Triggers.ApproveResult — what the approve endpoint answers, and what it has
  stored by then (`triggers/api.py`).

  The status is committed before the answer is made. `jsonable_encoder` is guarded: where
  it raises, `str(result)` takes the result's place. `JSONResponse` is not: `json.dumps`
  raises on NaN, on the infinities and on an integer past the limit for texts, and
  `encode` on a lone surrogate. What it raises is a bare 500, and `applied` stays stored.

  A result is a value of built-in types or an object the encoder rejects. Of a value the
  encoder leaves out the members whose key it does not keep (`sqlalchemy_safe`).

  Proved:
  - `render_isSome`: a value can be answered iff every number, text and key in it can.
  - `approve_agrees`: the answer to an approve request agrees with the stored decision iff
    `mcp_call` raised or returned a result that can be answered. NaN cannot:
    `nan_answers_raised`.
-/

import SagaAgents.Lib.JsonRoundTrip
import SagaAgents.Proposals.Lifecycle

namespace SagaAgents.Triggers.ApproveResult

open Lib
open Lib.Json (Style dumps shortInt finiteFloat scalarText printInt printFloat)
open SagaAgents.Proposals
open SagaAgents.Proposals.Lifecycle (serve)
open Api (App Wire Request Outcome Decision St Handler answer verifyToken)

/-! ## Results -/

/-- A key of a dictionary. -/
inductive Key where
  | null
  | bool (b : Bool)
  | int (i : Int)
  | float (x : Binary64)
  | str (t : Text)

inductive Value where
  | null
  | bool (b : Bool)
  | int (i : Int)
  | float (x : Binary64)
  | str (t : Text)
  | list (vs : List Value)
  | dict (members : List (Key × Value))

/-- What `mcp_call` returns. A rejected object is known by its `str`, if that does not raise. -/
inductive Result where
  | value (v : Value)
  | rejected (str : Option Text)

/-! ## `JSONResponse` -/

/-- The key as `json.dumps` writes it; `none` if it raises. -/
def Key.text : Key → Option Text
  | .null => some (Text.ofString "null")
  | .bool b => some (Text.ofString (if b then "true" else "false"))
  | .int i => if shortInt (.int i) then some ((printInt i).map CodePoint.ofChar) else none
  | .float x => if x.isFinite then some ((printFloat x).map CodePoint.ofChar) else none
  | .str t => some t

mutual

/-- The value with the texts of its keys. -/
def Value.json : Value → Option Json
  | .null => some .null
  | .bool b => some (.bool b)
  | .int i => some (.int i)
  | .float x => some (.float x)
  | .str t => some (.str t)
  | .list vs => (jsonElems vs).map .list
  | .dict ms => (jsonMembers ms).map .obj

def jsonElems : List Value → Option (List Json)
  | [] => some []
  | v :: vs => v.json.bind fun j => (jsonElems vs).map (j :: ·)

def jsonMembers : List (Key × Value) → Option (List (Text × Json))
  | [] => some []
  | (k, v) :: ms => k.text.bind fun t => v.json.bind fun j => (jsonMembers ms).map ((t, j) :: ·)

end

/-- `ensure_ascii=False, allow_nan=False, separators=(",", ":")`. -/
def responseStyle : Style := ⟨[], false, false, fun _ h => nomatch h⟩

/-- `JSONResponse.render`: the text, which `encode` takes if it has no lone surrogate. -/
def render (v : Value) : Option (List Char) :=
  v.json.bind fun j => (dumps responseStyle j).filter fun _ => j.all scalarText

/-- The content of the answer to an approved proposal. -/
def content (safeResult : Value) : Value :=
  .dict [(.str (Text.ofString "status"), .str (Text.ofString "applied")), (.str (Text.ofString "result"), safeResult)]

/-- `jsonable_encoder` on values and `str` on values are given; an answer cannot be made
    where `str` itself raises. -/
def wire (encode : Value → Option Value) (strOf : Value → Text) : Wire Result (Option Value) where
  jsonableEncoder
    | .value v => (encode v).map some
    | .rejected _ => none
  str
    | .value v => some (.str (strOf v))
    | .rejected s => s.map .str
  renders safeResult := (safeResult.bind fun v => render (content v)).isSome

/-! ## Values that can be answered -/

def Key.sendable : Key → Bool
  | .int i => shortInt (.int i)
  | .float x => x.isFinite
  | .str t => t.all isScalar
  | .null | .bool _ => true

mutual

/-- The value has no NaN and no infinity, no integer past the limit and no lone surrogate. -/
def Value.sendable : Value → Bool
  | .int i => shortInt (.int i)
  | .float x => x.isFinite
  | .str t => t.all isScalar
  | .list vs => sendableElems vs
  | .dict ms => sendableMembers ms
  | .null | .bool _ => true

def sendableElems : List Value → Bool
  | [] => true
  | v :: vs => v.sendable && sendableElems vs

def sendableMembers : List (Key × Value) → Bool
  | [] => true
  | (k, v) :: ms => k.sendable && v.sendable && sendableMembers ms

end

def Key.kept (keep : Text → Bool) : Key → Bool
  | .str t => keep t
  | _ => true

mutual

/-- The value without the members whose text key is not kept. -/
def Value.kept (keep : Text → Bool) : Value → Value
  | .list vs => .list (keptElems keep vs)
  | .dict ms => .dict (keptMembers keep ms)
  | v => v

def keptElems (keep : Text → Bool) : List Value → List Value
  | [] => []
  | v :: vs => v.kept keep :: keptElems keep vs

def keptMembers (keep : Text → Bool) : List (Key × Value) → List (Key × Value)
  | [] => []
  | (k, v) :: ms => if k.kept keep then (k, v.kept keep) :: keptMembers keep ms else keptMembers keep ms

end

/-- The result can be answered: what the encoder keeps of it is sendable, or its `str` is
    where the encoder rejects it. -/
def answerable (encode : Value → Option Value) (strOf : Value → Text) (keep : Text → Bool) : Result → Bool
  | .value v => if (encode v).isSome then (v.kept keep).sendable else (strOf v).all isScalar
  | .rejected s => s.any fun t => t.all isScalar

/-! ## What can be rendered -/

theorem isScalar_ofChar (c : Char) : isScalar (CodePoint.ofChar c) = true := by
  have h := c.valid
  have hlt : c.toNat < 0x110000 := by
    show c.val.toNat < _
    rcases h with h | h <;> omega
  have hval : (CodePoint.ofChar c).val = c.toNat := Nat.mod_eq_of_lt hlt
  have h : c.toNat < 0xd800 ∨ 0xdfff < c.toNat ∧ c.toNat < 0x110000 := h
  simp only [isScalar, isHigh, isLow, hval, Bool.and_eq_true, Bool.not_eq_true', Bool.and_eq_false_iff, decide_eq_false_iff_not]
  omega

theorem scalar_chars (cs : List Char) : (cs.map CodePoint.ofChar).all isScalar = true := by
  rw [List.all_map, List.all_eq_true]
  exact fun c _ => isScalar_ofChar c

theorem key_text (k : Key) : (k.text.any fun t => t.all isScalar) = k.sendable := by
  cases k with
  | null => exact scalar_chars _
  | bool b => exact scalar_chars _
  | int i =>
    cases h : shortInt (.int i) with
    | true => simp only [Key.text, Key.sendable, h, if_true, Option.any_some, scalar_chars]
    | false => simp [Key.text, Key.sendable, h]
  | float x =>
    cases h : x.isFinite with
    | true => simp only [Key.text, Key.sendable, h, if_true, Option.any_some, scalar_chars]
    | false => simp [Key.text, Key.sendable, h]
  | str t => rfl

/-- The node of a tree that both stages of the rendering take. -/
def plainNode (j : Json) : Bool := shortInt j && finiteFloat j && scalarText j

mutual

theorem json_plain : (v : Value) → (v.json.any fun j => j.all plainNode) = v.sendable
  | .null => rfl
  | .bool _ => rfl
  | .int i => by simp [Value.json, Value.sendable, Json.all, plainNode, finiteFloat, scalarText]
  | .float x => by simp [Value.json, Value.sendable, Json.all, plainNode, shortInt, finiteFloat, scalarText]
  | .str t => by simp [Value.json, Value.sendable, Json.all, plainNode, shortInt, finiteFloat, scalarText]
  | .list vs => by
    rw [Value.json, Value.sendable, ← elems_plain vs, Option.any_map]
    rfl
  | .dict ms => by
    rw [Value.json, Value.sendable, ← members_plain ms, Option.any_map]
    rfl

theorem elems_plain : (vs : List Value) → ((jsonElems vs).any fun js => Json.allElems plainNode js) = sendableElems vs
  | [] => rfl
  | v :: vs => by
    rw [sendableElems, ← json_plain v, ← elems_plain vs]
    simp only [jsonElems]
    cases v.json with
    | none => rfl
    | some j =>
      cases jsonElems vs with
      | none => simp
      | some js => rfl

theorem members_plain : (ms : List (Key × Value)) →
    ((jsonMembers ms).any fun js => (js.all fun m => m.1.all isScalar) && Json.allMembers plainNode js) = sendableMembers ms
  | [] => rfl
  | (k, v) :: ms => by
    rw [sendableMembers, ← key_text k, ← json_plain v, ← members_plain ms]
    simp only [jsonMembers]
    cases k.text with
    | none => rfl
    | some t =>
      cases v.json with
      | none => simp
      | some j =>
        cases jsonMembers ms with
        | none => simp
        | some js =>
          simp only [Option.bind_some, Option.map_some, Option.any_some, List.all_cons, Json.allMembers]
          cases t.all isScalar <;> cases j.all plainNode <;> simp

end

theorem render_isSome (v : Value) : (render v).isSome = v.sendable := by
  rw [← json_plain v, render]
  cases v.json with
  | none => rfl
  | some j =>
    have h : j.all plainNode = (j.all shortInt && j.all finiteFloat && j.all scalarText) := by
      rw [← Json.all_and, ← Json.all_and]
      rfl
    rw [Option.bind_some, Option.any_some, h, dumps]
    cases j.all shortInt <;> cases j.all finiteFloat <;> cases j.all scalarText <;> rfl

theorem sendable_content (v : Value) : (content v).sendable = v.sendable := by
  have hs (s : String) : (Text.ofString s).all isScalar = true := scalar_chars s.toList
  simp [content, Value.sendable, sendableMembers, Key.sendable, hs]

/-! ## The answer and the store -/

variable {Args : Type}

/-- `build_api` with a store and tools. -/
def app (expectedToken : String) (codec : Codec Args) (encode : Value → Option Value) (strOf : Value → Text) :
    App Args Result (Option Value) :=
  { expectedToken := expectedToken, codec := codec, wire := wire encode strOf }

/-- `POST /proposals/{proposal_id}/approve` with the token. -/
def approve (expectedToken proposalId : String) : Request := ⟨.approve, proposalId, some ("Bearer " ++ expectedToken)⟩

/-- The answer is 200 `applied` iff the row is applied, and 500 with the row's error iff
    it is failed. -/
def Agrees (answered : Lifecycle.Answer Args (Option Value)) (row : Option Row) : Prop :=
  ((∃ v, answered = .responded (.answered ⟨200, .applied v⟩)) ↔ row.map (·.status) = some .applied) ∧
    ((∃ e, answered = .responded (.answered ⟨500, .error e⟩) ∧ row.bind (·.error) = some e) ↔
      row.map (·.status) = some .failed)

/-- What `mcp_call` comes to for the store. -/
def decision : Except String Result → Decision Result
  | .ok result => .applied result
  | .error e => .failed e

/-- An approve request for a pending proposal: the decision is stored, then answered. -/
theorem serve_approve (token : String) {pid : String} {codec : Codec Args} (encode : Value → Option Value) (strOf : Value → Text)
    {s : St Args Result (Option Value)} {record : ProposalRecord Args} (hget : get codec s.table pid = some (some record))
    (hp : record.status = .pending) (outcome : Except String Result) :
    ∃ t, ∃ row : Row, serve (app token codec encode strOf) s (.decide (approve token pid) outcome) =
        (.responded (answer (app token codec encode strOf) (decision outcome)), t) ∧
      t.table.get pid = some (row.withStatus (decision outcome).status (decision outcome).error) := by
  obtain ⟨row, hrow, -⟩ := get_record hget
  have hid : row.id = pid := (Keyed.get_some hrow).2
  have hv : verifyToken (app token codec encode strOf) (approve token pid).authorization = true := by
    simp [verifyToken, approve, app]
  have hreads := Lifecycle.drive_reads (s := s) (r := approve token pid) outcome rfl rfl hv hget
  have hd : Lifecycle.decisionOn record (approve token pid).endpoint outcome =
      (decision outcome, [⟨record.id, record.action, record.arguments⟩]) := by
    cases outcome <;> rfl
  obtain ⟨returned, hdecides⟩ := Lifecycle.drive_decides (s := s) (app token codec encode strOf)
    (h := ⟨approve token pid, .got (some record), some record⟩) rfl hp hrow hd
  refine ⟨_, row, Lifecycle.serve_decide (hreads.trans hdecides) rfl rfl, ?_⟩
  rw [← hid]
  exact Keyed.get_set_same s.table (row.withStatus (decision outcome).status (decision outcome).error)

/-- The endpoint can make an answer of the result. -/
theorem renders_answerable {encode : Value → Option Value} (strOf : Value → Text) {keep : Text → Bool}
    (hencode : ∀ v w, encode v = some w → w = v.kept keep) (result : Result) :
    (wire encode strOf).renders (((wire encode strOf).jsonableEncoder result).getD ((wire encode strOf).str result)) =
      answerable encode strOf keep result := by
  cases result with
  | value v =>
    cases hv : encode v with
    | none =>
      simp only [wire, answerable, hv, Option.map_none, Option.getD_none, Option.bind_some, render_isSome, sendable_content,
        Option.isSome_none, Bool.false_eq_true, if_false, Value.sendable]
    | some w =>
      simp only [wire, answerable, hv, Option.map_some, Option.getD_some, Option.bind_some, render_isSome, sendable_content,
        Option.isSome_some, if_true, hencode v w hv]
  | rejected text =>
    cases text with
    | none => rfl
    | some t => simp [wire, answerable, render_isSome, sendable_content, Value.sendable]

/-- The answer agrees with the stored decision iff `mcp_call` raised, or returned a result
    that can be answered. -/
theorem approve_agrees (token pid : String) (codec : Codec Args) (encode : Value → Option Value) (strOf : Value → Text)
    (keep : Text → Bool) (hencode : ∀ v w, encode v = some w → w = v.kept keep) (s : St Args Result (Option Value))
    (record : ProposalRecord Args) (hget : get codec s.table pid = some (some record)) (hp : record.status = .pending)
    (outcome : Except String Result) :
    let served := serve (app token codec encode strOf) s (.decide (approve token pid) outcome)
    Agrees served.1 (served.2.table.get pid) ↔
      ∀ result, outcome = .ok result → answerable encode strOf keep result = true := by
  obtain ⟨t, row, hserve, hrow⟩ := serve_approve token encode strOf hget hp outcome
  simp only [hserve, hrow]
  cases outcome with
  | error e =>
    refine iff_of_true ⟨?_, ?_⟩ fun result h => (by cases h)
    · simp [decision, answer, Decision.status, Row.withStatus]
    · simp [decision, answer, Decision.status, Decision.error, Row.withStatus]
  | ok result =>
    have hr := renders_answerable strOf hencode result
    cases ha : answerable encode strOf keep result with
    | true =>
      refine iff_of_true ⟨?_, ?_⟩ fun _ h => by cases h; exact ha
      · simp [decision, answer, app, hr, ha, Decision.status, Row.withStatus]
      · simp [decision, answer, app, hr, ha, Decision.status, Row.withStatus]
    | false =>
      refine iff_of_false (fun hag => ?_) fun h => by simp [h result rfl] at ha
      have := hag.1.mpr (by simp [decision, Decision.status, Row.withStatus])
      simp [decision, answer, app, hr, ha] at this

/-! ## A server with one pending proposal -/

def demoRow : Row := ⟨"p", "a", "r", "retag", "\x7b\x7d", "why", .pending, "0001-01-01T00:00:00+00:00", none⟩

def demoTable : Table := Keyed.empty Row.id |>.set demoRow

/-- The encoder leaves out what starts with `_sa`. -/
def keepsKey (t : Text) : Bool := !(Text.ofString "_sa").isPrefixOf t

def demoServe (outcome : Except String Result) : Lifecycle.Answer Unit (Option Value) × St Unit Result (Option Value) :=
  serve (app "t" emptyArgs (fun v => some (v.kept keepsKey)) fun _ => []) (Api.init demoTable) (.decide (approve "t" "p") outcome)

def demoResult : Value :=
  .dict [(.str (Text.ofString "merged"), .str (Text.ofString "yes")), (.str (Text.ofString "count"), .int 3),
    (.str (Text.ofString "_sa_instance_state"), .float .nan)]

theorem approve_agrees_dict :
    Agrees (demoServe (.ok (.value demoResult))).1 ((demoServe (.ok (.value demoResult))).2.table.get "p") := by
  refine (approve_agrees "t" "p" emptyArgs (fun v => some (v.kept keepsKey)) (fun _ => []) keepsKey ?_ (Api.init demoTable)
    ⟨"p", "a", "r", "retag", (), "why", .pending, 0, none⟩ ?_ rfl _).mpr ?_
  · exact fun v w h => (Option.some.inj h).symm
  · rfl
  · intro result h
    cases h
    rfl

/-- A tool returns NaN: the proposal is applied, and the answer is a bare 500. -/
theorem nan_answers_raised :
    (demoServe (.ok (.value (.float .nan)))).1 = .responded .raised ∧
      ((demoServe (.ok (.value (.float .nan)))).2.table.get "p").map (·.status) = some .applied ∧
      ¬ Agrees (demoServe (.ok (.value (.float .nan)))).1 ((demoServe (.ok (.value (.float .nan)))).2.table.get "p") := by
  have hraised : (demoServe (.ok (.value (.float .nan)))).1 = .responded .raised := rfl
  have happlied : ((demoServe (.ok (.value (.float .nan)))).2.table.get "p").map (·.status) = some .applied := rfl
  refine ⟨hraised, happlied, fun h => ?_⟩
  obtain ⟨v, hv⟩ := h.1.mpr happlied
  rw [hraised] at hv
  cases hv

end SagaAgents.Triggers.ApproveResult
