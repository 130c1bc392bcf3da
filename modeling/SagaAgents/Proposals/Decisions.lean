/-
  SagaAgents.Proposals.Decisions — approve and reject requests racing for a proposal.

  Each endpoint reads the proposal, acts if it is pending, and stores its decision with
  an unconditional UPDATE. So the handlers of one proposal are the actors of
  `Lib.CheckThenAct` on one cell (`view`, `view_step`): a handler that read the row as
  pending has seen the cell open, `resume` runs the tool (an approve) or nothing (a
  reject), and `commits` writes.

  Proved, over every interleaving with a store that does not fail:
  - `approve_at_most_once`: if no approve reads the row as pending while another approve
    of the same proposal that did so has not stored its decision, the tool is invoked at
    most once for each proposal. Nothing weaker will do: `overlapping_reads_call_twice`.
  - `decisions_final`: if no request reads the row as pending while another one that did
    so has not stored its decision, two rejects excepted, a stored decision never changes,
    and a proposal whose reject was acknowledged is rejected and its tool never invoked.
  The endpoints check neither condition: `approve_runs_twice`, `reject_acknowledged_then_applied`.
-/

import SagaAgents.Lib.CheckThenAct
import SagaAgents.Lib.Tasks
import SagaAgents.Triggers.Api

namespace SagaAgents.Proposals

open Lib Lib.CheckThenAct
open Triggers.Api (Endpoint Request Pc Handler App St Ev Move Advance Effect Decision init healthy demoApp authorised)

variable {Args Val Out : Type}

/-! ## Handlers as actors on a cell -/

def runsTool : Endpoint → Bool
  | .approve => true
  | .reject => false

/-- The statuses an endpoint can store. -/
def stores : Endpoint → Option Status → Prop
  | .approve, s => s = some .applied ∨ s = some .failed
  | .reject, s => s = some .rejected

def phaseOf (pid : String) (h : Handler Args Val Out) : Phase Endpoint :=
  if h.req.proposalId = pid then
    match h.pc with
    | .got (some r) => if r.status = .pending then .saw h.req.endpoint else .idle
    | .calling _ => .acted h.req.endpoint
    | .setting _ => .acted h.req.endpoint
    | _ => .idle
  else .idle

/-- Open while the row is pending. -/
def cellOf (t : Table) (pid : String) : Option (Option Status) :=
  if statusOf t pid = some .pending then none else some (statusOf t pid)

def view (pid : String) (s : St Args Val Out) : Race Endpoint (Option Status) :=
  ⟨cellOf s.table pid, fun i => s.handlers[i]?.elim .idle (phaseOf pid), (s.callsFor pid).length⟩

/-- The handler has read its proposal as pending and has not stored a decision. -/
def deciding (pid : String) (h : Handler Args Val Out) : Bool :=
  match phaseOf pid h with
  | .idle => false
  | _ => true

/-- The event is a `store.get` that finds its proposal pending while a handler of the
    same proposal that clashes with its own is deciding. -/
def overlaps (clash : Endpoint → Endpoint → Bool) (api : App Args Val Out) (s : St Args Val Out) : Ev Val → Bool
  | .move i .read =>
    match s.handlers[i]? with
    | none => false
    | some h =>
      match Proposals.get api.codec s.table h.req.proposalId with
      | some (some r) => r.status == .pending &&
          s.handlers.any fun h' => deciding h.req.proposalId h' && clash h.req.endpoint h'.req.endpoint
      | _ => false
  | _ => false

def bothApprove (a b : Endpoint) : Bool := a == .approve && b == .approve

def notBothReject (a b : Endpoint) : Bool := !(a == .reject && b == .reject)

/-! ## What every handler keeps -/

/-- A handler past its check has a row, and what it stores is its endpoint's. -/
def HandlerOk (t : Table) (h : Handler Args Val Out) : Prop :=
  match h.pc with
  | .got (some _) => (statusOf t h.req.proposalId).isSome
  | .calling _ => h.req.endpoint = .approve ∧ (statusOf t h.req.proposalId).isSome
  | .setting d => stores h.req.endpoint (some d.status) ∧ (statusOf t h.req.proposalId).isSome
  | .stored d _ => stores h.req.endpoint (some d.status)
  | _ => True

theorem handlerOk_table {t t' : Table} {h : Handler Args Val Out}
    (hr : (statusOf t' h.req.proposalId).isSome = (statusOf t h.req.proposalId).isSome) (hs : HandlerOk t h) :
    HandlerOk t' h := by
  unfold HandlerOk at hs ⊢
  split <;> simp_all

theorem handlerOk_move {api : App Args Val Out} {i : Nat} {t : Table} {h : Handler Args Val Out} {m : Move Val}
    {f : Effect Args Val Out} (hs : HandlerOk t h) (ha : Advance api i t h m f) : HandlerOk f.table f.handler := by
  cases ha with
  | read record hp hg =>
    cases record with
    | none => trivial
    | some r =>
      show (statusOf t h.req.proposalId).isSome
      rw [get_status hg]
      rfl
  | invoke record hp hst he =>
    simp only [HandlerOk, hp] at hs
    exact ⟨he, hs⟩
  | decline record hp hst he =>
    simp only [HandlerOk, hp] at hs
    exact ⟨by show stores h.req.endpoint _; rw [he]; rfl, hs⟩
  | mcpReturns record v hp =>
    simp only [HandlerOk, hp] at hs
    exact ⟨by show stores h.req.endpoint _; rw [hs.1]; exact Or.inl rfl, hs.2⟩
  | mcpRaises record e hp =>
    simp only [HandlerOk, hp] at hs
    exact ⟨by show stores h.req.endpoint _; rw [hs.1]; exact Or.inr rfl, hs.2⟩
  | commits d hp =>
    simp only [HandlerOk, hp] at hs
    exact hs.1
  | _ => trivial

def AllOk (s : St Args Val Out) : Prop := ∀ h ∈ s.handlers, HandlerOk s.table h

theorem allOk_step {api : App Args Val Out} {s t : St Args Val Out} {e : Ev Val} (hs : AllOk s)
    (h : Triggers.Api.step api s e = some t) : AllOk t := by
  refine Triggers.Api.handlers_step (P := HandlerOk) (fun t r => ?_) (fun i t h m f hs ha => handlerOk_move hs ha)
    (fun i t h m f h' hs ha => handlerOk_table (ha.rows _) hs) hs h
  rcases Triggers.Api.enter_cases api r with ⟨he, -⟩ | ⟨a, he, -⟩ <;> simp [HandlerOk, he]

/-! ## The simulation -/

theorem cellOf_open {t : Table} {pid : String} : cellOf t pid = none ↔ statusOf t pid = some .pending := by
  unfold cellOf
  split
  · simp_all
  · simp_all

theorem cellOf_decided {t : Table} {pid : String} {s : Status} (h : s ≠ .pending) :
    cellOf t pid = some (some s) ↔ statusOf t pid = some s := by
  unfold cellOf
  split
  · rename_i hp
    rw [hp]
    constructor
    · intro e; cases e
    · intro e; cases e; exact absurd rfl h
  · simp

theorem Decision.status_ne (d : Decision Val) : d.status ≠ .pending := by
  cases d <;> intro h <;> cases h

theorem view_apply {pid : String} {s : St Args Val Out} {i : Nat} {h : Handler Args Val Out} {f : Effect Args Val Out}
    (hh : s.handlers[i]? = some h) :
    view pid (s.apply i f) =
      ⟨cellOf f.table pid, Function.update (view pid s).phase i (phaseOf pid f.handler),
        (s.callsFor pid).length + (f.calls.filter (·.proposalId == pid)).length⟩ := by
  have hi : i < s.handlers.length := (List.getElem?_eq_some_iff.mp hh).1
  simp only [view, Triggers.Api.St.apply, Triggers.Api.St.callsFor, List.filter_append, List.length_append]
  congr 1
  funext j
  by_cases e : j = i
  · subst e; simp [hi]
  · rw [Function.update_of_ne e, List.getElem?_set_ne (Ne.symm e)]

/-- A move that neither changes its handler's phase nor the row nor invokes a tool. -/
theorem view_stutter {pid : String} {s : St Args Val Out} {i : Nat} {h : Handler Args Val Out} {f : Effect Args Val Out}
    (hh : s.handlers[i]? = some h) (hp : phaseOf pid f.handler = phaseOf pid h) (ht : cellOf f.table pid = cellOf s.table pid)
    (hc : f.calls.filter (·.proposalId == pid) = []) : view pid (s.apply i f) = view pid s := by
  have hv : (view pid s).phase i = phaseOf pid h := by simp [view, hh]
  rw [view_apply hh, hc, hp, ← hv, Function.update_eq_self, ht]
  rfl

theorem view_request {pid : String} {api : App Args Val Out} {s : St Args Val Out} {r : Request} :
    view pid { s with handlers := s.handlers ++ [⟨r, Triggers.Api.enter api r, none⟩] } = view pid s := by
  have hnew : phaseOf pid (⟨r, Triggers.Api.enter api r, none⟩ : Handler Args Val Out) = .idle := by
    rcases Triggers.Api.enter_cases api r with ⟨he, -⟩ | ⟨a, he, -⟩ <;> simp [phaseOf, he]
  simp only [view, Triggers.Api.St.callsFor]
  congr 1
  funext j
  rcases Nat.lt_trichotomy j s.handlers.length with hj | hj | hj
  · rw [List.getElem?_append_left hj]
  · subst hj; simp [hnew]
  · rw [List.getElem?_eq_none (by simp; omega), List.getElem?_eq_none (by omega)]

/-- The moves of a handler of another proposal are not seen. -/
theorem view_other {api : App Args Val Out} {pid : String} {s : St Args Val Out} {i : Nat} {h : Handler Args Val Out}
    {m : Move Val} {f : Effect Args Val Out} (hh : s.handlers[i]? = some h) (ha : Advance api i s.table h m f)
    (hne : h.req.proposalId ≠ pid) : view pid (s.apply i f) = view pid s := by
  refine view_stutter hh (by simp [phaseOf, ha.req, hne]) ?_ ?_
  · rcases ha.table with e | ⟨d, -, e⟩
    · rw [e]
    · rw [e, cellOf, cellOf, statusOf_setStatus_ne (Ne.symm hne)]
  · cases ha <;> simp [hne]

theorem busy_deciding {pid : String} {s : St Args Val Out} {j : Nat} {k : Endpoint} (hb : (view pid s).Busy j k) :
    ∃ h, s.handlers[j]? = some h ∧ h.req.proposalId = pid ∧ deciding pid h = true ∧ h.req.endpoint = k := by
  unfold Race.Busy view at hb
  cases hh : s.handlers[j]? with
  | none => simp [hh] at hb
  | some h =>
    simp only [hh, Option.elim_some] at hb
    refine ⟨h, rfl, ?_⟩
    unfold deciding
    unfold phaseOf at hb ⊢
    by_cases hp : h.req.proposalId = pid
    · simp only [hp, if_true] at hb ⊢
      refine ⟨trivial, ?_⟩
      split at hb
      · split at hb <;> rename_i hs <;> simp_all
      · simp_all
      · simp_all
      · simp_all
    · simp [hp] at hb

/-- A handler's part in the race: it reads apart from clashing ones, and stores what its
    endpoint can. -/
abbrev Orderly (clash : Endpoint → Endpoint → Bool) (s : Race Endpoint (Option Status))
    (e : CheckThenAct.Ev Endpoint (Option Status)) : Prop :=
  Apart (fun a b => clash a b = true) s e ∧ Bound stores s e

theorem view_read {clash : Endpoint → Endpoint → Bool} {api : App Args Val Out} {s : St Args Val Out} {i : Nat}
    {hd : Handler Args Val Out} {r : ProposalRecord Args} (ho : overlaps clash api s (.move i .read) = false)
    (hi : s.handlers[i]? = some hd) (hp : hd.pc = .getting) (hg : Proposals.get api.codec s.table hd.req.proposalId = some (some r))
    (hst : r.status = .pending) :
    Run (CheckThenAct.step runsTool) (Orderly clash) (view hd.req.proposalId s)
      (view hd.req.proposalId (s.apply i { handler := { hd with pc := .got (some r), fetched := some r }, table := s.table })) := by
  have hcell : (view hd.req.proposalId s).cell = none := by
    show cellOf s.table hd.req.proposalId = none
    rw [cellOf_open, get_status hg, hst]
  have hidle : (view hd.req.proposalId s).phase i = .idle := by simp [view, hi, phaseOf, hp]
  refine Run.single (.see i hd.req.endpoint) ⟨?_, trivial⟩ ?_
  · intro b k hb hcl
    -- a busy clashing actor is a deciding handler, and the read would overlap it
    obtain ⟨h', hh', hp', hd', rfl⟩ := busy_deciding hb
    have hover : overlaps clash api s (.move i .read) = true := by
      simp only [overlaps, hi, hg, hst, BEq.rfl, Bool.true_and]
      exact List.any_eq_true.mpr ⟨h', List.mem_of_getElem? hh', by rw [hd', hcl]; rfl⟩
    rw [hover] at ho
    cases ho
  · rw [view_apply hi]
    simp only [CheckThenAct.step, hcell, hidle]
    simp [phaseOf, hst, view] at hcell ⊢
    exact hcell.symm

/-- A handler that saw its row pending goes on: it runs its tool if it is an approve. -/
theorem view_acts {clash : Endpoint → Endpoint → Bool} {pid : String} {s : St Args Val Out} {i : Nat}
    {hd : Handler Args Val Out} {f : Effect Args Val Out} {k : Endpoint} (hi : s.handlers[i]? = some hd)
    (hsaw : phaseOf pid hd = .saw k) (hacted : phaseOf pid f.handler = .acted k) (ht : f.table = s.table)
    (hc : (f.calls.filter (·.proposalId == pid)).length = if runsTool k then 1 else 0) :
    Run (CheckThenAct.step runsTool) (Orderly clash) (view pid s) (view pid (s.apply i f)) := by
  have hphase : (view pid s).phase i = .saw k := by simp [view, hi, hsaw]
  refine Run.single (.act i) ⟨trivial, trivial⟩ ?_
  rw [view_apply hi, hacted, ht, hc]
  simp only [CheckThenAct.step, hphase]
  cases k <;> rfl

theorem view_commits {clash : Endpoint → Endpoint → Bool} {s : St Args Val Out} {i : Nat} {hd : Handler Args Val Out}
    {d : Decision Val} (hi : s.handlers[i]? = some hd) (hp : hd.pc = .setting d) (hok : HandlerOk s.table hd) :
    Run (CheckThenAct.step runsTool) (Orderly clash) (view hd.req.proposalId s)
      (view hd.req.proposalId (s.apply i
        { handler := hd.to (.stored d (setStatus s.table hd.req.proposalId d.status d.error).1),
          table := (setStatus s.table hd.req.proposalId d.status d.error).2 })) := by
  have hphase : (view hd.req.proposalId s).phase i = .acted hd.req.endpoint := by simp [view, hi, phaseOf, hp]
  simp only [HandlerOk, hp] at hok
  obtain ⟨st, hst⟩ := Option.isSome_iff_exists.mp hok.2
  have hcell : cellOf (setStatus s.table hd.req.proposalId d.status d.error).2 hd.req.proposalId = some (some d.status) := by
    rw [cellOf_decided (Decision.status_ne d), statusOf_setStatus_same hst]
  refine Run.single (.write i (some d.status)) ⟨trivial, ?_⟩ ?_
  · intro k hk
    cases hphase.symm.trans hk
    exact hok.1
  · rw [view_apply hi]
    simp only [CheckThenAct.step, hphase, hcell]
    simp [phaseOf, view]

/-- One step of the endpoints is at most one step of the race for each proposal. -/
theorem view_step {clash : Endpoint → Endpoint → Bool} {api : App Args Val Out} {s t : St Args Val Out} {e : Ev Val}
    (hs : AllOk s) (hh : healthy e = true) (ho : overlaps clash api s e = false) (h : Triggers.Api.step api s e = some t)
    (pid : String) : Run (CheckThenAct.step runsTool) (Orderly clash) (view pid s) (view pid t) := by
  rcases Triggers.Api.step_cases h with ⟨r, rfl, rfl⟩ | ⟨i, m, hd, f, rfl, hi, ha, rfl⟩
  · rw [view_request]; exact .refl _
  by_cases hpid : hd.req.proposalId = pid
  case neg => rw [view_other hi ha hpid]; exact .refl _
  subst hpid
  cases ha with
  | unreadable hp hg => rw [view_stutter hi (by simp [phaseOf, hp]) rfl rfl]; exact .refl _
  | read record hp hg =>
    by_cases hr : ∃ r, record = some r ∧ r.status = .pending
    · obtain ⟨r, hr, hst⟩ := hr
      subst hr
      exact view_read ho hi hp hg hst
    · rw [view_stutter hi ?_ rfl rfl]
      · exact .refl _
      · cases record with
        | none => simp [phaseOf, hp]
        | some r =>
          have hne : r.status ≠ .pending := fun e => hr ⟨r, rfl, e⟩
          simp [phaseOf, hp, hne]
  | readFails hp => cases hh
  | missing record hp hm =>
    rw [view_stutter hi ?_ rfl rfl]
    · exact .refl _
    · cases record with
      | none => simp [phaseOf, hp]
      | some r => simp [phaseOf, hp, hm r rfl]
  | invoke record hp hst he =>
    exact view_acts (k := .approve) hi (by simp [phaseOf, hp, hst, he]) (by simp [phaseOf, he]) rfl (by simp [runsTool])
  | decline record hp hst he =>
    exact view_acts (k := .reject) hi (by simp [phaseOf, hp, hst, he]) (by simp [phaseOf, he]) rfl (by simp [runsTool])
  | mcpReturns record v hp => rw [view_stutter hi (by simp [phaseOf, hp]) rfl rfl]; exact .refl _
  | mcpRaises record e hp => rw [view_stutter hi (by simp [phaseOf, hp]) rfl rfl]; exact .refl _
  | commits d hp => exact view_commits hi hp (hs hd (List.mem_of_getElem? hi))
  | setFails hp => cases hh
  | finishes d b hp => rw [view_stutter hi (by simp [phaseOf, hp]) rfl rfl]; exact .refl _
  | cancel hp => cases hh

/-! ## At most one invocation -/

/-- Allowed steps: the store does not fail, no task is cancelled, and no read overlaps
    a clashing handler. -/
def Allowed (clash : Endpoint → Endpoint → Bool) (api : App Args Val Out) (s : St Args Val Out) (e : Ev Val) : Prop :=
  healthy e = true ∧ overlaps clash api s e = false

instance (clash : Endpoint → Endpoint → Bool) (api : App Args Val Out) (s : St Args Val Out) (e : Ev Val) :
    Decidable (Allowed clash api s e) := inferInstanceAs (Decidable (_ ∧ _))

/-- A run of the endpoints is a run of the race, for each proposal. -/
theorem view_run {clash : Endpoint → Endpoint → Bool} {api : App Args Val Out} {s t : St Args Val Out} (hs : AllOk s)
    (h : Run (Triggers.Api.step api) (Allowed clash api) s t) (pid : String) :
    Run (CheckThenAct.step runsTool) (Orderly clash) (view pid s) (view pid t) :=
  h.simulate (view pid) (fun _ _ _ hs _ h => allOk_step hs h) (fun _ _ _ hs ho h => view_step hs ho.1 ho.2 h pid) hs

theorem allOk_init (t : Table) : AllOk (init t : St Args Val Out) := by
  intro h hm; cases hm

theorem view_init (t : Table) (pid : String) : (view pid (init t : St Args Val Out)).Fresh :=
  ⟨fun _ => rfl, rfl⟩

/-- At most one invocation for each proposal, when no approve reads a pending row while
    another approve of the same proposal is deciding. -/
theorem approve_at_most_once (api : App Args Val Out) (t : Table) {s : St Args Val Out}
    (h : Run (Triggers.Api.step api) (Allowed bothApprove api) (init t) s) :
    ∀ pid, (s.callsFor pid).length ≤ 1 := by
  intro pid
  have hrun := (view_run (allOk_init t) h pid).mono fun _ _ ho => ho.1
  refine effects_le_one (fun k k' hk hk' => ?_) hrun (view_init t pid)
  cases k with
  | approve =>
    cases k' with
    | approve => rfl
    | reject => exact absurd hk' (by decide)
  | reject => exact absurd hk (by decide)

/-- A handler that has read a pending row, and is an approve, can run the tool next. -/
theorem resume_calls (api : App Args Val Out) {s : St Args Val Out} {i : Nat} {h : Handler Args Val Out}
    {r : ProposalRecord Args} (hh : s.handlers[i]? = some h) (hp : h.pc = .got (some r)) (hr : r.status = .pending)
    (he : h.req.endpoint = .approve) :
    ∃ t, Triggers.Api.step api s (.move i .resume) = some t ∧
      (t.callsFor h.req.proposalId).length = (s.callsFor h.req.proposalId).length + 1 ∧
      ∀ j, j ≠ i → t.handlers[j]? = s.handlers[j]? := by
  refine ⟨s.apply i { handler := h.to (.calling r), table := s.table,
                      calls := [⟨i, h.req.proposalId, r.action, r.arguments⟩] },
    ?_, ?_, fun j hj => List.getElem?_set_ne (Ne.symm hj)⟩
  · simp only [Triggers.Api.step, hh, Option.bind_some, Triggers.Api.advance, hp]
    simp [Triggers.Api.afterGet, hr, he, Triggers.Api.applyProposal]
  · simp [Triggers.Api.St.apply, Triggers.Api.St.callsFor]

theorem deciding_cases {pid : String} {h : Handler Args Val Out} (hd : deciding pid h = true) :
    h.req.proposalId = pid ∧ ((∃ r, h.pc = .got (some r) ∧ r.status = .pending ∧ phaseOf pid h = .saw h.req.endpoint) ∨
      phaseOf pid h = .acted h.req.endpoint) := by
  unfold deciding at hd
  split at hd
  · cases hd
  · rename_i hne
    unfold phaseOf at hne ⊢
    by_cases e : h.req.proposalId = pid
    · simp only [e, if_true] at hne ⊢
      refine ⟨trivial, ?_⟩
      split
      · rename_i r hp
        by_cases hr : r.status = .pending
        · exact Or.inl ⟨r, hp, hr, by simp [hr]⟩
        · simp [hp, hr] at hne
      · exact Or.inr rfl
      · exact Or.inr rfl
      · simp_all
    · simp [e] at hne

/-- What an overlapping read finds, and what it leaves. -/
theorem overlap_cases {clash : Endpoint → Endpoint → Bool} {api : App Args Val Out} {s t : St Args Val Out} {i : Nat}
    (ho : overlaps clash api s (.move i .read) = true) (h : Triggers.Api.step api s (.move i .read) = some t) :
    ∃ hd r j h', s.handlers[i]? = some hd ∧ r.status = .pending ∧ j ≠ i ∧ s.handlers[j]? = some h' ∧
      deciding hd.req.proposalId h' = true ∧ clash hd.req.endpoint h'.req.endpoint = true ∧
      t = s.apply i { handler := { hd with pc := .got (some r), fetched := some r }, table := s.table } := by
  rcases Triggers.Api.step_cases h with ⟨r, he, -⟩ | ⟨i', m, hd, f, he, hi, ha, rfl⟩
  · cases he
  injection he with he1 he2
  subst he1; subst he2
  simp only [overlaps, hi] at ho
  split at ho
  case h_2 => cases ho
  rename_i r hg
  simp only [Bool.and_eq_true, beq_iff_eq, List.any_eq_true] at ho
  obtain ⟨hr, h', hm, hdec, hcl⟩ := ho
  obtain ⟨j, hj⟩ := List.getElem?_of_mem hm
  cases ha with
  | unreadable _ hg' => rw [hg'] at hg; cases hg
  | read record hp hg' =>
    rw [hg'] at hg; cases hg
    refine ⟨hd, r, j, h', hi, hr, ?_, hj, hdec, hcl, rfl⟩
    intro e
    subst e
    rw [hi] at hj; cases hj
    simp [deciding, phaseOf, hp] at hdec

theorem never_overlaps (api : App Args Val Out) (s : St Args Val Out) (e : Ev Val) :
    overlaps (fun _ _ => false) api s e = false := by
  unfold overlaps
  split
  · split
    · rfl
    · split
      · simp
      · rfl
  · rfl

/-- The condition of `approve_at_most_once` is exact: once an approve read a pending row
    while another approve of the proposal is deciding, the tool can run twice. -/
theorem overlapping_reads_call_twice (api : App Args Val Out) (t : Table) {s s' : St Args Val Out}
    (h : Run (Triggers.Api.step api) (fun _ e => healthy e = true) (init t) s) {i : Nat}
    (ho : overlaps bothApprove api s (.move i .read) = true) (hs' : Triggers.Api.step api s (.move i .read) = some s') :
    ∃ u pid, Run (Triggers.Api.step api) (fun _ e => healthy e = true) s' u ∧ 2 ≤ (u.callsFor pid).length := by
  obtain ⟨hd, r, j, h', hi, hr, hne, hj, hdec, hcl, he⟩ := overlap_cases ho hs'
  simp only [bothApprove, Bool.and_eq_true, beq_iff_eq] at hcl
  have hlen : i < s.handlers.length := (List.getElem?_eq_some_iff.mp hi).1
  have hi1 : s'.handlers[i]? = some { hd with pc := .got (some r), fetched := some r } := by
    rw [he]; simp [Triggers.Api.St.apply, hlen]
  have hj1 : s'.handlers[j]? = some h' := by
    rw [he]
    exact Tasks.get_other hj hne
  have hc1 : s'.callsFor hd.req.proposalId = s.callsFor hd.req.proposalId := by
    rw [he]; simp [Triggers.Api.St.apply, Triggers.Api.St.callsFor]
  obtain ⟨hpid, ⟨r', hp', hr', -⟩ | hacted⟩ := deciding_cases hdec
  · -- the other one has not run its tool yet: both can
    obtain ⟨u, hu, hcu, hfr⟩ := resume_calls api hj1 hp' hr' hcl.2
    have hi2 : u.handlers[i]? = some { hd with pc := .got (some r), fetched := some r } := by
      rw [hfr i (Ne.symm hne)]
      exact hi1
    obtain ⟨v, hv, hcv, -⟩ := resume_calls api hi2 rfl hr hcl.1
    have hrun : Run (Triggers.Api.step api) (fun _ e => healthy e = true) s' u := Run.single (.move j .resume) rfl hu
    refine ⟨v, hd.req.proposalId, hrun.tail (.move i .resume) rfl hv, ?_⟩
    rw [hpid] at hcu
    simp only at hcv
    omega
  · -- it has: its invocation is counted
    have hrun := view_run (allOk_init t) (h.mono fun s e he => ⟨he, never_overlaps api s e⟩) hd.req.proposalId
    have hone := acted_counted hrun (view_init t _) (a := j) (k := h'.req.endpoint)
      (by simp [view, hj, hacted]) (by rw [hcl.2]; rfl)
    obtain ⟨v, hv, hcv, -⟩ := resume_calls api hi1 rfl hr hcl.1
    refine ⟨v, hd.req.proposalId, Run.single (.move i .resume) rfl hv, ?_⟩
    simp only [view] at hone
    simp only [hc1] at hcv
    omega

/-! Runs of `demoApp` on one pending proposal `p`. -/

def onePending : Table := Keyed.ofList Row.id
  [{ id := "p", agentId := "event-deduplicator", runId := "r", action := "merge_events", arguments := "{}",
     rationale := "same event", status := .pending, createdAt := "0001-01-01T00:00:00+00:00", error := none }]

/-- Two approves in turn: the second one reads `applied` and does not run the tool. -/
theorem approve_at_most_once_in_turn :
    ∃ s, Run (Triggers.Api.step demoApp) (Allowed bothApprove demoApp) (init onePending) s ∧
      s.handlers.length = 2 ∧ ∀ pid, (s.callsFor pid).length ≤ 1 := by
  obtain ⟨s, hr, hp⟩ := Run.exists_of_exec (Triggers.Api.step demoApp) (Allowed bothApprove demoApp) (init onePending)
    [authorised .approve, .move 0 .read, .move 0 .resume, .move 0 (.mcpReturns ()), .move 0 .commits,
      authorised .approve, .move 1 .read, .move 1 .resume, .move 0 .finishes]
    (fun s => s.handlers.length == 2) (by decide)
  exact ⟨s, hr, by simpa using hp, approve_at_most_once demoApp onePending hr⟩

/-- Two approves that both read the row before either stored its decision run the tool
    twice. -/
theorem approve_runs_twice :
    ∃ s, Run (Triggers.Api.step demoApp) (fun _ e => healthy e = true) (init onePending) s ∧
      (s.callsFor "p").length = 2 := by
  obtain ⟨s, hr, hp⟩ := Run.exists_of_exec (Triggers.Api.step demoApp) (fun _ e => healthy e = true) (init onePending)
    [authorised .approve, authorised .approve, .move 0 .read, .move 1 .read, .move 0 .resume, .move 1 .resume]
    (fun s => (s.callsFor "p").length == 2) (by decide)
  exact ⟨s, hr, by simpa using hp⟩

/-! ## Final decisions -/

theorem kinds_notBothReject : Kinds runsTool (fun a b => notBothReject a b = true) stores := by
  refine ⟨?_, ?_, ?_⟩
  · intro k k' h
    cases k <;> cases k' <;> first | rfl | exact h
  · intro k hk
    cases k with
    | approve => exact ⟨some .applied, Or.inl rfl⟩
    | reject => cases hk
  · -- only two rejects do not clash
    intro k k' h d d' hd hd'
    cases k <;> cases k' <;> first | exact absurd rfl h | skip
    exact hd.trans hd'.symm

/-- The proposal's reject was answered 200 `{"status": "rejected"}`. -/
def RejectAcknowledged (s : St Args Val Out) (pid : String) : Prop :=
  ∃ h ∈ s.handlers, h.req.endpoint = .reject ∧ h.req.proposalId = pid ∧ h.pc = .ended (.answered ⟨200, .rejected⟩)

/-- A handler that stored or acknowledged a reject left the row rejected. -/
def Told (t : Table) (h : Handler Args Val Out) : Prop :=
  ((∃ b, h.pc = .stored .rejected b) ∨ h.pc = .ended (.answered ⟨200, .rejected⟩)) →
    statusOf t h.req.proposalId = some .rejected

theorem told_move {api : App Args Val Out} {i : Nat} {t : Table} {h : Handler Args Val Out} {m : Move Val}
    {f : Effect Args Val Out} (hok : HandlerOk t h) (hs : Told t h) (ha : Advance api i t h m f) :
    Told f.table f.handler := by
  intro hr
  cases ha with
  | commits d hp =>
    simp only [HandlerOk, hp] at hok
    obtain ⟨st, hst⟩ := Option.isSome_iff_exists.mp hok.2
    rcases hr with ⟨b, hr⟩ | hr
    · injection hr with hd _
      rw [hd]
      exact statusOf_setStatus_same hst
    · cases hr
  | finishes d b hp =>
    rcases hr with ⟨b, hr⟩ | hr
    · cases hr
    · refine hs (Or.inl ⟨b, ?_⟩)
      cases d with
      | applied v =>
        simp only [Triggers.Api.Handler.to_pc, Triggers.Api.answer] at hr
        split at hr <;> cases hr
      | failed e => cases hr
      | rejected => exact hp
  | missing record hp hm =>
    rcases hr with ⟨b, hr⟩ | hr
    · cases hr
    · injection hr with hr; injection hr with hr; cases hr
  | _ => rcases hr with ⟨b, hr⟩ | hr <;> cases hr

/-- What a run without overlaps keeps. -/
structure Settled (s : St Args Val Out) : Prop where
  ok : AllOk s
  agreed : ∀ pid, Agreed runsTool (fun a b => notBothReject a b = true) stores (view pid s)
  told : ∀ h ∈ s.handlers, Told s.table h

theorem settled_status {api : App Args Val Out} {s t : St Args Val Out} (hs : Settled s)
    (h : Run (Triggers.Api.step api) (Allowed notBothReject api) s t) {pid : String} {st : Status} (hne : st ≠ .pending)
    (hst : statusOf s.table pid = some st) : statusOf t.table pid = some st := by
  have := decision_final kinds_notBothReject (view_run hs.ok h pid) (hs.agreed pid) ((cellOf_decided hne).mpr hst)
  exact (cellOf_decided hne).mp this

theorem settled_step {api : App Args Val Out} (s : St Args Val Out) (e : Ev Val) (t : St Args Val Out) (hs : Settled s)
    (ho : Allowed notBothReject api s e) (h : Triggers.Api.step api s e = some t) : Settled t := by
  have hrun : Run (Triggers.Api.step api) (Allowed notBothReject api) s t := Run.single e ho h
  refine ⟨allOk_step hs.ok h, fun pid => agreed kinds_notBothReject (view_run hs.ok hrun pid) (hs.agreed pid), ?_⟩
  rcases Triggers.Api.step_cases h with ⟨r, rfl, rfl⟩ | ⟨i, m, hd, f, rfl, hi, ha, rfl⟩
  · intro h' hm
    rcases List.mem_append.mp hm with hm | hm
    · exact hs.told h' hm
    · rw [List.mem_singleton.mp hm]
      intro hr
      rcases Triggers.Api.enter_cases api r with ⟨he, -⟩ | ⟨a, he, hc⟩
      · rcases hr with ⟨b, hr⟩ | hr <;> cases he.symm.trans hr
      · rcases hr with ⟨b, hr⟩ | hr
        · cases he.symm.trans hr
        · cases he.symm.trans hr; exact absurd rfl hc
  · intro h' hm
    rcases List.mem_or_eq_of_mem_set hm with hm | rfl
    · exact fun hr => settled_status hs hrun (by decide) (hs.told h' hm hr)
    · have hmem := List.mem_of_getElem? hi
      exact told_move (hs.ok hd hmem) (hs.told hd hmem) ha

theorem settled_init (t : Table) : Settled (init t : St Args Val Out) :=
  ⟨allOk_init t, fun pid => fresh_agreed (view_init t pid), fun h hm => by cases hm⟩

theorem settled {api : App Args Val Out} {s t : St Args Val Out} (hs : Settled s)
    (h : Run (Triggers.Api.step api) (Allowed notBothReject api) s t) : Settled t :=
  h.invariant settled_step hs

/-- A rejected proposal whose row is decided by rejects only has had no invocation. -/
theorem rejected_no_call {s : St Args Val Out} (hs : Settled s) {pid : String}
    (h : statusOf s.table pid = some .rejected) : s.callsFor pid = [] := by
  have hq := (hs.agreed pid).quiet (some .rejected) ((cellOf_decided (by decide)).mpr h) fun k hk => by
    cases k with
    | approve => rcases hk with hk | hk <;> cases hk
    | reject => rfl
  exact List.eq_nil_of_length_eq_zero hq

theorem rows_run {api : App Args Val Out} {ok : St Args Val Out → Ev Val → Prop} {s t : St Args Val Out}
    (h : Run (Triggers.Api.step api) ok s t) (pid : String) :
    (statusOf t.table pid).isSome = (statusOf s.table pid).isSome := by
  refine h.relate (I := fun _ => True) (R := fun s t => (statusOf t.table pid).isSome = (statusOf s.table pid).isSome)
    (fun _ _ _ _ _ _ => trivial) (fun _ => rfl) (fun a b c h h' => ?_) (fun t e u _ _ h => ?_) trivial
  · show (statusOf c.table pid).isSome = (statusOf a.table pid).isSome
    exact h'.trans h
  · rcases Triggers.Api.step_cases h with ⟨r, rfl, rfl⟩ | ⟨i, m, hd, f, rfl, hi, ha, rfl⟩
    · rfl
    · exact ha.rows pid

/-- Between any two states of a run without overlaps: a stored status differs only if it
    was pending before and is decided now; and a proposal whose reject was acknowledged is
    rejected and has never had an invocation. -/
theorem decisions_final (api : App Args Val Out) (t : Table) {s u : St Args Val Out}
    (h : Run (Triggers.Api.step api) (Allowed notBothReject api) (init t) s)
    (h' : Run (Triggers.Api.step api) (Allowed notBothReject api) s u) (pid : String) :
    (statusOf s.table pid ≠ statusOf u.table pid → statusOf s.table pid = some .pending ∧
      (statusOf u.table pid = some .applied ∨ statusOf u.table pid = some .failed ∨
        statusOf u.table pid = some .rejected)) ∧
    (RejectAcknowledged s pid → u.callsFor pid = [] ∧ statusOf u.table pid = some .rejected) := by
  have hs := settled (settled_init t) h
  have hu := settled hs h'
  refine ⟨?_, ?_⟩
  · intro hne
    have hrow := rows_run h' pid
    cases hst : statusOf s.table pid with
    | none =>
      rw [hst] at hrow hne
      cases hut : statusOf u.table pid with
      | none => exact absurd hut.symm hne
      | some st => rw [hut] at hrow; cases hrow
    | some st =>
      by_cases hst' : st = .pending
      · subst hst'
        refine ⟨rfl, ?_⟩
        rw [hst] at hrow hne
        cases hut : statusOf u.table pid with
        | none => rw [hut] at hrow; cases hrow
        | some st =>
          cases st with
          | pending => exact absurd hut.symm hne
          | applied => exact Or.inl rfl
          | failed => exact Or.inr (Or.inl rfl)
          | rejected => exact Or.inr (Or.inr rfl)
      · exact absurd (hst.trans (settled_status hs h' hst' hst).symm) hne
  · rintro ⟨hd, hm, _, hp, hr⟩
    have hrej : statusOf u.table pid = some .rejected := by
      refine settled_status hs h' (by decide) ?_
      have := hs.told hd hm (Or.inr hr)
      rwa [hp] at this
    exact ⟨rejected_no_call hu hrej, hrej⟩

def acknowledged (pid : String) (h : Handler Args Val Out) : Bool :=
  match h.pc with
  | .ended (.answered ⟨200, .rejected⟩) => h.req.endpoint == .reject && h.req.proposalId == pid
  | _ => false

theorem acknowledged_any {s : St Args Val Out} {pid : String} (h : s.handlers.any (acknowledged pid) = true) :
    RejectAcknowledged s pid := by
  obtain ⟨hd, hm, ha⟩ := List.any_eq_true.mp h
  unfold acknowledged at ha
  split at ha
  · rename_i hp
    simp only [Bool.and_eq_true, beq_iff_eq] at ha
    exact ⟨hd, hm, ha.1, ha.2, hp⟩
  · cases ha

/-- A reject is acknowledged; an approve comes later, is answered 404 and invokes nothing. -/
theorem decisions_final_one_reject :
    ∃ s u, Run (Triggers.Api.step demoApp) (Allowed notBothReject demoApp) (init onePending) s ∧
      Run (Triggers.Api.step demoApp) (Allowed notBothReject demoApp) s u ∧ RejectAcknowledged s "p" ∧ s.handlers.length = 1 ∧
      (u.handlers.map fun h => (h.req.endpoint, h.pc)) =
        [(.reject, .ended (.answered ⟨200, .rejected⟩)), (.approve, .ended (.answered (Triggers.Api.notFound "p")))] ∧
      u.callsFor "p" = [] ∧ statusOf u.table "p" = some .rejected := by
  obtain ⟨s, hr, hp⟩ := Run.exists_of_exec (Triggers.Api.step demoApp) (Allowed notBothReject demoApp) (init onePending)
    [authorised .reject, .move 0 .read, .move 0 .resume, .move 0 .commits, .move 0 .finishes]
    (fun s => s.handlers.any (acknowledged "p") && s.handlers.length == 1 &&
      (exec (Triggers.Api.step demoApp) (Allowed notBothReject demoApp) s
        [authorised .approve, .move 1 .read, .move 1 .resume]).any fun u =>
          (u.handlers.map fun h => (h.req.endpoint, h.pc)) ==
            [(.reject, .ended (.answered ⟨200, .rejected⟩)), (.approve, .ended (.answered (Triggers.Api.notFound "p")))])
    (by decide)
  simp only [Bool.and_eq_true, beq_iff_eq] at hp
  obtain ⟨⟨hack, hone⟩, hu⟩ := hp
  obtain ⟨u, hru, hpu⟩ := Run.exists_of_exec _ _ _ _ _ hu
  obtain ⟨hcalls, hstatus⟩ := (decisions_final demoApp onePending hr hru "p").2 (acknowledged_any hack)
  exact ⟨s, u, hr, hru, acknowledged_any hack, hone, by simpa using hpu, hcalls, hstatus⟩

/-- A reject that is acknowledged while an approve of the same proposal waits for its
    tool: the tool has run, and the row goes from rejected to applied. -/
theorem reject_acknowledged_then_applied :
    ∃ s u, Run (Triggers.Api.step demoApp) (fun _ e => healthy e = true) (init onePending) s ∧
      Run (Triggers.Api.step demoApp) (fun _ e => healthy e = true) s u ∧
      RejectAcknowledged s "p" ∧ statusOf s.table "p" = some .rejected ∧
      statusOf u.table "p" = some .applied ∧ (u.callsFor "p").length = 1 := by
  obtain ⟨s, hr, hp⟩ := Run.exists_of_exec (Triggers.Api.step demoApp) (fun _ e => healthy e = true) (init onePending)
    [authorised .approve, authorised .reject, .move 0 .read, .move 1 .read, .move 0 .resume, .move 1 .resume,
      .move 1 .commits, .move 1 .finishes]
    (fun s => s.handlers.any (acknowledged "p") && statusOf s.table "p" == some .rejected &&
      (exec (Triggers.Api.step demoApp) (fun _ e => healthy e = true) s
        [.move 0 (.mcpReturns ()), .move 0 .commits, .move 0 .finishes]).any
          fun u => statusOf u.table "p" == some .applied && (u.callsFor "p").length == 1)
    (by decide)
  simp only [Bool.and_eq_true, beq_iff_eq] at hp
  obtain ⟨⟨ha, hs⟩, hu⟩ := hp
  obtain ⟨u, hru, hpu⟩ := Run.exists_of_exec _ _ _ _ _ hu
  simp only [Bool.and_eq_true, beq_iff_eq] at hpu
  exact ⟨s, u, hr, hru, acknowledged_any ha, hs, hpu.1, hpu.2⟩

end SagaAgents.Proposals
