/-
  SagaAgents.Proposals.Linearizable — the proposal store and its endpoints under
  concurrent requests, against the ledger.

  `Lifecycle` compares the code with the ledger where requests are served one after the
  other. Here approve and reject handlers take turns at every await, with each other, with
  `add`s and with listings; the store may raise and handlers may be cancelled at any of
  them. What clients see is the trace of requests and answers.

  A handler takes effect where its UPDATE is committed or, if it finds no pending
  proposal, where it reads; one without the token where it arrives.

  Proved: `linearizable`. In every run in which no handler reads a proposal as pending
  while another one that has read it as pending has not stored its decision, the requests
  that have taken effect can be put in an order that keeps those apart that did not
  overlap, such that everybody was answered what the ledger answers in this order, and the
  table is the ledger's. Without the condition two approves both invoke the tool
  (`approve_runs_twice`), which the ledger does not.
-/

import SagaAgents.Lib.Linear
import SagaAgents.Proposals.Lifecycle

namespace SagaAgents.Proposals.Linearizable

open Lib Lib.Linear
open Triggers.Api (Request Endpoint Pc Handler App Move Advance Effect Decision Outcome verifyToken notFound enter answer
  demoApp authorised)
open Lifecycle (Op Answer Ledger Reads Accounts Represents Stores decided decisionOn serve serve_missing
  serve_pending serve_untrusted forbidden)

variable {Args Val Out : Type}

/-! ## Requests and answers in time -/

/-- A handler, or the call that was made as the trace had this length. -/
inductive Caller where
  | handler (i : Nat)
  | other (n : Nat)
  deriving DecidableEq, Repr

inductive Ask (Args Val : Type) where
  | decide (r : Request)
  | other (op : Op Args Val)

/-- What `mcp_call` will do is not known when the request is made. -/
def fits : Ask Args Val → Op Args Val → Prop
  | .decide r, op => ∃ outcome, op = .decide r outcome
  | .other op, op' => op' = op

structure St (Args Val Out : Type) where
  api : Triggers.Api.St Args Val Out
  trace : List (Act Caller (Ask Args Val) (Answer Args Out))

/-- A handler's step; or an `add` or a listing, from the call to the answer. -/
inductive Ev (Args Val : Type) where
  | endpoint (e : Triggers.Api.Ev Val)
  | other (op : Op Args Val)

def init : St Args Val Out := ⟨Triggers.Api.init (Keyed.empty _), []⟩

def asks (s : St Args Val Out) : Triggers.Api.Ev Val → List (Act Caller (Ask Args Val) (Answer Args Out))
  | .request r => [.invoke (.handler s.api.handlers.length) (.decide r)]
  | .move _ _ => []

def responses (i : Nat) (h : Handler Args Val Out) : List (Act Caller (Ask Args Val) (Answer Args Out)) :=
  match h.pc with
  | .ended (.answered a) => [.respond (.handler i) (.responded (.answered a))]
  | _ => []

/-- The handler that a step is about. -/
def about (s : St Args Val Out) : Triggers.Api.Ev Val → Nat
  | .request _ => s.api.handlers.length
  | .move i _ => i

def step (api : App Args Val Out) (s : St Args Val Out) : Ev Args Val → Option (St Args Val Out)
  | .endpoint e =>
    (Triggers.Api.step api s.api e).map fun t =>
      ⟨t, s.trace ++ asks s e ++ (t.handlers[about s e]?).elim [] (responses (about s e))⟩
  | .other (.decide _ _) => none
  | .other op =>
    some ⟨(serve api s.api op).2,
      s.trace ++ [.invoke (.other s.trace.length) (.other op)] ++ [.respond (.other s.trace.length) (serve api s.api op).1]⟩

/-- No handler reads a proposal as pending while another one is deciding on it. -/
def Apart (api : App Args Val Out) (s : St Args Val Out) : Ev Args Val → Prop
  | .endpoint e => overlaps (fun _ _ => true) api s.api e = false
  | .other _ => True

instance (api : App Args Val Out) (s : St Args Val Out) : (e : Ev Args Val) → Decidable (Apart api s e)
  | .endpoint _ => inferInstanceAs (Decidable (_ = _))
  | .other _ => inferInstanceAs (Decidable True)

def asked : Act Caller (Ask Args Val) (Answer Args Out) → Option (Op Args Val)
  | .invoke _ (.other op) => some op
  | _ => none

/-- The adds and listings so far. -/
def history (s : St Args Val Out) : List (Op Args Val) := s.trace.filterMap asked

/-! ## What a handler knows -/

/-- The ledger, once these requests have taken effect. -/
abbrev ledgerOf (api : App Args Val Out) (lin : List (Caller × Op Args Val)) : Ledger Args :=
  state (Ledger.serve api) Ledger.empty lin

/-- It has the token, and has not taken effect. -/
structure Waits (api : App Args Val Out) (trace : List (Act Caller (Ask Args Val) (Answer Args Out)))
    (lin : List (Caller × Op Args Val)) (i : Nat) (h : Handler Args Val Out) : Prop where
  asked : .invoke (.handler i) (.decide h.req) ∈ trace
  token : verifyToken api h.req.authorization = true
  fresh : .handler i ∉ lin.map Prod.fst

/-- It has taken effect, and its answer is this one. -/
def Took (api : App Args Val Out) (lin : List (Caller × Op Args Val)) (i : Nat) (o : Outcome Out) : Prop :=
  (Caller.handler i, Answer.responded o) ∈ taken (Ledger.serve api) Ledger.empty lin

/-- Its proposal is pending in the ledger. -/
def Holds (api : App Args Val Out) (lin : List (Caller × Op Args Val)) (h : Handler Args Val Out) (r : ProposalRecord Args) : Prop :=
  (ledgerOf api lin).records.get h.req.proposalId = some r ∧ r.status = .pending

def HandlerOk (api : App Args Val Out) (trace : List (Act Caller (Ask Args Val) (Answer Args Out)))
    (lin : List (Caller × Op Args Val)) (i : Nat) (h : Handler Args Val Out) : Prop :=
  match h.pc with
  | .getting => Waits api trace lin i h
  | .got none => Took api lin i (.answered (notFound h.req.proposalId))
  | .got (some r) =>
    if r.status = .pending then Waits api trace lin i h ∧ Holds api lin h r
    else Took api lin i (.answered (notFound h.req.proposalId))
  | .calling r => Waits api trace lin i h ∧ Holds api lin h r ∧ h.req.endpoint = .approve
  | .setting d => Waits api trace lin i h ∧ ∃ r outcome, Holds api lin h r ∧ (decisionOn r h.req.endpoint outcome).1 = d
  | .stored d _ => Took api lin i (answer api d)
  | .ended _ => True

section

variable {api : App Args Val Out} {trace trace' : List (Act Caller (Ask Args Val) (Answer Args Out))}
  {lin : List (Caller × Op Args Val)} {i : Nat} {h : Handler Args Val Out}

/-- The trace has gone on, and somebody else may have taken effect. -/
theorem handlerOk_later {lin' : List (Caller × Op Args Val)} (hok : HandlerOk api trace lin i h) (ht : ∀ a ∈ trace, a ∈ trace')
    (hfresh : .handler i ∉ lin.map Prod.fst → .handler i ∉ lin'.map Prod.fst) (htook : ∀ o, Took api lin i o → Took api lin' i o)
    (hholds : deciding h.req.proposalId h = true → ∀ r, Holds api lin h r → Holds api lin' h r) :
    HandlerOk api trace' lin' i h := by
  have hwaits (hw : Waits api trace lin i h) : Waits api trace' lin' i h := ⟨ht _ hw.asked, hw.token, hfresh hw.fresh⟩
  unfold HandlerOk at hok ⊢
  cases hp : h.pc with
  | getting =>
    simp only [hp] at hok
    exact hwaits hok
  | got record =>
    cases record with
    | none =>
      simp only [hp] at hok
      exact htook _ hok
    | some r =>
      simp only [hp] at hok ⊢
      by_cases hr : r.status = .pending
      · rw [if_pos hr] at hok ⊢
        exact ⟨hwaits hok.1, hholds (by simp [deciding, phaseOf, hp, hr]) r hok.2⟩
      · rw [if_neg hr] at hok ⊢
        exact htook _ hok
  | calling r =>
    simp only [hp] at hok
    exact ⟨hwaits hok.1, hholds (by simp [deciding, phaseOf, hp]) r hok.2.1, hok.2.2⟩
  | setting d =>
    simp only [hp] at hok
    obtain ⟨hw, r, outcome, hr, hd⟩ := hok
    exact ⟨hwaits hw, r, outcome, hholds (by simp [deciding, phaseOf, hp]) r hr, hd⟩
  | stored d b =>
    simp only [hp] at hok
    exact htook _ hok
  | ended o => trivial

/-- Somebody else takes effect. -/
theorem handlerOk_effect (hok : HandlerOk api trace lin i h) {c : Caller} (hc : c ≠ .handler i) {op : Op Args Val}
    (hkeep : deciding h.req.proposalId h = true → ∀ r, (ledgerOf api lin).records.get h.req.proposalId = some r →
      ((ledgerOf api lin).serve api op).2.records.get h.req.proposalId = some r) :
    HandlerOk api trace (lin ++ [(c, op)]) i h := by
  refine handlerOk_later hok (fun _ => id) (fun hfresh hin => ?_) (fun _ ht => taken_kept ht _) fun hd r hr => ⟨?_, hr.2⟩
  · rw [List.map_append] at hin
    rcases List.mem_append.mp hin with hin | hin
    · exact hfresh hin
    · exact hc (List.mem_singleton.mp hin).symm
  · rw [ledgerOf, state_concat]
    exact hkeep hd r hr.1

end

/-! ## The service and the ledger -/

/-- `lin` is a linearization of what has been answered, and the table is the ledger's. -/
structure Sim (api : App Args Val Out) (all : List (Op Args Val)) (s : St Args Val Out) (lin : List (Caller × Op Args Val)) :
    Prop where
  linear : Linearization (Ledger.serve api) fits Ledger.empty s.trace lin
  rows : s.api.table.rows = (ledgerOf api lin).records.rows.map (recordToRow api.codec)
  accounts : Accounts all (ledgerOf api lin)
  handlers : ∀ (i : Nat) (h : Handler Args Val Out), s.api.handlers[i]? = some h → HandlerOk api s.trace lin i h
  apart : ∀ (i j : Nat) (h h' : Handler Args Val Out), i ≠ j → s.api.handlers[i]? = some h → s.api.handlers[j]? = some h' →
    h.req.proposalId = h'.req.proposalId → deciding h.req.proposalId h = true → deciding h'.req.proposalId h' = false
  handlerIds : ∀ i r, .invoke (.handler i) r ∈ s.trace → i < s.api.handlers.length
  otherIds : ∀ n r, .invoke (.other n) r ∈ s.trace → n < s.trace.length

variable {api : App Args Val Out} {all : List (Op Args Val)} {s : St Args Val Out} {lin lin' : List (Caller × Op Args Val)}

theorem mem_responses {i : Nat} {h : Handler Args Val Out} {a : Act Caller (Ask Args Val) (Answer Args Out)}
    (ha : a ∈ responses i h) : ∃ o, h.pc = .ended (.answered o) ∧ a = .respond (.handler i) (.responded (.answered o)) := by
  unfold responses at ha
  split at ha
  · rename_i o hp
    exact ⟨o, hp, List.mem_singleton.mp ha⟩
  · cases ha

/-- A handler answers what it has got. -/
theorem linear_responses {trace : List (Act Caller (Ask Args Val) (Answer Args Out))} {i : Nat} {h : Handler Args Val Out}
    (hl : Linearization (Ledger.serve api) fits Ledger.empty trace lin)
    (ht : ∀ a, h.pc = .ended (.answered a) → Took api lin i (.answered a)) :
    Linearization (Ledger.serve api) fits Ledger.empty (trace ++ responses i h) lin := by
  unfold responses
  split
  · rename_i a hp
    exact hl.respond (ht a hp)
  · rw [List.append_nil]
    exact hl

/-- The ledger's records and its table are all that the store's answers rest on. -/
theorem represented (hs : Sim api all s lin) :
    ∃ q : Triggers.Api.St Args Val Out, q.table = s.api.table ∧ Represents api.codec q (ledgerOf api lin) := by
  refine ⟨⟨s.api.table, [], (ledgerOf api lin).calls.map fun k => ⟨0, k.proposalId, k.action, k.arguments⟩, [],
    s.api.table.rows.map (·.status)⟩, rfl, hs.rows, ?_, fun st _ => ?_, rfl⟩
  · rw [List.map_map]
    exact List.map_id _
  · rw [List.count_eq_countP, List.countP_map]
    rfl

theorem reads_get (hc : Reads api.codec all) (hs : Sim api all s lin) (pid : String) :
    get api.codec s.api.table pid = some ((ledgerOf api lin).records.get pid) := by
  obtain ⟨q, hq, hrep⟩ := represented hs
  rw [← hq]
  exact Lifecycle.get_represented hc hs.accounts hrep pid

/-- Handler `i` has moved. -/
theorem sim_move (hs : Sim api all s lin) {i : Nat} {h : Handler Args Val Out} (hi : s.api.handlers[i]? = some h)
    {f : Effect Args Val Out} (hreq : f.handler.req = h.req)
    (hlinear : Linearization (Ledger.serve api) fits Ledger.empty s.trace lin')
    (hrows : f.table.rows = (ledgerOf api lin').records.rows.map (recordToRow api.codec))
    (haccounts : Accounts all (ledgerOf api lin')) (hok : HandlerOk api s.trace lin' i f.handler)
    (hanswer : ∀ a, f.handler.pc = .ended (.answered a) → Took api lin' i (.answered a))
    (hothers : ∀ (j : Nat) (h' : Handler Args Val Out), j ≠ i → s.api.handlers[j]? = some h' → HandlerOk api s.trace lin' j h')
    (hdec : deciding h.req.proposalId f.handler = true → deciding h.req.proposalId h = false →
      ∀ (j : Nat) (h' : Handler Args Val Out), j ≠ i →
      s.api.handlers[j]? = some h' → h'.req.proposalId = h.req.proposalId → deciding h'.req.proposalId h' = false) :
    Sim api all ⟨s.api.apply i f, s.trace ++ responses i f.handler⟩ lin' := by
  have hmem : ∀ a ∈ s.trace, a ∈ s.trace ++ responses i f.handler := fun a ha => List.mem_append_left _ ha
  have hlater (j : Nat) (q : Handler Args Val Out) (hq : HandlerOk api s.trace lin' j q) :
      HandlerOk api (s.trace ++ responses i f.handler) lin' j q :=
    handlerOk_later hq hmem id (fun _ => id) fun _ _ => id
  have hold (c : Caller) (r : Ask Args Val) (hin : Act.invoke c r ∈ s.trace ++ responses i f.handler) :
      Act.invoke c r ∈ s.trace := by
    rcases List.mem_append.mp hin with hin | hin
    · exact hin
    · obtain ⟨o, -, e⟩ := mem_responses hin
      cases e
  refine ⟨linear_responses hlinear hanswer, hrows, haccounts, fun j q hq => ?_, fun j k q q' hne hj hk hid hd => ?_,
    fun j r hin => ?_, fun n r hin => ?_⟩
  · rcases (Tasks.get_move hi).mp hq with ⟨e₁, e₂⟩ | ⟨hne, hq⟩
    · subst e₁ e₂
      exact hlater _ _ hok
    · exact hlater j q (hothers j q hne hq)
  · rcases (Tasks.get_move hi).mp hj with ⟨e₁, e₂⟩ | ⟨hji, hqj⟩ <;> rcases (Tasks.get_move hi).mp hk with ⟨e₃, e₄⟩ | ⟨hki, hqk⟩
    · exact absurd (e₁.trans e₃.symm) hne
    · subst e₁ e₂
      rw [hreq] at hid hd
      by_cases hh : deciding h.req.proposalId h = true
      · exact hs.apart j k h q' hne hi hqk hid hh
      · exact hdec hd (by simpa using hh) k q' hki hqk hid.symm
    · subst e₃ e₄
      rw [hreq] at hid ⊢
      by_cases hh : deciding h.req.proposalId f.handler = true
      · have hbusy : deciding q.req.proposalId q = false := by
          by_cases hh' : deciding h.req.proposalId h = true
          · exact hs.apart k j h q (Ne.symm hne) hi hqj hid.symm hh'
          · exact hdec hh (by simpa using hh') j q hji hqj hid
        rw [hbusy] at hd
        cases hd
      · simpa using hh
    · exact hs.apart j k q q' hne hqj hqk hid hd
  · have hlen : (s.api.apply i f).handlers.length = s.api.handlers.length := List.length_set
    rw [hlen]
    exact hs.handlerIds j r (hold _ _ hin)
  · have hlt := hs.otherIds n r (hold _ _ hin)
    show n < (s.trace ++ responses i f.handler).length
    rw [List.length_append]
    omega

/-! ## A handler moves -/

/-- It takes no effect. -/
theorem sim_goes (hs : Sim api all s lin) {i : Nat} {h : Handler Args Val Out} (hi : s.api.handlers[i]? = some h)
    {f : Effect Args Val Out} (hreq : f.handler.req = h.req) (htable : f.table = s.api.table)
    (hok : HandlerOk api s.trace lin i f.handler)
    (hanswer : ∀ a, f.handler.pc = .ended (.answered a) → Took api lin i (.answered a))
    (hdec : deciding h.req.proposalId f.handler = true → deciding h.req.proposalId h = false →
      ∀ (j : Nat) (h' : Handler Args Val Out), j ≠ i →
      s.api.handlers[j]? = some h' → h'.req.proposalId = h.req.proposalId → deciding h'.req.proposalId h' = false) :
    Sim api all ⟨s.api.apply i f, s.trace ++ responses i f.handler⟩ lin :=
  sim_move hs hi hreq hs.linear (by rw [htable]; exact hs.rows) hs.accounts hok hanswer (fun j h' _ hj => hs.handlers j h' hj) hdec

/-- It takes effect, and does not answer yet. -/
theorem sim_effect (hs : Sim api all s lin) {i : Nat} {h : Handler Args Val Out} (hi : s.api.handlers[i]? = some h)
    {f : Effect Args Val Out} (hreq : f.handler.req = h.req) (hw : Waits api s.trace lin i h) {outcome : Except String Val}
    {o : Outcome Out} {l : Ledger Args}
    (hserve : (ledgerOf api lin).serve api (.decide h.req outcome) = (.responded o, l))
    (hrows : f.table.rows = l.records.rows.map (recordToRow api.codec)) (haccounts : Accounts all l)
    (hok : ∀ lin', Took api lin' i o → HandlerOk api s.trace lin' i f.handler) (hopen : ∀ o, f.handler.pc ≠ .ended o)
    (hquiet : deciding h.req.proposalId f.handler = false)
    (hkeep : ∀ (j : Nat) (h' : Handler Args Val Out), j ≠ i → s.api.handlers[j]? = some h' → deciding h'.req.proposalId h' = true →
      l.records.get h'.req.proposalId = (ledgerOf api lin).records.get h'.req.proposalId) :
    ∃ lin', Sim api all ⟨s.api.apply i f, s.trace ++ responses i f.handler⟩ lin' := by
  have hledger : ledgerOf api (lin ++ [(.handler i, .decide h.req outcome)]) = l := by rw [ledgerOf, state_concat, hserve]
  have htook : Took api (lin ++ [(.handler i, .decide h.req outcome)]) i o := by
    have := taken_new (Ledger.serve api) Ledger.empty lin (.handler i) (.decide h.req outcome)
    rw [hserve] at this
    exact this
  refine ⟨lin ++ [(.handler i, .decide h.req outcome)], sim_move hs hi hreq (hs.linear.effect hw.asked hw.fresh ⟨outcome, rfl⟩)
    (by rw [hledger]; exact hrows) (by rw [hledger]; exact haccounts) (hok _ htook) (fun a ha => absurd ha (hopen _))
    (fun j h' hne hj => ?_) fun hd => absurd hd (by rw [hquiet]; exact Bool.false_ne_true)⟩
  refine handlerOk_effect (hs.handlers j h' hj) (fun e => hne (Caller.handler.inj e).symm) fun hd r hr => ?_
  rw [hserve, hkeep j h' hne hj hd]
  exact hr

/-- What is read is what the ledger has. A handler that does not find it pending has taken
    effect. -/
theorem sim_read (hc : Reads api.codec all) (hs : Sim api all s lin) {i : Nat} {h : Handler Args Val Out}
    (hi : s.api.handlers[i]? = some h) (hp : h.pc = .getting) {record : Option (ProposalRecord Args)}
    (hg : get api.codec s.api.table h.req.proposalId = some record)
    (hapart : overlaps (fun _ _ => true) api s.api (.move i .read : Triggers.Api.Ev Val) = false) :
    ∃ lin', Sim api all ⟨s.api.apply i { handler := { h with pc := .got record, fetched := record }, table := s.api.table },
      s.trace ++ responses i ({ h with pc := .got record, fetched := record } : Handler Args Val Out)⟩ lin' := by
  have hw : Waits api s.trace lin i h := by
    have hok := hs.handlers i h hi
    simpa [HandlerOk, hp] using hok
  have hrecord : record = (ledgerOf api lin).records.get h.req.proposalId :=
    Option.some.inj (hg.symm.trans (reads_get hc hs _))
  by_cases hpend : ∃ r, record = some r ∧ r.status = .pending
  · obtain ⟨r, e, hr⟩ := hpend
    subst e
    refine ⟨lin, sim_goes hs hi rfl rfl ?_ (fun a ha => (by cases ha)) fun _ _ j h' hne hj hid => ?_⟩
    · simp only [HandlerOk, hr, if_true]
      exact ⟨⟨hw.asked, hw.token, hw.fresh⟩, hrecord.symm, hr⟩
    · simp only [overlaps, hi, hg, hr, Bool.and_true, beq_self_eq_true, Bool.true_and, List.any_eq_false] at hapart
      have := hapart h' (List.mem_of_getElem? hj)
      rw [hid]
      simpa using this
  · have hnone : ((ledgerOf api lin).records.get h.req.proposalId).filter (·.status = .pending) = none := by
      rw [← hrecord]
      cases record with
      | none => rfl
      | some r => simpa using fun hr => hpend ⟨r, rfl, hr⟩
    refine sim_effect hs hi rfl hw (serve_missing hw.token hnone (.error "")) hs.rows hs.accounts (fun lin' ht => ?_)
      (fun o ho => (by cases ho)) ?_ fun _ _ _ _ _ => rfl
    · cases record with
      | none => exact ht
      | some r =>
        have hr : r.status ≠ .pending := fun hr => hpend ⟨r, rfl, hr⟩
        simp only [HandlerOk, hr, if_false]
        exact ht
    · cases record with
      | none => simp [deciding, phaseOf]
      | some r =>
        have hr : r.status ≠ .pending := fun hr => hpend ⟨r, rfl, hr⟩
        simp [deciding, phaseOf, hr]

/-- The UPDATE is the ledger's. -/
theorem sim_commits (hs : Sim api all s lin) {i : Nat} {h : Handler Args Val Out} (hi : s.api.handlers[i]? = some h)
    {d : Decision Val} (hp : h.pc = .setting d) :
    ∃ lin', Sim api all
      ⟨s.api.apply i { handler := h.to (.stored d (setStatus s.api.table h.req.proposalId d.status d.error).1),
                       table := (setStatus s.api.table h.req.proposalId d.status d.error).2 },
        s.trace ++ responses i (h.to (.stored d (setStatus s.api.table h.req.proposalId d.status d.error).1))⟩ lin' := by
  obtain ⟨hw, r, outcome, ⟨hget, hr⟩, hd⟩ : Waits api s.trace lin i h ∧ ∃ r outcome, Holds api lin h r ∧
      (decisionOn r h.req.endpoint outcome).1 = d := by
    have hok := hs.handlers i h hi
    simpa [HandlerOk, hp] using hok
  subst hd
  have hid : r.id = h.req.proposalId := (Keyed.get_some hget).2
  have hrow : s.api.table.get h.req.proposalId = some (recordToRow api.codec r) := by
    rw [Keyed.get_map (Lifecycle.recordToRow_id api.codec) hs.rows, hget]
    rfl
  have hbusy : deciding h.req.proposalId h = true := by simp [deciding, phaseOf, hp]
  refine sim_effect hs hi rfl hw (serve_pending hw.token (by simp [hget, hr]) outcome) ?_
    (Lifecycle.accounts_decide hs.accounts (by rw [hid]; exact hget) hr _ _) (fun lin' ht => ht) (fun o ho => (by cases ho))
    (by simp [deciding, phaseOf]) fun j h' hne hj hdec => ?_
  · simp only [setStatus, hrow]
    exact Keyed.set_map (Lifecycle.recordToRow_id api.codec) hs.rows (decided r (decisionOn r h.req.endpoint outcome).1)
  · -- another handler that is deciding is about another proposal
    refine Keyed.get_set_ne _ fun e => ?_
    have hother := hs.apart i j h h' (Ne.symm hne) hi hj (hid.symm.trans e.symm) hbusy
    rw [hother] at hdec
    cases hdec

/-- It goes on with its decision. -/
theorem sim_busy (hs : Sim api all s lin) {i : Nat} {h : Handler Args Val Out} (hi : s.api.handlers[i]? = some h)
    (hbusy : deciding h.req.proposalId h = true) {f : Effect Args Val Out} (hreq : f.handler.req = h.req)
    (htable : f.table = s.api.table) (hopen : ∀ o, f.handler.pc ≠ .ended o) (hok : HandlerOk api s.trace lin i f.handler) :
    Sim api all ⟨s.api.apply i f, s.trace ++ responses i f.handler⟩ lin := by
  refine sim_goes hs hi hreq htable hok (fun a e => absurd e (hopen _)) fun _ hq => ?_
  rw [hbusy] at hq
  cases hq

/-- It ends, and what it answers it has got. -/
theorem sim_ends (hs : Sim api all s lin) {i : Nat} {h : Handler Args Val Out} (hi : s.api.handlers[i]? = some h)
    {f : Effect Args Val Out} (hreq : f.handler.req = h.req) (htable : f.table = s.api.table) {o : Outcome Out}
    (hend : f.handler.pc = .ended o) (htook : ∀ a, o = .answered a → Took api lin i o) :
    Sim api all ⟨s.api.apply i f, s.trace ++ responses i f.handler⟩ lin := by
  refine sim_goes hs hi hreq htable (by simp [HandlerOk, hend]) (fun a e => ?_) (by simp [deciding, phaseOf, hend])
  have ho : o = .answered a := by simpa [hend] using e
  have := htook a ho
  rw [ho] at this
  exact this

theorem sim_advance (hc : Reads api.codec all) (hs : Sim api all s lin) {i : Nat} {m : Move Val} {h : Handler Args Val Out}
    {f : Effect Args Val Out} (hi : s.api.handlers[i]? = some h) (ha : Advance api i s.api.table h m f)
    (hapart : overlaps (fun _ _ => true) api s.api (.move i m) = false) :
    ∃ lin', Sim api all ⟨s.api.apply i f, s.trace ++ responses i f.handler⟩ lin' := by
  have hok := hs.handlers i h hi
  cases ha with
  | unreadable hp hg =>
    rw [reads_get hc hs] at hg
    cases hg
  | read record hp hg => exact sim_read hc hs hi hp hg hapart
  | readFails hp => exact ⟨lin, sim_ends hs hi rfl rfl rfl fun a e => (by cases e)⟩
  | missing record hp hm =>
    refine ⟨lin, sim_ends hs hi rfl rfl rfl fun a _ => ?_⟩
    cases record with
    | none => simpa [HandlerOk, hp] using hok
    | some r => simpa [HandlerOk, hp, hm r rfl] using hok
  | invoke record hp hr he =>
    simp only [HandlerOk, hp, hr, if_true] at hok
    obtain ⟨hw, hholds⟩ := hok
    exact ⟨lin, sim_busy hs hi (by simp [deciding, phaseOf, hp, hr]) rfl rfl (fun o e => (by cases e))
      ⟨⟨hw.asked, hw.token, hw.fresh⟩, hholds, he⟩⟩
  | decline record hp hr he =>
    simp only [HandlerOk, hp, hr, if_true] at hok
    obtain ⟨hw, hholds⟩ := hok
    refine ⟨lin, sim_busy hs hi (by simp [deciding, phaseOf, hp, hr]) rfl rfl (fun o e => (by cases e))
      ⟨⟨hw.asked, hw.token, hw.fresh⟩, record, .error "", hholds, ?_⟩⟩
    rw [Triggers.Api.Handler.to_req, he]
    rfl
  | mcpReturns record v hp =>
    simp only [HandlerOk, hp] at hok
    obtain ⟨hw, hholds, he⟩ := hok
    refine ⟨lin, sim_busy hs hi (by simp [deciding, phaseOf, hp]) rfl rfl (fun o e => (by cases e))
      ⟨⟨hw.asked, hw.token, hw.fresh⟩, record, .ok v, hholds, ?_⟩⟩
    rw [Triggers.Api.Handler.to_req, he]
    rfl
  | mcpRaises record e hp =>
    simp only [HandlerOk, hp] at hok
    obtain ⟨hw, hholds, he⟩ := hok
    refine ⟨lin, sim_busy hs hi (by simp [deciding, phaseOf, hp]) rfl rfl (fun o e => (by cases e))
      ⟨⟨hw.asked, hw.token, hw.fresh⟩, record, .error e, hholds, ?_⟩⟩
    rw [Triggers.Api.Handler.to_req, he]
    rfl
  | commits d hp => exact sim_commits hs hi hp
  | setFails hp => exact ⟨lin, sim_ends hs hi rfl rfl rfl fun a e => (by cases e)⟩
  | finishes d b hp =>
    refine ⟨lin, sim_ends hs hi rfl rfl rfl fun a _ => ?_⟩
    simpa [HandlerOk, hp] using hok
  | cancel hp => exact ⟨lin, sim_ends hs hi rfl rfl rfl fun a e => (by cases e)⟩

/-! ## A request arrives -/

theorem not_asked (hs : Sim api all s lin) (r : Ask Args Val) : Act.invoke (.handler s.api.handlers.length) r ∉ s.trace :=
  fun hin => Nat.lt_irrefl _ (hs.handlerIds _ r hin)

/-- A handler has come. -/
theorem sim_come (hs : Sim api all s lin) {r : Request} {pc : Pc Args Val Out}
    (hlinear : Linearization (Ledger.serve api) fits Ledger.empty (s.trace ++ [.invoke (.handler s.api.handlers.length) (.decide r)]) lin')
    (hledger : ledgerOf api lin' = ledgerOf api lin)
    (hothers : ∀ (j : Nat) (h' : Handler Args Val Out), s.api.handlers[j]? = some h' → HandlerOk api s.trace lin' j h')
    (hok : HandlerOk api (s.trace ++ [.invoke (.handler s.api.handlers.length) (.decide r)]) lin' s.api.handlers.length ⟨r, pc, none⟩)
    (hanswer : ∀ a, pc = .ended (.answered a) → Took api lin' s.api.handlers.length (.answered a))
    (hquiet : deciding r.proposalId (⟨r, pc, none⟩ : Handler Args Val Out) = false) :
    Sim api all ⟨{ s.api with handlers := s.api.handlers ++ [⟨r, pc, none⟩] },
      s.trace ++ [.invoke (.handler s.api.handlers.length) (.decide r)] ++
        responses s.api.handlers.length (⟨r, pc, none⟩ : Handler Args Val Out)⟩ lin' := by
  have hold (c : Caller) (q : Ask Args Val)
      (hin : Act.invoke c q ∈ s.trace ++ [.invoke (.handler s.api.handlers.length) (.decide r)] ++
        responses s.api.handlers.length (⟨r, pc, none⟩ : Handler Args Val Out)) :
      Act.invoke c q ∈ s.trace ∨ c = .handler s.api.handlers.length := by
    rcases List.mem_append.mp hin with hin | hin
    · rcases List.mem_append.mp hin with hin | hin
      · exact Or.inl hin
      · cases List.mem_singleton.mp hin
        exact Or.inr rfl
    · obtain ⟨o, -, e⟩ := mem_responses hin
      cases e
  refine ⟨linear_responses hlinear hanswer, by rw [hledger]; exact hs.rows, by rw [hledger]; exact hs.accounts, fun j q hq => ?_,
    fun j k q q' hne hj hk hid hd => ?_, fun j q hin => ?_, fun n q hin => ?_⟩
  · rcases Tasks.get_start.mp hq with hq | ⟨e₁, e₂⟩
    · refine handlerOk_later (hothers j q hq) (fun a ha => ?_) id (fun _ => id) fun _ _ => id
      exact List.mem_append_left _ (List.mem_append_left _ ha)
    · subst e₁ e₂
      exact handlerOk_later hok (fun a ha => List.mem_append_left _ ha) id (fun _ => id) fun _ _ => id
  · rcases Tasks.get_start.mp hk with hqk | ⟨e₃, e₄⟩
    · rcases Tasks.get_start.mp hj with hqj | ⟨e₁, e₂⟩
      · exact hs.apart j k q q' hne hqj hqk hid hd
      · subst e₂
        rw [hquiet] at hd
        cases hd
    · subst e₄
      exact hquiet
  · show j < (s.api.handlers ++ [_]).length
    rw [List.length_append, List.length_singleton]
    rcases hold _ _ hin with hin | e
    · have := hs.handlerIds j q hin
      omega
    · cases e
      omega
  · rcases hold _ _ hin with hin | e
    · have := hs.otherIds n q hin
      simp only [List.length_append]
      omega
    · cases e

theorem sim_request (hstore : api.proposalStore = true) (hmcp : api.mcpCall = true) (hs : Sim api all s lin) (r : Request) :
    ∃ lin', Sim api all ⟨{ s.api with handlers := s.api.handlers ++ [⟨r, enter api r, none⟩] },
      s.trace ++ [.invoke (.handler s.api.handlers.length) (.decide r)] ++
        responses s.api.handlers.length (⟨r, enter api r, none⟩ : Handler Args Val Out)⟩ lin' := by
  have hinvoke := hs.linear.invoke (not_asked hs) (.decide r)
  have hfresh : Caller.handler s.api.handlers.length ∉ lin.map Prod.fst := by
    intro hin
    obtain ⟨⟨c, op⟩, hm, e⟩ := List.mem_map.mp hin
    cases e
    obtain ⟨q, hq, -⟩ := hs.linear.invoked _ op hm
    exact not_asked hs q hq
  by_cases hv : verifyToken api r.authorization = true
  · rw [Lifecycle.enter_getting hstore hmcp hv]
    refine ⟨lin, sim_come hs hinvoke rfl (fun j h' hj => hs.handlers j h' hj) ?_ (fun a e => (by cases e)) (by simp [deciding, phaseOf])⟩
    exact ⟨List.mem_append_right _ List.mem_cons_self, hv, hfresh⟩
  · have hv : verifyToken api r.authorization = false := by simpa using hv
    have he : (enter api r : Pc Args Val Out) = .ended forbidden := by simp [enter, hv, forbidden]
    have hserve : (ledgerOf api lin).serve api (.decide r (.error "")) = (.responded forbidden, ledgerOf api lin) :=
      serve_untrusted _ hv
    have hledger : ledgerOf api (lin ++ [(.handler s.api.handlers.length, .decide r (.error ""))]) = ledgerOf api lin := by
      rw [ledgerOf, state_concat, hserve]
    have htook : Took api (lin ++ [(.handler s.api.handlers.length, .decide r (.error ""))]) s.api.handlers.length forbidden := by
      have := taken_new (Ledger.serve api) Ledger.empty lin (.handler s.api.handlers.length) (.decide r (.error ""))
      rw [hserve] at this
      exact this
    rw [he]
    refine ⟨lin ++ [(.handler s.api.handlers.length, .decide r (.error ""))],
      sim_come hs (hinvoke.effect (List.mem_append_right _ List.mem_cons_self) hfresh ⟨_, rfl⟩) hledger (fun j h' hj => ?_)
        (by simp [HandlerOk]) (fun a e => ?_) (by simp [deciding, phaseOf])⟩
    · have hlt := (List.getElem?_eq_some_iff.mp hj).1
      refine handlerOk_effect (hs.handlers j h' hj) (fun e => ?_) fun _ q hq => by rw [hserve]; exact hq
      exact Nat.ne_of_gt hlt (Caller.handler.inj e)
    · cases e
      exact htook

/-! ## An add, a listing -/

/-- They are the store's, whatever the handlers do. -/
theorem serve_table (api : App Args Val Out) {a b : Triggers.Api.St Args Val Out} (h : a.table = b.table) {op : Op Args Val} (hop : ∀ r o, op ≠ .decide r o) :
    (serve api a op).1 = (serve api b op).1 ∧ (serve api a op).2.table = (serve api b op).2.table ∧
      (serve api a op).2.handlers = a.handlers := by
  cases op with
  | add id now agentId runId action arguments rationale =>
    simp only [serve, h]
    split <;> simp [h]
  | list agentId authorization =>
    simp only [serve, h]
    split
    · exact ⟨rfl, h, rfl⟩
    · split
      · exact ⟨rfl, h, rfl⟩
      · split <;> exact ⟨rfl, h, rfl⟩
  | decide r o => exact absurd rfl (hop r o)

/-- A record that is there stays as it is. -/
theorem serve_kept {l : Ledger Args} {op : Op Args Val} (hop : ∀ r o, op ≠ .decide r o) {pid : String} {record : ProposalRecord Args}
    (hg : l.records.get pid = some record) : (l.serve api op).2.records.get pid = some record := by
  cases op with
  | add id now agentId runId action arguments rationale =>
    simp only [Ledger.serve]
    split
    · exact hg
    · rename_i hn
      refine (Keyed.get_set_ne _ fun e => hn ?_).trans hg
      have e : pid = id := e
      rw [← e, hg]
      rfl
  | list agentId authorization =>
    simp only [Ledger.serve]
    split <;> exact hg
  | decide r o => exact absurd rfl (hop r o)

theorem sim_other (hstore : api.proposalStore = true) (hmcp : api.mcpCall = true) (hc : Reads api.codec all) (hs : Sim api all s lin)
    {op : Op Args Val} (hop : ∀ r o, op ≠ .decide r o) (hall : op ∈ all) :
    Sim api all ⟨(serve api s.api op).2,
      s.trace ++ [.invoke (.other s.trace.length) (.other op)] ++ [.respond (.other s.trace.length) (serve api s.api op).1]⟩
      (lin ++ [(.other s.trace.length, op)]) := by
  obtain ⟨q, hq, hrep⟩ := represented hs
  obtain ⟨hanswer, htable, hhandlers⟩ := serve_table api hq.symm hop
  obtain ⟨hsame, hrep'⟩ := Lifecycle.represents_step hstore hmcp hc hs.accounts hrep op
  have hnot (r : Ask Args Val) : Act.invoke (.other s.trace.length) r ∉ s.trace :=
    fun hin => Nat.lt_irrefl _ (hs.otherIds _ r hin)
  have hfresh : Caller.other s.trace.length ∉ lin.map Prod.fst := by
    intro hin
    obtain ⟨⟨c, op'⟩, hm, e⟩ := List.mem_map.mp hin
    cases e
    obtain ⟨r, hr, -⟩ := hs.linear.invoked _ op' hm
    exact hnot r hr
  have hledger : ledgerOf api (lin ++ [(.other s.trace.length, op)]) = ((ledgerOf api lin).serve api op).2 := state_concat _ _
  refine ⟨?_, ?_, ?_, fun j h hj => ?_, ?_, fun j r hin => ?_, fun n r hin => ?_⟩
  · refine ((hs.linear.invoke hnot (.other op)).effect (List.mem_append_right _ List.mem_cons_self) hfresh rfl).respond ?_
    rw [hanswer, hsame]
    exact taken_new _ _ _ _ _
  · rw [hledger, htable]
    exact hrep'.rows
  · rw [hledger]
    exact Lifecycle.accounts_step api _ op hall hs.accounts
  · rw [hhandlers] at hj
    refine handlerOk_later (handlerOk_effect (hs.handlers j h hj) (c := .other s.trace.length) (fun e => (by cases e))
      fun _ r hr => serve_kept hop hr) (fun a ha => ?_) id (fun _ => id) fun _ _ => id
    exact List.mem_append_left _ (List.mem_append_left _ ha)
  · rw [hhandlers]
    exact hs.apart
  · rw [hhandlers]
    refine hs.handlerIds j r ?_
    simpa using hin
  · have hlt : n < s.trace.length + 1 := by
      rcases List.mem_append.mp hin with hin | hin
      · rcases List.mem_append.mp hin with hin | hin
        · exact Nat.lt_succ_of_lt (hs.otherIds n r hin)
        · cases List.mem_singleton.mp hin
          exact Nat.lt_succ_self _
      · cases List.mem_singleton.mp hin
    simp only [List.length_append, List.length_singleton]
    omega

/-! ## Runs -/

theorem step_cases {t : St Args Val Out} {e : Ev Args Val} (h : step api s e = some t) :
    (∃ r, e = .endpoint (.request r) ∧ t = ⟨{ s.api with handlers := s.api.handlers ++ [⟨r, enter api r, none⟩] },
      s.trace ++ [.invoke (.handler s.api.handlers.length) (.decide r)] ++
        responses s.api.handlers.length (⟨r, enter api r, none⟩ : Handler Args Val Out)⟩) ∨
    (∃ i m hd f, e = .endpoint (.move i m) ∧ s.api.handlers[i]? = some hd ∧ Advance api i s.api.table hd m f ∧
      t = ⟨s.api.apply i f, s.trace ++ responses i f.handler⟩) ∨
    (∃ op, e = .other op ∧ (∀ r o, op ≠ .decide r o) ∧ t = ⟨(serve api s.api op).2,
      s.trace ++ [.invoke (.other s.trace.length) (.other op)] ++ [.respond (.other s.trace.length) (serve api s.api op).1]⟩) := by
  cases e with
  | endpoint e =>
    obtain ⟨a, ha, e'⟩ := Option.map_eq_some_iff.mp h
    subst e'
    rcases Triggers.Api.step_cases ha with ⟨r, e', e''⟩ | ⟨i, m, hd, f, e', hi, hadv, e''⟩
    · subst e' e''
      have hlast : (s.api.handlers ++ [⟨r, enter api r, none⟩])[s.api.handlers.length]? = some ⟨r, enter api r, none⟩ :=
        List.getElem?_concat_length
      refine Or.inl ⟨r, rfl, ?_⟩
      simp only [asks, about, hlast, Option.elim_some]
    · subst e' e''
      have hself : (s.api.apply i f).handlers[i]? = some f.handler := Tasks.get_moved hi
      refine Or.inr (Or.inl ⟨i, m, hd, f, rfl, hi, hadv, ?_⟩)
      simp only [asks, about, hself, Option.elim_some, List.append_nil]
  | other op =>
    right; right
    cases op with
    | decide r o => cases h
    | add | list =>
      cases h
      exact ⟨_, rfl, fun r o e => (by cases e), rfl⟩

theorem history_grows {t : St Args Val Out} {e : Ev Args Val} (h : step api s e = some t) :
    (∀ op ∈ history s, op ∈ history t) ∧ ∀ op, e = .other op → op ∈ history t := by
  have hkept {l : List (Act Caller (Ask Args Val) (Answer Args Out))} : ∀ op ∈ history s, op ∈ (s.trace ++ l).filterMap asked := by
    intro op hop
    rw [List.filterMap_append]
    exact List.mem_append_left _ hop
  rcases step_cases h with ⟨r, e', e''⟩ | ⟨i, m, hd, f, e', -, -, e''⟩ | ⟨op, e', -, e''⟩
  · subst e' e''
    exact ⟨by rw [history, List.append_assoc]; exact hkept, fun op e => (by cases e)⟩
  · subst e' e''
    exact ⟨hkept, fun op e => (by cases e)⟩
  · subst e' e''
    refine ⟨by rw [history, List.append_assoc]; exact hkept, fun op' e => ?_⟩
    cases e
    simp [history, asked]

theorem sim_init : Sim api all (init : St Args Val Out) [] :=
  ⟨.nil, rfl, ⟨fun _ h => (by cases h), fun _ h => (by cases h), fun _ h => (by cases h)⟩, fun _ _ h => (by cases h),
    fun _ _ _ _ _ h => (by cases h), fun _ _ h => (by cases h), fun _ _ h => (by cases h)⟩

theorem sim_run (hstore : api.proposalStore = true) (hmcp : api.mcpCall = true) (h : Run (step api) (Apart api) init s)
    (hc : Reads api.codec all) (hall : ∀ op ∈ history s, op ∈ all) : ∃ lin, Sim api all s lin := by
  induction h with
  | refl => exact ⟨[], sim_init⟩
  | tail e _ hapart hst ih =>
    obtain ⟨hgrows, hop⟩ := history_grows hst
    obtain ⟨lin, hs⟩ := ih fun op hin => hall op (hgrows op hin)
    rcases step_cases hst with ⟨r, e', e''⟩ | ⟨i, m, hd, f, e', hi, hadv, e''⟩ | ⟨op, e', hnot, e''⟩
    · rw [e'']
      exact sim_request hstore hmcp hs r
    · subst e'
      rw [e'']
      exact sim_advance hc hs hi hadv hapart
    · rw [e'']
      exact ⟨_, sim_other hstore hmcp hc hs hnot (hall op (hop op e'))⟩

/-- Every run in which no handler reads a proposal as pending while another one is deciding
    on it is linearizable: the requests that have taken effect, in an order that respects
    which of them were over before others were made, are answered as the ledger answers
    them in this order. And the table is the ledger's. -/
theorem linearizable (api : App Args Val Out) (hstore : api.proposalStore = true) (hmcp : api.mcpCall = true)
    (h : Run (step api) (Apart api) init s) (hc : Reads api.codec (history s)) :
    ∃ lin, Linearization (Ledger.serve api) fits Ledger.empty s.trace lin ∧
      s.api.table.rows = (state (Ledger.serve api) Ledger.empty lin).records.rows.map (recordToRow api.codec) := by
  obtain ⟨lin, hs⟩ := sim_run hstore hmcp h hc fun _ hop => hop
  exact ⟨lin, hs.linear, hs.rows⟩

/-! Two proposals. While one of them is being approved, the other one is rejected; then the
    first is approved once more. -/

def demoAdd (id : String) : Ev Unit Unit := .other (.add id 0 "event-deduplicator" "r" "merge_events" () "same event")

def demoMove (i : Nat) (m : Move Unit) : Ev Unit Unit := .endpoint (.move i m)

def demoRun : List (Ev Unit Unit) :=
  [demoAdd "p", demoAdd "q", .endpoint (authorised .approve), demoMove 0 .read,
    .endpoint (.request ⟨.reject, "q", some "Bearer t"⟩), demoMove 1 .read, demoMove 0 .resume, demoMove 1 .resume,
    demoMove 1 .commits, .other (.list "event-deduplicator" none), demoMove 1 .finishes, demoMove 0 (.mcpReturns ()),
    demoMove 0 .commits, demoMove 0 .finishes, .endpoint (authorised .approve), demoMove 2 .read, demoMove 2 .resume]

/-- The history is of this time. -/
def atZero (op : Op Unit Unit) : Bool :=
  match op with
  | .add _ now _ _ _ _ _ => now == 0
  | _ => true

theorem reads_atZero {ops : List (Op Unit Unit)} (h : ops.all atZero = true) : Reads demoApp.codec ops := by
  have hzero : ∀ a t, Stores ops a t → t = 0 := by
    intro a t ⟨id, agentId, runId, action, rationale, hop⟩
    simpa [atZero] using List.all_eq_true.mp h _ hop
  refine ⟨fun a t _ => ?_, fun a t hst => ?_, fun a t a' t' hst hst' => ?_⟩
  · cases a
    rfl
  · rw [hzero a t hst]
    rfl
  · rw [hzero a t hst, hzero a' t' hst']
    simp

theorem linearizable_demo :
    ∃ s : St Unit Unit Unit, Run (step demoApp) (Apart demoApp) init s ∧ s.api.counted = [.rejected, .applied] ∧
      ∃ lin, Linearization (Ledger.serve demoApp) fits Ledger.empty s.trace lin ∧
        s.api.table.rows = (state (Ledger.serve demoApp) Ledger.empty lin).records.rows.map (recordToRow demoApp.codec) := by
  obtain ⟨s, hr, hp⟩ := Run.exists_of_exec (step demoApp) (Apart demoApp) init demoRun
    (fun s => s.api.counted == [.rejected, .applied] && (history s).all atZero) (by decide)
  simp only [Bool.and_eq_true, beq_iff_eq] at hp
  exact ⟨s, hr, hp.1, linearizable demoApp rfl rfl hr (reads_atZero hp.2)⟩

end SagaAgents.Proposals.Linearizable
