/-
  SagaAgents.Proposals.Failures — approve requests handled one after the other, where the
  store can raise, the tool can raise, and a handler can be cancelled at any await.

  The tool runs before its success is recorded: between `mcpReturns` and `commits` the
  row still says pending. A handler that ends there (`Loses`) leaves the proposal open to
  the next approve.

  Proved, over every serial history:
  - `applied_not_repeated`: if no handler is lost there, then once the tool returned for
    a proposal it is not invoked for it again, and no end of a handler leaves the row
    pending.
  - `lost_success_repeats`: the condition is exact. Whenever a handler is lost there, the
    row stays pending and the same request, sent again, invokes the tool again.
  The endpoint checks nothing of this: `approve_repeats_after_store_error`.
-/

import SagaAgents.Proposals.Decisions

namespace SagaAgents.Proposals.Failures

open Lib
open Triggers.Api (Request Pc Handler App St Ev Move Advance Effect Decision init demoApp authorised)

variable {Args Val Out : Type}

/-! ## Serial histories -/

def ended (h : Handler Args Val Out) : Bool :=
  match h.pc with
  | .ended _ => true
  | _ => false

/-- A request starts when every earlier one has been handled to its end. -/
def Serial (s : St Args Val Out) : Ev Val → Prop
  | .request _ => s.handlers.all ended = true
  | .move _ _ => True

/-- The handler's tool has returned, and its `set_status` is not committed. -/
def unrecorded (h : Handler Args Val Out) : Bool :=
  match h.pc with
  | .setting (.applied _) => true
  | _ => false

/-- The step ends a handler between its tool's return and the commit of `applied`. -/
def Loses (s : St Args Val Out) : Ev Val → Prop
  | .move i .setFails => (s.handlers[i]?).any unrecorded = true
  | .move i .cancel => (s.handlers[i]?).any unrecorded = true
  | _ => False

instance (s : St Args Val Out) : (e : Ev Val) → Decidable (Serial s e)
  | .request _ => inferInstanceAs (Decidable (_ = true))
  | .move _ _ => inferInstanceAs (Decidable True)

instance (s : St Args Val Out) : (e : Ev Val) → Decidable (Loses s e)
  | .move _ .setFails => inferInstanceAs (Decidable (_ = true))
  | .move _ .cancel => inferInstanceAs (Decidable (_ = true))
  | .move _ .read | .move _ .readFails | .move _ .resume | .move _ (.mcpReturns _) | .move _ (.mcpRaises _)
  | .move _ .commits | .move _ .finishes | .request _ => inferInstanceAs (Decidable False)

/-! ## What a serial history keeps -/

/-- A handler that waits was let in, and past its check it still has its pending row. -/
def Sees (api : App Args Val Out) (t : Table) (h : Handler Args Val Out) : Prop :=
  match h.pc with
  | .ended _ => True
  | .stored _ _ => True
  | .getting => Triggers.Api.enter api h.req = .getting
  | .got record => Triggers.Api.enter api h.req = .getting ∧ get api.codec t h.req.proposalId = some record
  | .calling r => Triggers.Api.enter api h.req = .getting ∧ h.req.endpoint = .approve ∧
      get api.codec t h.req.proposalId = some (some r) ∧ r.status = .pending
  | .setting d => Triggers.Api.enter api h.req = .getting ∧ ((∃ v, d = .applied v) → h.req.endpoint = .approve) ∧
      ∃ r, get api.codec t h.req.proposalId = some (some r) ∧ r.status = .pending ∧ d.status ≠ .pending

structure InTurn (api : App Args Val Out) (s : St Args Val Out) : Prop where
  one : ∀ {i j : Nat} {h h' : Handler Args Val Out}, s.handlers[i]? = some h → s.handlers[j]? = some h' →
    ended h = false → ended h' = false → i = j
  sees : ∀ h ∈ s.handlers, Sees api s.table h
  back : ∀ h ∈ s.handlers, unrecorded h = true → h.req.proposalId ∈ s.returned

theorem Advance.not_ended {api : App Args Val Out} {i : Nat} {t : Table} {h : Handler Args Val Out} {m : Move Val}
    {f : Effect Args Val Out} (ha : Advance api i t h m f) : ended h = false := by
  unfold ended
  cases ha with
  | setFails hp => rcases hp with ⟨d, hp⟩ | ⟨d, b, hp⟩ <;> simp [hp]
  | cancel hp =>
    split
    · rename_i o ho; exact absurd ho (hp o)
    · rfl
  | _ => simp [*]

theorem sees_move {api : App Args Val Out} {i : Nat} {t : Table} {h : Handler Args Val Out} {m : Move Val}
    {f : Effect Args Val Out} (hs : Sees api t h) (ha : Advance api i t h m f) : Sees api f.table f.handler := by
  cases ha with
  | read record hp hg =>
    simp only [Sees, hp] at hs
    exact ⟨hs, hg⟩
  | invoke record hp hst he =>
    simp only [Sees, hp] at hs
    exact ⟨hs.1, he, hs.2, hst⟩
  | decline record hp hst he =>
    simp only [Sees, hp] at hs
    refine ⟨hs.1, ?_, record, hs.2, hst, Decision.status_ne _⟩
    intro ⟨v, h⟩
    cases h
  | mcpReturns record v hp =>
    simp only [Sees, hp] at hs
    exact ⟨hs.1, fun _ => hs.2.1, record, hs.2.2.1, hs.2.2.2, Decision.status_ne _⟩
  | mcpRaises record e hp =>
    simp only [Sees, hp] at hs
    exact ⟨hs.1, fun _ => hs.2.1, record, hs.2.2.1, hs.2.2.2, Decision.status_ne _⟩
  | _ => trivial

/-- An ended handler sees nothing of the table. -/
theorem sees_ended {api : App Args Val Out} (t : Table) {h : Handler Args Val Out} (he : ended h = true) : Sees api t h := by
  unfold ended at he
  unfold Sees
  split at he
  · rename_i o ho; simp [ho]
  · cases he

theorem sees_enter (api : App Args Val Out) (t : Table) (r : Request) :
    Sees api t ⟨r, Triggers.Api.enter api r, none⟩ := by
  rcases Triggers.Api.enter_cases api r with ⟨he, -⟩ | ⟨a, he, -⟩ <;> simp [Sees, he]

theorem getElem?_apply {s : St Args Val Out} {i : Nat} {h : Handler Args Val Out} (hi : s.handlers[i]? = some h)
    (f : Effect Args Val Out) (j : Nat) :
    (s.apply i f).handlers[j]? = if j = i then some f.handler else s.handlers[j]? := by
  have hlt : i < s.handlers.length := (List.getElem?_eq_some_iff.mp hi).1
  simp only [Triggers.Api.St.apply, List.getElem?_set]
  by_cases e : j = i
  · subst e; simp [hlt]
  · simp [e, Ne.symm e]

theorem inTurn_init (api : App Args Val Out) (t : Table) : InTurn api (init t) :=
  ⟨fun hi _ _ _ => by simp [init] at hi, fun _ hm => (by cases hm), fun _ hm => (by cases hm)⟩

theorem unrecorded_live {h : Handler Args Val Out} (hu : unrecorded h = true) : ended h = false := by
  unfold unrecorded at hu
  unfold ended
  split at hu
  · rename_i hp; simp [hp]
  · cases hu

/-- Only the return of the tool makes a handler's success unrecorded. -/
theorem Advance.unrecorded {api : App Args Val Out} {i : Nat} {t : Table} {h : Handler Args Val Out} {m : Move Val}
    {f : Effect Args Val Out} (ha : Advance api i t h m f) (hu : unrecorded f.handler = true) :
    h.req.proposalId ∈ f.returned := by
  cases ha with
  | mcpReturns record v hp => exact List.mem_singleton.mpr rfl
  | _ => cases hu

theorem inTurn_request {api : App Args Val Out} {s : St Args Val Out} (hs : InTurn api s) (r : Request)
    (hall : s.handlers.all ended = true) :
    InTurn api { s with handlers := s.handlers ++ [⟨r, Triggers.Api.enter api r, none⟩] } := by
  -- only the new handler can be live
  have hlast : ∀ {i : Nat} {h : Handler Args Val Out}, (s.handlers ++ [⟨r, Triggers.Api.enter api r, none⟩])[i]? = some h →
      ended h = false → i = s.handlers.length := by
    intro i h hi hl
    have hlt : i < s.handlers.length + 1 := by simpa using (List.getElem?_eq_some_iff.mp hi).1
    by_contra hne
    rw [List.getElem?_append_left (by omega)] at hi
    rw [List.all_eq_true.mp hall h (List.mem_of_getElem? hi)] at hl
    cases hl
  refine ⟨?_, ?_, ?_⟩
  · intro i j h h' hi hj hl hl'
    rw [hlast hi hl, hlast hj hl']
  · intro h hm
    rcases List.mem_append.mp hm with hm | hm
    · exact hs.sees h hm
    · rw [List.mem_singleton.mp hm]; exact sees_enter api _ r
  · intro h hm hu
    rcases List.mem_append.mp hm with hm | hm
    · exact hs.back h hm hu
    · rw [List.mem_singleton.mp hm] at hu
      rcases Triggers.Api.enter_cases api r with ⟨he, -⟩ | ⟨a, he, -⟩ <;> simp [unrecorded, he] at hu

theorem inTurn_move {api : App Args Val Out} {s : St Args Val Out} {i : Nat} {hd : Handler Args Val Out} {m : Move Val}
    {f : Effect Args Val Out} (hs : InTurn api s) (hi : s.handlers[i]? = some hd) (ha : Advance api i s.table hd m f) :
    InTurn api (s.apply i f) := by
  -- the others have ended
  have hother : ∀ {j : Nat} {h : Handler Args Val Out}, j ≠ i → s.handlers[j]? = some h → ended h = true := by
    intro j h hne hj
    by_contra hl
    exact hne (hs.one hj hi (by simpa using hl) (Advance.not_ended ha))
  have hat : ∀ {j : Nat} {h : Handler Args Val Out}, (s.apply i f).handlers[j]? = some h → ended h = false → j = i := by
    intro j h hj hl
    by_contra hne
    rw [getElem?_apply hi, if_neg hne] at hj
    rw [hother hne hj] at hl
    cases hl
  refine ⟨?_, ?_, ?_⟩
  · intro j k h h' hj hk hl hl'
    rw [hat hj hl, hat hk hl']
  · intro h hm
    obtain ⟨j, hj⟩ := List.getElem?_of_mem hm
    rw [getElem?_apply hi] at hj
    split at hj
    · cases hj
      exact sees_move (hs.sees hd (List.mem_of_getElem? hi)) ha
    · rename_i hne
      exact sees_ended _ (hother hne hj)
  · intro h hm hu
    rcases List.mem_or_eq_of_mem_set hm with hm | e
    · exact List.mem_append_left _ (hs.back h hm hu)
    · rw [e] at hu ⊢
      rw [ha.req]
      exact List.mem_append_right _ (Advance.unrecorded ha hu)

theorem inTurn_step {api : App Args Val Out} {s t : St Args Val Out} {e : Ev Val} (hs : InTurn api s) (ho : Serial s e)
    (h : Triggers.Api.step api s e = some t) : InTurn api t := by
  rcases Triggers.Api.step_cases h with ⟨r, rfl, rfl⟩ | ⟨i, m, hd, f, rfl, hi, ha, rfl⟩
  · exact inTurn_request hs r ho
  · exact inTurn_move hs hi ha

/-! ## A recorded success is not repeated -/

/-- Allowed steps: requests in turn, and no success lost. -/
def Recording (s : St Args Val Out) (e : Ev Val) : Prop := Serial s e ∧ ¬ Loses s e

instance (s : St Args Val Out) (e : Ev Val) : Decidable (Recording s e) := inferInstanceAs (Decidable (_ ∧ _))

/-- A success is recorded, or its handler is about to record it. -/
def Kept (s : St Args Val Out) : Prop :=
  ∀ pid ∈ s.returned, statusOf s.table pid ≠ some .pending ∨
    ∃ h ∈ s.handlers, h.req.proposalId = pid ∧ unrecorded h = true

theorem sees_pending {api : App Args Val Out} {t : Table} {h : Handler Args Val Out} {r : ProposalRecord Args}
    (hg : get api.codec t h.req.proposalId = some (some r)) (hr : r.status = .pending) :
    statusOf t h.req.proposalId = some .pending := by
  rw [get_status hg, hr]

theorem statusOf_committed {t : Table} {pid : String} {st : Status} {e : Option String} (hst : st ≠ .pending) :
    statusOf (setStatus t pid st e).2 pid ≠ some .pending := by
  intro hp
  have hrow : (statusOf t pid).isSome = true := by rw [← statusOf_setStatus_isSome t pid pid st e, hp]; rfl
  obtain ⟨st', hst'⟩ := Option.isSome_iff_exists.mp hrow
  rw [statusOf_setStatus_same hst'] at hp
  cases hp
  exact hst rfl

/-- The one handler that is live is the one that moves. -/
theorem unrecorded_mover {api : App Args Val Out} {s : St Args Val Out} {i : Nat} {hd h : Handler Args Val Out} {m : Move Val}
    {f : Effect Args Val Out} (hs : InTurn api s) (hi : s.handlers[i]? = some hd) (ha : Advance api i s.table hd m f)
    (hm : h ∈ s.handlers) (hu : unrecorded h = true) : h = hd := by
  obtain ⟨j, hj⟩ := List.getElem?_of_mem hm
  have := hs.one hj hi (unrecorded_live hu) (Advance.not_ended ha)
  subst this
  exact Option.some.inj (hj.symm.trans hi)

theorem kept_recorded {api : App Args Val Out} {s : St Args Val Out} {i : Nat} {hd : Handler Args Val Out} {m : Move Val}
    {f : Effect Args Val Out} (hs : InTurn api s) (hk : Kept s) (hi : s.handlers[i]? = some hd)
    (ha : Advance api i s.table hd m f) (hu : unrecorded hd = false) {pid : String} (hp : pid ∈ s.returned) :
    statusOf s.table pid ≠ some .pending := by
  rcases hk pid hp with hst | ⟨h, hm, -, hq⟩
  · exact hst
  · rw [unrecorded_mover hs hi ha hm hq, hu] at hq
    cases hq

theorem kept_move {api : App Args Val Out} {s : St Args Val Out} {i : Nat} {hd : Handler Args Val Out} {m : Move Val}
    {f : Effect Args Val Out} (hs : InTurn api s) (hk : Kept s) (ho : ¬ Loses s (.move i m)) (hi : s.handlers[i]? = some hd)
    (ha : Advance api i s.table hd m f) : Kept (s.apply i f) := by
  have hrecorded : unrecorded hd = false → ∀ {pid}, pid ∈ s.returned → statusOf s.table pid ≠ some .pending :=
    fun hu _ hp => kept_recorded hs hk hi ha hu hp
  have hsees := hs.sees hd (List.mem_of_getElem? hi)
  have hlt : i < s.handlers.length := (List.getElem?_eq_some_iff.mp hi).1
  intro pid hp
  cases ha with
  | mcpReturns record v hc =>
    rcases List.mem_append.mp hp with hp | hp
    · exact Or.inl (hrecorded (by simp [unrecorded, hc]) hp)
    · rw [List.mem_singleton.mp hp]
      exact Or.inr ⟨_, List.mem_set hlt _, rfl, rfl⟩
  | commits d hc =>
    have hp : pid ∈ s.returned := by simpa [Triggers.Api.St.apply] using hp
    simp only [Sees, hc] at hsees
    obtain ⟨-, -, -, -, -, hne⟩ := hsees
    left
    show statusOf (setStatus s.table hd.req.proposalId d.status d.error).2 pid ≠ some .pending
    by_cases hpid : pid = hd.req.proposalId
    · rw [hpid]; exact statusOf_committed hne
    · rw [statusOf_setStatus_ne hpid]
      rcases hk pid hp with hst | ⟨h, hm, hq, hu⟩
      · exact hst
      · rw [unrecorded_mover hs hi (.commits d hc) hm hu] at hq
        exact absurd hq.symm hpid
  | setFails hc =>
    refine Or.inl (hrecorded ?_ (by simpa [Triggers.Api.St.apply] using hp))
    simpa [Loses, hi] using ho
  | cancel hc =>
    refine Or.inl (hrecorded ?_ (by simpa [Triggers.Api.St.apply] using hp))
    simpa [Loses, hi] using ho
  | _ =>
    refine Or.inl (hrecorded ?_ (by simpa [Triggers.Api.St.apply] using hp))
    simp [unrecorded, *]

/-- An invocation is of a pending row, and a row whose tool has returned is not pending. -/
theorem calls_move {api : App Args Val Out} {s : St Args Val Out} {i : Nat} {hd : Handler Args Val Out} {m : Move Val}
    {f : Effect Args Val Out} (hs : InTurn api s) (hk : Kept s) (hi : s.handlers[i]? = some hd)
    (ha : Advance api i s.table hd m f) {pid : String} (hp : pid ∈ s.returned) :
    (s.apply i f).callsFor pid = s.callsFor pid := by
  have hsees := hs.sees hd (List.mem_of_getElem? hi)
  have hcalls : f.calls.filter (·.proposalId == pid) = [] := by
    cases ha with
    | invoke record hc hst he =>
      simp only [Sees, hc] at hsees
      have hne : hd.req.proposalId ≠ pid := by
        intro e
        subst e
        exact kept_recorded hs hk hi (.invoke record hc hst he) (by simp [unrecorded, hc]) hp (sees_pending hsees.2 hst)
      simp [hne]
    | _ => rfl
  simp [Triggers.Api.St.callsFor, Triggers.Api.St.apply, hcalls]

/-- What one allowed step does to the successes and to the invocations. -/
theorem kept_step {api : App Args Val Out} {s t : St Args Val Out} {e : Ev Val} (hs : InTurn api s) (hk : Kept s)
    (ho : ¬ Loses s e) (h : Triggers.Api.step api s e = some t) :
    Kept t ∧ ∀ pid ∈ s.returned, pid ∈ t.returned ∧ t.callsFor pid = s.callsFor pid := by
  rcases Triggers.Api.step_cases h with ⟨r, rfl, rfl⟩ | ⟨i, m, hd, f, rfl, hi, ha, rfl⟩
  · refine ⟨fun pid hp => ?_, fun pid hp => ⟨hp, rfl⟩⟩
    rcases hk pid hp with hst | ⟨h', hm, hq⟩
    · exact Or.inl hst
    · exact Or.inr ⟨h', List.mem_append_left _ hm, hq⟩
  · exact ⟨kept_move hs hk ho hi ha, fun pid hp => ⟨List.mem_append_left _ hp, calls_move hs hk hi ha hp⟩⟩

theorem inTurn_kept {api : App Args Val Out} (s : St Args Val Out) (e : Ev Val) (t : St Args Val Out)
    (hs : InTurn api s ∧ Kept s) (ho : Recording s e) (h : Triggers.Api.step api s e = some t) :
    InTurn api t ∧ Kept t :=
  ⟨inTurn_step hs.1 ho.1 h, (kept_step hs.1 hs.2 ho.2 h).1⟩

/-- Once the tool returned for a proposal it is not invoked for it again, and when its
    handlers have ended the row is not pending, in every serial history that loses no
    success. -/
theorem applied_not_repeated (api : App Args Val Out) (t : Table) {s u : St Args Val Out}
    (h : Run (Triggers.Api.step api) Recording (init t) s) (h' : Run (Triggers.Api.step api) Recording s u) {pid : String}
    (hp : pid ∈ s.returned) :
    u.callsFor pid = s.callsFor pid ∧ (u.handlers.all ended = true → statusOf u.table pid ≠ some .pending) := by
  have hs := h.invariant (I := fun s => InTurn api s ∧ Kept s) inTurn_kept ⟨inTurn_init api t, fun _ hp => by cases hp⟩
  have hkeep := h'.relate (I := fun s => InTurn api s ∧ Kept s)
    (R := fun s u => ∀ pid ∈ s.returned, pid ∈ u.returned ∧ u.callsFor pid = s.callsFor pid) inTurn_kept
    (fun _ _ hp => ⟨hp, rfl⟩)
    (fun _ _ _ h h' pid hp => ⟨(h' pid (h pid hp).1).1, (h' pid (h pid hp).1).2.trans (h pid hp).2⟩)
    (fun _ _ _ hi ho h => (kept_step hi.1 hi.2 ho.2 h).2) hs
  have hu := h'.invariant (I := fun s => InTurn api s ∧ Kept s) inTurn_kept hs
  refine ⟨(hkeep pid hp).2, fun hall => ?_⟩
  rcases hu.2 pid (hkeep pid hp).1 with hst | ⟨hd, hm, -, hun⟩
  · exact hst
  · have := unrecorded_live hun
    rw [List.all_eq_true.mp hall hd hm] at this
    cases this

/-- What a lost success leaves. -/
theorem loses_cases {api : App Args Val Out} {s s' : St Args Val Out} {e : Ev Val} (hl : Loses s e)
    (h : Triggers.Api.step api s e = some s') :
    ∃ i h o, s.handlers[i]? = some h ∧ unrecorded h = true ∧
      s' = s.apply i { handler := h.to (.ended o), table := s.table } := by
  rcases Triggers.Api.step_cases h with ⟨r, he, -⟩ | ⟨i, m, hd, f, he, hi, ha, ht⟩
  · subst he; cases hl
  · subst he
    cases ha with
    | setFails hp => exact ⟨i, hd, _, hi, by simpa [Loses, hi] using hl, ht⟩
    | cancel hp => exact ⟨i, hd, _, hi, by simpa [Loses, hi] using hl, ht⟩
    | _ => cases hl

theorem mem_apply {s : St Args Val Out} {i : Nat} {f : Effect Args Val Out} {h : Handler Args Val Out}
    (hm : h ∈ (s.apply i f).handlers) : h = f.handler ∨ ∃ j, j ≠ i ∧ s.handlers[j]? = some h :=
  Tasks.mem_move hm

/-- An authorised approve of a pending row, alone: the tool is invoked. -/
theorem approve_calls (api : App Args Val Out) {s : St Args Val Out} {req : Request} {r : ProposalRecord Args}
    (hall : s.handlers.all ended = true) (he : Triggers.Api.enter api req = .getting) (ha : req.endpoint = .approve)
    (hg : get api.codec s.table req.proposalId = some (some r)) (hr : r.status = .pending) :
    ∃ u, Run (Triggers.Api.step api) Serial s u ∧
      (u.callsFor req.proposalId).length = (s.callsFor req.proposalId).length + 1 := by
  obtain ⟨s1, hs1⟩ : ∃ s1 : St Args Val Out, s1 = { s with handlers := s.handlers ++ [⟨req, .getting, none⟩] } := ⟨_, rfl⟩
  have h1 : Triggers.Api.step api s (.request req) = some s1 := by simp only [Triggers.Api.step, he, hs1]
  have hh1 : s1.handlers[s.handlers.length]? = some ⟨req, .getting, none⟩ := by simp [hs1]
  have hg1 : get api.codec s1.table req.proposalId = some (some r) := by rw [hs1]; exact hg
  obtain ⟨f, hf⟩ : ∃ f : Effect Args Val Out, f = { handler := ⟨req, .got (some r), some r⟩, table := s1.table } := ⟨_, rfl⟩
  have h2 : Triggers.Api.step api s1 (.move s.handlers.length .read) = some (s1.apply s.handlers.length f) := by
    simp only [Triggers.Api.step, hh1, Option.bind_some, Triggers.Api.advance, hg1, Option.map_some, hf]
  have hh2 : (s1.apply s.handlers.length f).handlers[s.handlers.length]? = some ⟨req, .got (some r), some r⟩ := by
    rw [getElem?_apply hh1, if_pos rfl, hf]
  obtain ⟨u, h3, hc, -⟩ := resume_calls api hh2 rfl hr ha
  refine ⟨u, ((Run.single (.request req) hall h1).tail (.move _ .read) trivial h2).tail (.move _ .resume) trivial h3, ?_⟩
  rw [hc, hf, hs1]
  simp [Triggers.Api.St.callsFor, Triggers.Api.St.apply]

/-- The condition of `applied_not_repeated` is exact: a step that loses a success leaves
    every handler ended and the row pending, and the tool can run again. -/
theorem lost_success_repeats (api : App Args Val Out) (t : Table) {s s' : St Args Val Out} {e : Ev Val}
    (h : Run (Triggers.Api.step api) Serial (init t) s) (hl : Loses s e) (hs' : Triggers.Api.step api s e = some s') :
    ∃ pid ∈ s'.returned, s'.handlers.all ended = true ∧ statusOf s'.table pid = some .pending ∧
      ∃ u, Run (Triggers.Api.step api) Serial s' u ∧ (u.callsFor pid).length = (s'.callsFor pid).length + 1 := by
  have hi : InTurn api s := h.invariant (fun _ _ _ hs ho h => inTurn_step hs ho h) (inTurn_init api t)
  obtain ⟨i, hd, o, hh, hu, he⟩ := loses_cases hl hs'
  have hmem := List.mem_of_getElem? hh
  have hsees := hi.sees hd hmem
  have hback := hi.back hd hmem hu
  unfold unrecorded at hu
  split at hu
  case h_2 => cases hu
  rename_i v hp
  simp only [Sees, hp] at hsees
  obtain ⟨hent, happ, r, hg, hr, -⟩ := hsees
  have hall : s'.handlers.all ended = true := by
    refine List.all_eq_true.mpr fun h hm => ?_
    rw [he] at hm
    rcases mem_apply hm with e | ⟨j, hne, hj⟩
    · rw [e]; rfl
    · by_contra hlive
      exact hne (hi.one hj hh (by simpa using hlive) (by simp [ended, hp]))
  have hg' : get api.codec s'.table hd.req.proposalId = some (some r) := by rw [he]; exact hg
  refine ⟨hd.req.proposalId, ?_, hall, by rw [get_status hg', hr], approve_calls api hall hent (happ ⟨v, rfl⟩) hg' hr⟩
  rw [he]
  exact List.mem_append_left _ hback

/-! Runs on the one pending proposal. -/

/-- An approve whose tool returns, then a second one: the second one does not run the tool. -/
theorem applied_not_repeated_in_turn :
    ∃ s u, Run (Triggers.Api.step demoApp) Recording (init onePending) s ∧ Run (Triggers.Api.step demoApp) Recording s u ∧
      "p" ∈ s.returned ∧ u.handlers.length = 2 ∧ u.callsFor "p" = s.callsFor "p" ∧ statusOf u.table "p" ≠ some .pending := by
  obtain ⟨s, hr, hp⟩ := Run.exists_of_exec (Triggers.Api.step demoApp) Recording (init onePending)
    [authorised .approve, .move 0 .read, .move 0 .resume, .move 0 (.mcpReturns ())]
    (fun s => s.returned.contains "p" &&
      (exec (Triggers.Api.step demoApp) Recording s
        [.move 0 .commits, .move 0 .setFails, authorised .approve, .move 1 .read, .move 1 .resume]).any
          fun u => u.handlers.length == 2 && u.handlers.all ended)
    (by decide)
  simp only [Bool.and_eq_true, List.contains_iff_mem] at hp
  obtain ⟨hret, hu⟩ := hp
  obtain ⟨u, hru, hpu⟩ := Run.exists_of_exec _ _ _ _ _ hu
  simp only [Bool.and_eq_true, beq_iff_eq] at hpu
  obtain ⟨hc, hst⟩ := applied_not_repeated demoApp onePending hr hru hret
  exact ⟨s, u, hr, hru, hret, hpu.1, hc, hst hpu.2⟩

/-- The tool returned, the store raised: the row is pending, and the next approve runs
    the tool again. -/
theorem approve_repeats_after_store_error :
    ∃ s u, Run (Triggers.Api.step demoApp) Serial (init onePending) s ∧ Run (Triggers.Api.step demoApp) Serial s u ∧
      "p" ∈ s.returned ∧ s.handlers.all ended = true ∧ statusOf s.table "p" = some .pending ∧
      (s.callsFor "p").length = 1 ∧ (u.callsFor "p").length = 2 := by
  obtain ⟨s, hr, hp⟩ := Run.exists_of_exec (Triggers.Api.step demoApp) Serial (init onePending)
    [authorised .approve, .move 0 .read, .move 0 .resume, .move 0 (.mcpReturns ()), .move 0 .setFails]
    (fun s => s.returned.contains "p" && s.handlers.all ended && statusOf s.table "p" == some .pending &&
      (s.callsFor "p").length == 1 &&
      (exec (Triggers.Api.step demoApp) Serial s [authorised .approve, .move 1 .read, .move 1 .resume]).any
        fun u => (u.callsFor "p").length == 2)
    (by decide)
  simp only [Bool.and_eq_true, List.contains_iff_mem, beq_iff_eq] at hp
  obtain ⟨⟨⟨⟨hret, hall⟩, hst⟩, hc⟩, hu⟩ := hp
  obtain ⟨u, hru, hpu⟩ := Run.exists_of_exec _ _ _ _ _ hu
  exact ⟨s, u, hr, hru, hret, hall, hst, hc, by simpa using hpu⟩

end SagaAgents.Proposals.Failures
