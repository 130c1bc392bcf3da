/-
  SagaAgents.Runtime.Staleness — how old the guidance is that `GuidanceProvider.get` returns.

  The provider of `Guidance` with a diary beside it: what the server has published and
  since when, and for each call when it began, when the server answered its fetch and when
  it was over. The steps are the provider's. The diary only writes them down.

  Proved, over every run, whatever the fetches do:
  - `returned_current`: a returned guidance is what the server had at an instant inside a
    fetch, this call's own or one that ended less than `ttl` before the call began.
  - `replaced_within`: where no fetch takes longer than `d`, no call returns a guidance
    that had been replaced `ttl + d` before it began.
-/

import SagaAgents.Runtime.Guidance

namespace SagaAgents.Runtime.Guidance

open Lib

variable {T : Type}

/-- The times of a call. -/
structure Stamp (T : Type) where
  begun : T
  read : Option T := none
  ended : Option T := none

structure Diary (T : Type) where
  st : St T
  published : List (T × ToolResult)
  stamps : List (Stamp T)

def Diary.init (now : T) (raw : ToolResult) (ttl : T) (strOf : Json → Text) : Diary T :=
  ⟨Guidance.init now raw ttl strOf, [(now, raw)], []⟩

section

variable [Sub T] [LinearOrder T]

/-- The times an event settles. -/
def noted (s : Diary T) : Ev T → List (Stamp T)
  | .get =>
    match s.st.provider.fresh s.st.now with
    | some _ => s.stamps ++ [{ begun := s.st.now, ended := some s.st.now }]
    | none => s.stamps ++ [{ begun := s.st.now }]
  | .reads i => s.stamps.modify i fun p => { p with read := some s.st.now }
  | .completes i | .fails i _ | .cancel i => s.stamps.modify i fun p => { p with ended := some s.st.now }
  | .clock _ | .publish _ => s.stamps

def publishes (s : Diary T) : Ev T → List (T × ToolResult)
  | .publish raw => s.published ++ [(s.st.now, raw)]
  | _ => s.published

def Diary.step (s : Diary T) (e : Ev T) : Option (Diary T) :=
  (Guidance.step s.st e).map fun t => ⟨t, publishes s e, noted s e⟩

end

section

variable [LinearOrder T] {s t : Diary T}

/-- `raw` was the server's version `v` at `r`. -/
def Current (s : Diary T) (v : Nat) (raw : ToolResult) (r : T) : Prop :=
  ∃ a, s.published[v]? = some (a, raw) ∧ a ≤ r ∧ ∀ b ∈ s.published[v + 1]?, r ≤ b.1

/-- Call `j` has fetched this guidance: the server had it at an instant of the call, which
    was over at `d`. -/
structure Fetched (s : Diary T) (g : Versioned StoreGuidance) (j : Nat) (q : Stamp T) (d : T) : Prop where
  stamp : s.stamps[j]? = some q
  ended : q.ended = some d
  past : d ≤ s.st.now
  read : ∃ r raw, q.read = some r ∧ q.begun ≤ r ∧ r ≤ d ∧ Current s g.version raw r ∧
    coerceGuidance s.st.provider.strOf raw = .ok g.value

/-- Where the guidance of a call comes from. -/
def From [Sub T] (s : Diary T) (ttl : T) (g : Versioned StoreGuidance) (i : Nat) (p : Stamp T) : Prop :=
  ∃ j q d, Fetched s g j q d ∧ (j = i ∨ (d ≤ p.begun ∧ p.begun - d < ttl))

/-- What the diary says of a call. -/
def CallOk [Sub T] (s : Diary T) (ttl : T) (i : Nat) (c : Call) (p : Stamp T) : Prop :=
  p.begun ≤ s.st.now ∧
    match c.pc with
    | .fetching => p.ended = none
    | .answered raw => p.ended = none ∧ ∃ r, p.read = some r ∧ p.begun ≤ r ∧ r ≤ s.st.now ∧
      Current s raw.version raw.value r
    | .returned g _ => p.ended ≠ none ∧ From s ttl g i p
    | .raised _ | .cancelled => True

structure Kept [Sub T] (ttl : T) (s : Diary T) : Prop where
  period : s.st.provider.ttl = ttl
  /-- The server's guidance is the last of the published ones. -/
  server : s.published.length = s.st.server.version + 1 ∧ Current s s.st.server.version s.st.server.value s.st.now
  stamps : s.stamps.length = s.st.calls.length
  calls : ∀ i c p, s.st.calls[i]? = some c → s.stamps[i]? = some p → CallOk s ttl i c p
  cache : ∀ g d, s.st.provider.cache = some g → s.st.provider.fetchedAt = some d → ∃ j q, Fetched s g j q d

/-! ## What a later state keeps -/

structure Later (s t : Diary T) : Prop where
  now : s.st.now ≤ t.st.now
  strOf : t.st.provider.strOf = s.st.provider.strOf
  published : t.published = s.published ∨ ∃ raw, t.published = s.published ++ [(s.st.now, raw)]
  /-- The times of a call that is over. -/
  stamps : ∀ (j : Nat) (p : Stamp T), s.stamps[j]? = some p → p.ended ≠ none → t.stamps[j]? = some p

theorem current_later (h : Later s t) {v : Nat} {raw : ToolResult} {r : T} (hr : r ≤ s.st.now) (hc : Current s v raw r) :
    Current t v raw r := by
  obtain ⟨a, ha, hle, hnext⟩ := hc
  rcases h.published with e | ⟨raw', e⟩
  · exact ⟨a, by rw [e]; exact ha, hle, by rw [e]; exact hnext⟩
  · refine ⟨a, by rw [e]; exact Tasks.get_kept ha, hle, fun b hb => ?_⟩
    rw [e] at hb
    rcases Tasks.get_start.mp hb with hb | ⟨-, hb⟩
    · exact hnext b hb
    · rw [← hb]
      exact hr

theorem fetched_later (h : Later s t) {g : Versioned StoreGuidance} {j : Nat} {q : Stamp T} {d : T} (hf : Fetched s g j q d) :
    Fetched t g j q d := by
  obtain ⟨r, raw, hr, hb, hd, hc, hg⟩ := hf.read
  refine ⟨h.stamps j q hf.stamp (by rw [hf.ended]; exact Option.some_ne_none d), hf.ended, hf.past.trans h.now,
    r, raw, hr, hb, hd, current_later h (hd.trans hf.past) hc, ?_⟩
  rw [h.strOf]
  exact hg

variable [Sub T] {ttl : T}

theorem callOk_later (h : Later s t) {i : Nat} {c : Call} {p : Stamp T} (hc : CallOk s ttl i c p) : CallOk t ttl i c p := by
  obtain ⟨hb, hc⟩ := hc
  refine ⟨hb.trans h.now, ?_⟩
  cases hp : c.pc with
  | fetching =>
    simp only [hp] at hc
    exact hc
  | answered raw =>
    simp only [hp] at hc
    obtain ⟨he, r, hread, hbr, hr, hcur⟩ := hc
    exact ⟨he, r, hread, hbr, hr.trans h.now, current_later h hr hcur⟩
  | returned g n =>
    simp only [hp] at hc
    obtain ⟨he, j, q, d, hf, hd⟩ := hc
    exact ⟨he, j, q, d, fetched_later h hf, hd⟩
  | raised text => trivial
  | cancelled => trivial

/-- A step that leaves the server's guidance alone. -/
theorem kept_calls (hs : Kept ttl s) (h : Later s t) (httl : t.st.provider.ttl = s.st.provider.ttl)
    (hserver : t.st.server = s.st.server) (hpub : t.published = s.published) (hlen : t.stamps.length = t.st.calls.length)
    (hcache : ∀ g d, t.st.provider.cache = some g → t.st.provider.fetchedAt = some d →
      (s.st.provider.cache = some g ∧ s.st.provider.fetchedAt = some d) ∨ ∃ j q, Fetched t g j q d)
    (hcalls : ∀ i c p, t.st.calls[i]? = some c → t.stamps[i]? = some p →
      (s.st.calls[i]? = some c ∧ s.stamps[i]? = some p) ∨ CallOk t ttl i c p) : Kept ttl t := by
  refine ⟨by rw [httl]; exact hs.period, ⟨by rw [hpub, hserver]; exact hs.server.1, ?_⟩, hlen, fun i c p hc hp => ?_,
    fun g d hg hd => ?_⟩
  · obtain ⟨a, ha, hle, hnext⟩ := hs.server.2
    rw [hserver]
    refine ⟨a, by rw [hpub]; exact ha, hle.trans h.now, fun b hb => ?_⟩
    -- there is no newer one
    have hnone : s.published[s.st.server.version + 1]? = none := List.getElem?_eq_none (by rw [hs.server.1])
    rw [hpub, hnone] at hb
    cases hb
  · rcases hcalls i c p hc hp with ⟨hc, hp⟩ | hok
    · exact callOk_later h (hs.calls i c p hc hp)
    · exact hok
  · rcases hcache g d hg hd with ⟨hg, hd⟩ | hf
    · obtain ⟨j, q, hf⟩ := hs.cache g d hg hd
      exact ⟨j, q, fetched_later h hf⟩
    · exact hf

/-! ## One call -/

omit [LinearOrder T] [Sub T] in
theorem get_modify {l : List (Stamp T)} {i j : Nat} {f : Stamp T → Stamp T} {p : Stamp T} (h : (l.modify i f)[j]? = some p) :
    (j = i ∧ ∃ q, l[i]? = some q ∧ p = f q) ∨ (j ≠ i ∧ l[j]? = some p) := by
  rw [List.getElem?_modify] at h
  obtain ⟨q, hq, e⟩ := Option.map_eq_some_iff.mp h
  by_cases hj : i = j
  · subst hj
    exact Or.inl ⟨rfl, q, hq, by simpa using e.symm⟩
  · simp only [hj, if_false] at e
    rw [e] at hq
    exact Or.inr ⟨fun h => hj h.symm, hq⟩

/-- The times of an open call change, no others. -/
theorem later_modify {i : Nat} {c : Call} {f : Stamp T → Stamp T} (hs : Kept ttl s) (hi : s.st.calls[i]? = some c)
    (hopen : c.pc = .fetching ∨ ∃ raw, c.pc = .answered raw) {u : St T} (hnow : u.now = s.st.now)
    (hstr : u.provider.strOf = s.st.provider.strOf) : Later s ⟨u, s.published, s.stamps.modify i f⟩ := by
  refine ⟨le_of_eq hnow.symm, hstr, Or.inl rfl, fun j p hp hended => ?_⟩
  have hne : i ≠ j := by
    intro e
    subst e
    have hok := hs.calls i c p hi hp
    unfold CallOk at hok
    rcases hopen with hc | ⟨raw, hc⟩
    · simp only [hc] at hok
      exact hended hok.2
    · simp only [hc] at hok
      exact hended hok.2.1
  show (s.stamps.modify i f)[j]? = some p
  rw [List.getElem?_modify, hp]
  simp [hne]

omit [Sub T] in
theorem later_start {p : Stamp T} {u : St T} (hnow : u.now = s.st.now) (hstr : u.provider.strOf = s.st.provider.strOf) :
    Later s ⟨u, s.published, s.stamps ++ [p]⟩ :=
  ⟨le_of_eq hnow.symm, hstr, Or.inl rfl, fun _ _ hp _ => Tasks.get_kept hp⟩

/-- An open call moves. -/
theorem kept_move {i : Nat} {c : Call} {pc : Pc} {f : Stamp T → Stamp T} (hs : Kept ttl s) (hi : s.st.calls[i]? = some c)
    (hopen : c.pc = .fetching ∨ ∃ raw, c.pc = .answered raw) {u : St T}
    (hcalls : u.calls = s.st.calls.set i { c with pc := pc }) (hnow : u.now = s.st.now)
    (hserver : u.server = s.st.server) (httl : u.provider.ttl = s.st.provider.ttl)
    (hstr : u.provider.strOf = s.st.provider.strOf)
    (hcache : ∀ g d, u.provider.cache = some g → u.provider.fetchedAt = some d →
      (s.st.provider.cache = some g ∧ s.st.provider.fetchedAt = some d) ∨
        ∃ j q, Fetched (⟨u, s.published, s.stamps.modify i f⟩ : Diary T) g j q d)
    (hok : ∀ q, s.stamps[i]? = some q → CallOk s ttl i c q →
      CallOk ⟨u, s.published, s.stamps.modify i f⟩ ttl i { c with pc := pc } (f q)) :
    Kept ttl ⟨u, s.published, s.stamps.modify i f⟩ := by
  refine kept_calls hs (later_modify hs hi hopen hnow hstr) httl hserver rfl ?_ hcache fun j b p hb hp => ?_
  · show (s.stamps.modify i f).length = u.calls.length
    rw [hcalls, List.length_modify, List.length_set]
    exact hs.stamps
  · have hb : (s.st.calls.set i { c with pc := pc })[j]? = some b := hcalls ▸ hb
    rcases get_modify hp with ⟨e, q, hq, ep⟩ | ⟨hne, hp⟩
    · subst e ep
      rw [Tasks.get_moved hi] at hb
      cases hb
      exact Or.inr (hok q hq (hs.calls j c q hi hq))
    · rw [List.getElem?_set_ne (Ne.symm hne)] at hb
      exact Or.inl ⟨hb, hp⟩

theorem kept_start {c : Call} {p : Stamp T} (hs : Kept ttl s) {u : St T} (hcalls : u.calls = s.st.calls ++ [c])
    (hnow : u.now = s.st.now) (hserver : u.server = s.st.server) (hprov : u.provider = s.st.provider)
    (hok : CallOk ⟨u, s.published, s.stamps ++ [p]⟩ ttl s.st.calls.length c p) :
    Kept ttl ⟨u, s.published, s.stamps ++ [p]⟩ := by
  refine kept_calls hs (later_start hnow (by rw [hprov])) (by rw [hprov]) hserver rfl ?_ (fun g d hg hd => ?_)
    fun j b q hb hq => ?_
  · show (s.stamps ++ [p]).length = u.calls.length
    rw [hcalls, List.length_append, List.length_append, hs.stamps]
    rfl
  · rw [hprov] at hg hd
    exact Or.inl ⟨hg, hd⟩
  · have hb : (s.st.calls ++ [c])[j]? = some b := hcalls ▸ hb
    have hq : (s.stamps ++ [p])[j]? = some q := hq
    rw [Tasks.get_start] at hb hq
    rcases hb with hb | ⟨e, eb⟩
    · rcases hq with hq | ⟨e, -⟩
      · exact Or.inl ⟨hb, hq⟩
      · rw [List.getElem?_eq_none (by rw [e, hs.stamps])] at hb
        cases hb
    · rcases hq with hq | ⟨-, eq⟩
      · rw [List.getElem?_eq_none (by rw [e, hs.stamps])] at hq
        cases hq
      · subst e eb eq
        exact Or.inr hok

/-! ## A step -/

theorem kept_get {t : Diary T} (hs : Kept ttl s) (h : s.step .get = some t) : Kept ttl t := by
  obtain ⟨u, hu, e⟩ := Option.map_eq_some_iff.mp h
  subst e
  simp only [Guidance.step, act] at hu
  cases hf : s.st.provider.fresh s.st.now with
  | none =>
    simp only [hf, Option.map_some, Option.some.injEq] at hu
    subst hu
    simp only [noted, hf]
    exact kept_start hs rfl rfl rfl rfl ⟨le_refl _, rfl⟩
  | some g =>
    simp only [hf, Option.map_some, Option.some.injEq] at hu
    subst hu
    simp only [noted, hf]
    obtain ⟨g', hg, h'⟩ := Option.bind_eq_some_iff.mp hf
    obtain ⟨d, hd, h'⟩ := Option.bind_eq_some_iff.mp h'
    by_cases hlt : s.st.now - d < s.st.provider.ttl
    · rw [if_pos hlt] at h'
      cases h'
      obtain ⟨j, q, hq⟩ := hs.cache g d hg hd
      rw [hs.period] at hlt
      refine kept_start hs rfl rfl rfl rfl ⟨le_refl _, Option.some_ne_none _, j, q, d, fetched_later ?_ hq,
        Or.inr ⟨hq.past, hlt⟩⟩
      exact later_start rfl rfl
    · rw [if_neg hlt] at h'
      cases h'

theorem kept_publish {raw : ToolResult} {t : Diary T} (hs : Kept ttl s) (h : s.step (.publish raw) = some t) : Kept ttl t := by
  cases h
  have hlater : Later s ⟨{ s.st with server := ⟨s.st.server.version + 1, raw⟩, steps := s.st.steps + 1 },
      s.published ++ [(s.st.now, raw)], s.stamps⟩ :=
    ⟨le_refl _, rfl, Or.inr ⟨raw, rfl⟩, fun _ _ hp _ => hp⟩
  refine ⟨hs.period, ⟨?_, s.st.now, ?_, le_refl _, fun b hb => ?_⟩, hs.stamps,
    fun i c p hc hp => callOk_later hlater (hs.calls i c p hc hp), fun g d hg hd => ?_⟩
  · show (s.published ++ [(s.st.now, raw)]).length = s.st.server.version + 1 + 1
    rw [List.length_append, hs.server.1]
    rfl
  · show (s.published ++ [(s.st.now, raw)])[s.st.server.version + 1]? = _
    rw [← hs.server.1]
    exact Tasks.get_start.mpr (Or.inr ⟨rfl, rfl⟩)
  · have hnone : (s.published ++ [(s.st.now, raw)])[s.st.server.version + 1 + 1]? = none :=
      List.getElem?_eq_none (by rw [List.length_append, hs.server.1, List.length_singleton])
    cases hnone.symm.trans hb
  · obtain ⟨j, q, hf⟩ := hs.cache g d hg hd
    exact ⟨j, q, fetched_later hlater hf⟩

theorem kept_clock {now : T} {t : Diary T} (hs : Kept ttl s) (h : s.step (.clock now) = some t) : Kept ttl t := by
  obtain ⟨u, hu, e⟩ := Option.map_eq_some_iff.mp h
  subst e
  obtain ⟨w, hw, e⟩ := Option.map_eq_some_iff.mp hu
  subst e
  by_cases hle : s.st.now ≤ now
  · simp only [act, hle, if_true] at hw
    cases hw
    exact kept_calls hs ⟨hle, rfl, Or.inl rfl, fun _ _ hp _ => hp⟩ rfl rfl rfl hs.stamps
      (fun g d hg hd => Or.inl ⟨hg, hd⟩) fun i c p hc hp => Or.inl ⟨hc, hp⟩
  · simp only [act, hle, if_false] at hw
    cases hw

theorem kept_reads {i : Nat} {t : Diary T} (hs : Kept ttl s) (h : s.step (.reads i) = some t) : Kept ttl t := by
  obtain ⟨u, hu, e⟩ := Option.map_eq_some_iff.mp h
  subst e
  obtain ⟨w, hw, e⟩ := Option.map_eq_some_iff.mp hu
  subst e
  obtain ⟨c, hi, hw⟩ := Option.bind_eq_some_iff.mp hw
  cases hp : c.pc with
  | fetching =>
    simp only [hp] at hw
    cases hw
    refine kept_move hs hi (Or.inl hp) rfl rfl rfl rfl rfl (fun g d hg hd => Or.inl ⟨hg, hd⟩) fun q _ hok => ?_
    unfold CallOk at hok
    simp only [hp] at hok
    exact ⟨hok.1, hok.2, s.st.now, rfl, hok.1, le_refl _, hs.server.2⟩
  | answered raw => simp [hp] at hw
  | returned g n => simp [hp] at hw
  | raised text => simp [hp] at hw
  | cancelled => simp [hp] at hw

/-- The fetch of an open call is over. -/
theorem act_over {s u : St T} {e : Ev T} {i : Nat} (he : e = .completes i ∨ (∃ text, e = .fails i text) ∨ e = .cancel i)
    (h : act s e = some u) : ∃ c, s.calls[i]? = some c ∧
      (((c.pc = .fetching ∨ ∃ raw, c.pc = .answered raw) ∧
          ∃ pc, u = s.move i c pc ∧ ((∃ text, pc = .raised text) ∨ pc = .cancelled)) ∨
        ∃ raw guidance, c.pc = .answered raw ∧ coerceGuidance s.provider.strOf raw.value = .ok guidance ∧
          u = { s.move i c (.returned ⟨raw.version, guidance⟩ s.steps) with
                provider := { s.provider with cache := some ⟨raw.version, guidance⟩, fetchedAt := some s.now } }) := by
  rcases he with he | ⟨text, he⟩ | he <;> subst he <;> obtain ⟨c, hi, hw⟩ := Option.bind_eq_some_iff.mp h <;>
    refine ⟨c, hi, ?_⟩
  · cases hp : c.pc with
    | answered raw =>
      simp only [hp] at hw
      cases hg : coerceGuidance s.provider.strOf raw.value with
      | error text =>
        simp only [hg] at hw
        cases hw
        exact Or.inl ⟨Or.inr ⟨raw, rfl⟩, _, rfl, Or.inl ⟨text, rfl⟩⟩
      | ok guidance =>
        simp only [hg] at hw
        cases hw
        exact Or.inr ⟨raw, guidance, rfl, hg, rfl⟩
    | _ => simp [hp] at hw
  all_goals
    cases hp : c.pc with
    | fetching =>
      simp only [hp] at hw
      cases hw
      exact Or.inl ⟨Or.inl rfl, _, rfl, by simp [fetchError]⟩
    | answered raw =>
      simp only [hp] at hw
      cases hw
      exact Or.inl ⟨Or.inr ⟨raw, rfl⟩, _, rfl, by simp [fetchError]⟩
    | _ => simp [hp] at hw

theorem kept_over {i : Nat} {e : Ev T} {t : Diary T} (hs : Kept ttl s)
    (he : e = .completes i ∨ (∃ text, e = .fails i text) ∨ e = .cancel i) (h : s.step e = some t) : Kept ttl t := by
  obtain ⟨u, hu, e₁⟩ := Option.map_eq_some_iff.mp h
  subst e₁
  obtain ⟨w, hw, e₂⟩ := Option.map_eq_some_iff.mp hu
  subst e₂
  have hnoted : noted s e = s.stamps.modify i fun p => { p with ended := some s.st.now } := by
    rcases he with he | ⟨text, he⟩ | he <;> subst he <;> rfl
  have hpub : publishes s e = s.published := by
    rcases he with he | ⟨text, he⟩ | he <;> subst he <;> rfl
  obtain ⟨c, hi, ⟨hopen, pc, e, hpc⟩ | ⟨raw, guidance, hp, hg, e⟩⟩ := act_over he hw
  · subst e
    rw [hnoted, hpub]
    refine kept_move hs hi hopen rfl rfl rfl rfl rfl (fun g d hg hd => Or.inl ⟨hg, hd⟩) fun q _ hok => ⟨hok.1, ?_⟩
    rcases hpc with ⟨text, e⟩ | e <;> subst e <;> trivial
  · subst e
    rw [hnoted, hpub]
    obtain ⟨q, hq⟩ : ∃ q, s.stamps[i]? = some q := by
      have hlt : i < s.stamps.length := by
        rw [hs.stamps]
        exact (List.getElem?_eq_some_iff.mp hi).1
      exact ⟨_, List.getElem?_eq_getElem hlt⟩
    have hok := hs.calls i c q hi hq
    unfold CallOk at hok
    simp only [hp] at hok
    obtain ⟨-, -, r, hread, hb, hr, hcur⟩ := hok
    have hopen : c.pc = .fetching ∨ ∃ raw, c.pc = .answered raw := Or.inr ⟨raw, hp⟩
    have hfetched : ∀ u : St T, u.now = s.st.now → u.provider.strOf = s.st.provider.strOf →
        Fetched (⟨u, s.published, s.stamps.modify i fun p => { p with ended := some s.st.now }⟩ : Diary T)
          ⟨raw.version, guidance⟩ i { q with ended := some s.st.now } s.st.now := by
      intro u hnow hstr
      refine ⟨?_, rfl, le_of_eq hnow.symm, r, raw.value, hread, hb, hr, hcur, by rw [hstr]; exact hg⟩
      show (s.stamps.modify i _)[i]? = _
      rw [List.getElem?_modify, hq]
      simp
    refine kept_move hs hi hopen rfl rfl rfl rfl rfl (fun g d hg hd => ?_) fun q' hq' hok => ?_
    · cases hg
      cases hd
      exact Or.inr ⟨i, _, hfetched _ rfl rfl⟩
    · cases hq.symm.trans hq'
      exact ⟨hok.1, Option.some_ne_none _, i, _, _, hfetched _ rfl rfl, Or.inl rfl⟩

theorem kept_step (s : Diary T) (e : Ev T) (t : Diary T) (hs : Kept ttl s) (_ : True) (h : s.step e = some t) : Kept ttl t := by
  cases e with
  | clock now => exact kept_clock hs h
  | publish raw => exact kept_publish hs h
  | get => exact kept_get hs h
  | reads i => exact kept_reads hs h
  | completes i => exact kept_over hs (Or.inl rfl) h
  | fails i text => exact kept_over hs (Or.inr (Or.inl ⟨text, rfl⟩)) h
  | cancel i => exact kept_over hs (Or.inr (Or.inr rfl)) h

theorem kept_init (now : T) (raw : ToolResult) (ttl : T) (strOf : Json → Text) : Kept ttl (Diary.init now raw ttl strOf) := by
  refine ⟨rfl, ⟨rfl, now, rfl, le_refl now, fun b hb => (by cases hb)⟩, rfl, fun i c p hc => (by cases hc),
    fun g d hg => (by cases hg)⟩

/-! ## What a call returns -/

theorem kept_run {now : T} {raw : ToolResult} {strOf : Json → Text} {s : Diary T}
    (h : Run Diary.step (fun _ _ => True) (Diary.init now raw ttl strOf) s) : Kept ttl s :=
  h.invariant kept_step (kept_init now raw ttl strOf)

theorem Kept.source (hs : Kept ttl s) {i : Nat} {c : Call} {g : Versioned StoreGuidance} {n : Nat}
    (hc : s.st.calls[i]? = some c) (hg : c.pc = .returned g n) : ∃ p, s.stamps[i]? = some p ∧ From s ttl g i p := by
  have hlt : i < s.stamps.length := by
    rw [hs.stamps]
    exact (List.getElem?_eq_some_iff.mp hc).1
  have hp : s.stamps[i]? = some s.stamps[i] := List.getElem?_eq_getElem hlt
  have hok := hs.calls i c _ hc hp
  unfold CallOk at hok
  simp only [hg] at hok
  exact ⟨_, hp, hok.2.2⟩

/-- A returned guidance is what the server had at an instant of a fetch: of this call's,
    or of one that ended less than `ttl` before the call began. -/
theorem returned_current {now : T} {raw : ToolResult} {strOf : Json → Text} {s : Diary T}
    (h : Run Diary.step (fun _ _ => True) (Diary.init now raw ttl strOf) s) {i : Nat} {c : Call} {g : Versioned StoreGuidance}
    {n : Nat} (hc : s.st.calls[i]? = some c) (hg : c.pc = .returned g n) : ∃ p, s.stamps[i]? = some p ∧ From s ttl g i p :=
  (kept_run h).source hc hg

end

section

variable [AddCommGroup T] [LinearOrder T] [IsOrderedAddMonoid T]

/-- When no fetch takes longer than `d`, what a call returns had not been replaced
    `ttl + d` before the call began. -/
theorem replaced_within {now ttl d : T} {raw : ToolResult} {strOf : Json → Text} {s : Diary T}
    (h : Run Diary.step (fun _ _ => True) (Diary.init now raw ttl strOf) s) (httl : 0 < ttl)
    (hd : ∀ q ∈ s.stamps, ∀ e ∈ q.ended, e - q.begun ≤ d) {i : Nat} {c : Call} {p : Stamp T} {g : Versioned StoreGuidance}
    {n : Nat} (hc : s.st.calls[i]? = some c) (hg : c.pc = .returned g n) (hp : s.stamps[i]? = some p) {b : T × ToolResult}
    (hb : s.published[g.version + 1]? = some b) : p.begun < b.1 + (ttl + d) := by
  obtain ⟨p', hp', j, q, e, hf, hj⟩ := (kept_run h).source hc hg
  cases hp.symm.trans hp'
  obtain ⟨r, raw', -, hbr, hre, ⟨a, -, -, hnext⟩, -⟩ := hf.read
  have hrb : q.begun ≤ b.1 := hbr.trans (hnext b hb)
  have hlong : e - q.begun ≤ d := hd q (List.mem_of_getElem? hf.stamp) e hf.ended
  rcases hj with hj | ⟨-, hj⟩
  · subst hj
    cases hp.symm.trans hf.stamp
    have hpos : 0 ≤ d := (sub_nonneg.mpr (hbr.trans hre)).trans hlong
    exact hrb.trans_lt (lt_add_of_pos_right _ (add_pos_of_pos_of_nonneg httl hpos))
  · calc p.begun < ttl + e := sub_lt_iff_lt_add.mp hj
      _ ≤ ttl + (d + q.begun) := add_le_add_right (sub_le_iff_le_add.mp hlong) ttl
      _ ≤ ttl + (d + b.1) := add_le_add_right (add_le_add_right hrb d) ttl
      _ = b.1 + (ttl + d) := by rw [← add_assoc, add_comm]

end

/-! The guidance changes while the first fetch is under way; the second call is answered
    from the cache. -/

def diary : Diary Int := .init 0 (language "en") 300 fun _ => []

theorem returned_current_cached :
    ∃ s, Run Diary.step (fun _ _ => True) diary s ∧ s.published.length = 2 ∧
      ∃ c g n, s.st.calls[1]? = some c ∧ c.pc = .returned g n ∧ g.version = 0 ∧
        ∃ p, s.stamps[1]? = some p ∧ From s 300 g 1 p := by
  obtain ⟨s, hr, hp⟩ := Run.exists_of_exec Diary.step (fun _ _ => True) diary
    [.get, .reads 0, .publish (language "de"), .clock 7, .completes 0, .clock 306, .get]
    (fun s => s.published.length == 2 && s.st.calls.map Call.result == [some (0, 4), some (0, 6)]) rfl
  simp only [Bool.and_eq_true, beq_iff_eq] at hp
  obtain ⟨c, hc, hres⟩ : ∃ c, s.st.calls[1]? = some c ∧ c.result = some (0, 6) := by
    have hget : (s.st.calls.map Call.result)[1]? = some (some (0, 6)) := by rw [hp.2]; rfl
    rw [List.getElem?_map] at hget
    exact Option.map_eq_some_iff.mp hget
  cases hpc : c.pc with
  | returned g n =>
    simp only [Call.result, hpc, Option.some.injEq, Prod.mk.injEq] at hres
    exact ⟨s, hr, hp.1, c, g, n, hc, hpc, hres.1, returned_current hr hc hpc⟩
  | _ => simp [Call.result, hpc] at hres

end SagaAgents.Runtime.Guidance
