/-
  SagaAgents.Runtime.GuidanceFetch — `GuidanceProvider.get`, one call after the other
  (`runtime/guidance.py`).

  `get` answers from its cache, or makes one fetch: `factory`, then `async with server`
  around the call of the tool, then `_coerce_guidance`. Each of them can raise, with
  `GuidanceFetchError` or with another exception, and leaving the `async with` can also
  swallow the exception of the call. The clock is read when `get` starts, and again when a
  fetch has succeeded.

  Proved, over every sequence of calls:
  - `holds_latest`: the cache and its time are those of the latest successful fetch.
  - `get_correct`: when `get` answers without a fetch, and what it answers; when a fetch
    succeeds, and with what; and that a failed one raises `GuidanceFetchError` and leaves
    the provider as it was.
  - `get_runs`: such a call is a run of the provider whose calls may overlap (`Guidance`).
-/

import SagaAgents.Lib.Raises
import SagaAgents.Runtime.Guidance

namespace SagaAgents.Runtime.GuidanceFetch

open Lib
open SagaAgents.Runtime.Guidance (StoreGuidance ToolResult Versioned unwrap)

/-! ## A fetch -/

/-- An exception, with its text. -/
inductive Exc where
  | guidanceFetchError (text : String)
  | other (text : String)

/-- What the server does in a fetch. `leave`: whether leaving its context swallows the
    exception of the call. -/
structure Server where
  factory : Except Exc Unit
  enter : Except Exc Unit
  directCallTool : Except Exc ToolResult
  leave : Except Exc Bool

/-- The exception of reading `raw` where the call was swallowed. -/
def unbound : Exc := .other "cannot access local variable 'raw' where it is not associated with a value"

/-- `async with server: raw = await server.direct_call_tool(…)`. -/
def Server.response (s : Server) : Except Exc ToolResult :=
  s.factory.bind fun _ => s.enter.bind fun _ => s.leave.bind fun swallowed =>
    match s.directCallTool with
    | .ok raw => .ok raw
    | .error e => .error (if swallowed then unbound else e)

variable {T : Type}

/-- `"" if v is None else str(v)`. -/
def valueText (strOf : Json → Except Exc Text) : Json → Except Exc Text
  | .null => .ok []
  | .str t => .ok t
  | v => strOf v

/-- The members of the result, one after the other. -/
def coerceMembers (strOf : Json → Except Exc Text) : List (Text × Json) → Except Exc StoreGuidance
  | [] => .ok []
  | (k, v) :: ms => (valueText strOf v).bind fun t => (coerceMembers strOf ms).map fun out => (k, t) :: out

/-- `_coerce_guidance`; `str` raises on an integer of more than 4300 digits. -/
def coerceGuidance (strOf : Json → Except Exc Text) (raw : ToolResult) : Except Exc StoreGuidance :=
  match unwrap raw with
  | .json (.obj ms) => coerceMembers strOf ms
  | data => .error (.guidanceFetchError
      ("get_store_guidance returned unexpected type '" ++ data.typeName ++ "'; expected a dict."))

/-! ## The provider -/

/-- `strOf` is `str` on the values that are no text. -/
structure GuidanceProvider (T : Type) where
  ttl : T
  strOf : Json → Except Exc Text
  cache : Option StoreGuidance := none
  fetchedAt : Option T := none

/-- A call: the clock when it starts, what the server does if it is contacted, and the
    clock when that is over. -/
structure Call (T : Type) where
  started : T
  server : Server
  completed : T

/-- How often the call contacted the server, and what it returned or raised. -/
structure Answer where
  fetches : Nat
  result : Except Exc StoreGuidance

section

variable [Sub T] [LT T] [DecidableLT T]

/-- The cache, if it is fresh. -/
def GuidanceProvider.fresh (p : GuidanceProvider T) (now : T) : Option StoreGuidance :=
  p.cache.bind fun g => p.fetchedAt.bind fun t => if now - t < p.ttl then some g else none

def get (p : GuidanceProvider T) (c : Call T) : GuidanceProvider T × Answer :=
  match p.fresh c.started with
  | some g => (p, ⟨0, .ok g⟩)
  | none =>
    match c.server.response.bind (coerceGuidance p.strOf) with
    | .error (.guidanceFetchError text) => (p, ⟨1, .error (.guidanceFetchError text)⟩)
    | .error (.other text) =>
      (p, ⟨1, .error (.guidanceFetchError ("Could not fetch get_store_guidance from MCP: " ++ text))⟩)
    | .ok guidance => ({ p with cache := some guidance, fetchedAt := some c.completed }, ⟨1, .ok guidance⟩)

/-- The calls with their answers. -/
def answered (p : GuidanceProvider T) : List (Call T) → List (Call T × Answer)
  | [] => []
  | c :: cs => (c, (get p c).2) :: answered (get p c).1 cs

/-- The provider after the calls. -/
def after (p : GuidanceProvider T) (calls : List (Call T)) : GuidanceProvider T := calls.foldl (fun p c => (get p c).1) p

end

/-! ## What a fetch should do -/

/-- The value under `result` of a mapping with no other key; else the response itself. -/
inductive Payload : ToolResult → ToolResult → Prop
  | wrapped (v : Json) : Payload (.json (.obj [(Text.ofString "result", v)])) (.json v)
  | plain (raw : ToolResult) : (∀ v, raw ≠ .json (.obj [(Text.ofString "result", v)])) → Payload raw raw

/-- The text of a value: nothing for null, a text itself, and what `str` makes of another. -/
inductive TextOf (strOf : Json → Except Exc Text) : Json → Text → Prop
  | null : TextOf strOf .null []
  | str (t : Text) : TextOf strOf (.str t) t
  | other (v : Json) (t : Text) : v ≠ .null → (∀ s, v ≠ .str s) → strOf v = .ok t → TextOf strOf v t

/-- No step of the fetch raises, and the tool returns `raw`. -/
structure Server.Returns (s : Server) (raw : ToolResult) : Prop where
  factory : s.factory = .ok ()
  enter : s.enter = .ok ()
  call : s.directCallTool = .ok raw
  leave : ∃ swallowed, s.leave = .ok swallowed

/-- The fetch succeeds with this guidance: nothing raises, and the payload is a mapping
    with the keys of the guidance, each over its text. -/
def Succeeds (strOf : Json → Except Exc Text) (s : Server) (g : StoreGuidance) : Prop :=
  ∃ raw ms, s.Returns raw ∧ Payload raw (.json (.obj ms)) ∧ List.Forall₂ (fun m o => o.1 = m.1 ∧ TextOf strOf m.2 o.2) ms g

theorem response_ok {s : Server} {raw : ToolResult} : s.response = .ok raw ↔ s.Returns raw := by
  unfold Server.response
  rw [bind_ok]
  constructor
  · rintro ⟨⟨⟩, hf, h⟩
    obtain ⟨⟨⟩, he, h⟩ := bind_ok.mp h
    obtain ⟨swallowed, hl, h⟩ := bind_ok.mp h
    split at h
    · rename_i raw' hc
      cases h
      exact ⟨hf, he, hc, swallowed, hl⟩
    · cases h
  · intro h
    obtain ⟨swallowed, hl⟩ := h.leave
    exact ⟨(), h.factory, bind_ok.mpr ⟨(), h.enter, bind_ok.mpr ⟨swallowed, hl, by rw [h.call]⟩⟩⟩

theorem unwrap_eq {raw data : ToolResult} : unwrap raw = data ↔ Payload raw data := by
  constructor
  · intro h
    subst h
    unfold unwrap
    split
    · rename_i k v
      split
      · rename_i hk
        subst hk
        exact .wrapped v
      · rename_i hk
        refine .plain _ fun w e => hk ?_
        cases e
        rfl
    · rename_i hne
      exact .plain _ fun v => hne _ v
  · intro h
    cases h with
    | wrapped v => rfl
    | plain _ hne =>
      unfold unwrap
      split
      · rename_i k v
        rw [if_neg]
        intro hk
        subst hk
        exact hne v rfl
      · rfl

theorem valueText_ok {strOf : Json → Except Exc Text} {v : Json} {t : Text} : valueText strOf v = .ok t ↔ TextOf strOf v t := by
  constructor
  · intro h
    unfold valueText at h
    split at h
    · cases h
      exact .null
    · cases h
      exact .str _
    · rename_i hn hs
      exact .other v t hn hs h
  · intro h
    cases h with
    | null => rfl
    | str t => rfl
    | other _ _ hn hs h =>
      unfold valueText
      split
      · exact absurd rfl hn
      · exact absurd rfl (hs _)
      · exact h

theorem coerceMembers_ok {strOf : Json → Except Exc Text} {ms : List (Text × Json)} {g : StoreGuidance} :
    coerceMembers strOf ms = .ok g ↔ List.Forall₂ (fun m o => o.1 = m.1 ∧ TextOf strOf m.2 o.2) ms g := by
  induction ms generalizing g with
  | nil =>
    rw [List.forall₂_nil_left_iff]
    constructor
    · intro h; cases h; rfl
    · intro h; subst h; rfl
  | cons m ms ih =>
    obtain ⟨k, v⟩ := m
    rw [coerceMembers, bind_ok]
    constructor
    · rintro ⟨t, ht, h⟩
      cases hms : coerceMembers strOf ms with
      | error e => rw [hms] at h; cases h
      | ok out =>
        rw [hms] at h
        cases h
        exact .cons ⟨rfl, valueText_ok.mp ht⟩ (ih.mp hms)
    · intro h
      cases h with
      | cons hm hms =>
        rename_i o out
        obtain ⟨hk, ht⟩ := hm
        have hk : o.1 = k := hk
        subst hk
        refine ⟨o.2, valueText_ok.mpr ht, ?_⟩
        rw [ih.mpr hms]
        rfl

theorem coerceGuidance_ok {strOf : Json → Except Exc Text} {raw : ToolResult} {g : StoreGuidance} :
    coerceGuidance strOf raw = .ok g ↔
      ∃ ms, Payload raw (.json (.obj ms)) ∧ List.Forall₂ (fun m o => o.1 = m.1 ∧ TextOf strOf m.2 o.2) ms g := by
  unfold coerceGuidance
  constructor
  · intro h
    split at h
    · rename_i ms hu
      exact ⟨ms, unwrap_eq.mp hu, coerceMembers_ok.mp h⟩
    · cases h
  · rintro ⟨ms, hp, hms⟩
    rw [unwrap_eq.mpr hp]
    exact coerceMembers_ok.mpr hms

/-- A fetch makes a guidance just when it should. -/
theorem fetch_ok {strOf : Json → Except Exc Text} {s : Server} {g : StoreGuidance} :
    s.response.bind (coerceGuidance strOf) = .ok g ↔ Succeeds strOf s g := by
  rw [bind_ok]
  constructor
  · rintro ⟨raw, hr, hg⟩
    obtain ⟨ms, hp, hms⟩ := coerceGuidance_ok.mp hg
    exact ⟨raw, ms, response_ok.mp hr, hp, hms⟩
  · rintro ⟨raw, ms, hr, hp, hms⟩
    exact ⟨raw, response_ok.mpr hr, coerceGuidance_ok.mpr ⟨ms, hp, hms⟩⟩

theorem Succeeds.unique {strOf : Json → Except Exc Text} {s : Server} {g g' : StoreGuidance} (h : Succeeds strOf s g)
    (h' : Succeeds strOf s g') : g = g' := by
  have e := (fetch_ok.mpr h).symm.trans (fetch_ok.mpr h')
  exact Except.ok.inj e

/-! ## What a call does -/

section

variable [Sub T] [LT T] [DecidableLT T] {p : GuidanceProvider T} {c : Call T}

/-- The ways through `get`. -/
inductive Got (p : GuidanceProvider T) (c : Call T) : GuidanceProvider T × Answer → Prop
  | hit (g : StoreGuidance) (h : p.fresh c.started = some g) : Got p c (p, ⟨0, .ok g⟩)
  | fetched (g : StoreGuidance) (h : p.fresh c.started = none) (hg : Succeeds p.strOf c.server g) :
      Got p c ({ p with cache := some g, fetchedAt := some c.completed }, ⟨1, .ok g⟩)
  | failed (text : String) (h : p.fresh c.started = none) (hg : ∀ g, ¬ Succeeds p.strOf c.server g) :
      Got p c (p, ⟨1, .error (.guidanceFetchError text)⟩)

theorem get_cases (p : GuidanceProvider T) (c : Call T) : Got p c (get p c) := by
  unfold get
  split
  · rename_i g h
    exact .hit g h
  · rename_i h
    have hfail {e : Exc} (he : c.server.response.bind (coerceGuidance p.strOf) = .error e) : ∀ g, ¬ Succeeds p.strOf c.server g := by
      intro g hg
      rw [fetch_ok.mpr hg] at he
      cases he
    split
    · rename_i text he
      exact .failed text h (hfail he)
    · rename_i text he
      exact .failed _ h (hfail he)
    · rename_i g hg
      exact .fetched g h (fetch_ok.mp hg)

/-! ## Sequences of calls -/

omit [Sub T] [LT T] [DecidableLT T] in
/-- The guidance and the time of a successful fetch. -/
def success (d : Call T × Answer) : Option (StoreGuidance × T) :=
  if d.2.fetches = 0 then none else d.2.result.toOption.map fun g => (g, d.1.completed)

omit [Sub T] [LT T] [DecidableLT T] in
/-- The latest successful fetch. -/
def latest (ds : List (Call T × Answer)) : Option (StoreGuidance × T) := (ds.filterMap success).getLast?

omit [Sub T] [LT T] [DecidableLT T] in
theorem latest_cons (d : Call T × Answer) (ds : List (Call T × Answer)) : latest (d :: ds) = (latest ds).or (success d) := by
  unfold latest
  cases h : success d with
  | none => rw [List.filterMap_cons_none h, Option.or_none]
  | some g =>
    rw [List.filterMap_cons_some h, List.getLast?_cons]
    cases (ds.filterMap success).getLast? <;> rfl

omit [Sub T] [LT T] [DecidableLT T] in
/-- The provider holds this fetch, and no other setting than these. -/
structure Holds (ttl : T) (strOf : Json → Except Exc Text) (o : Option (StoreGuidance × T)) (p : GuidanceProvider T) : Prop where
  ttl : p.ttl = ttl
  strOf : p.strOf = strOf
  cache : p.cache = o.map Prod.fst
  fetchedAt : p.fetchedAt = o.map Prod.snd

variable {ttl : T} {strOf : Json → Except Exc Text} {o : Option (StoreGuidance × T)}

theorem holds_get (h : Holds ttl strOf o p) (c : Call T) :
    Holds ttl strOf ((success (c, (get p c).2)).or o) (get p c).1 := by
  have hg := get_cases p c
  generalize get p c = r at hg ⊢
  cases hg with
  | hit g _ => exact h
  | fetched g _ _ => exact ⟨h.ttl, h.strOf, rfl, rfl⟩
  | failed text _ _ => exact h

/-- After any calls the provider holds the latest successful fetch. -/
theorem holds_latest (h : Holds ttl strOf o p) (calls : List (Call T)) :
    Holds ttl strOf ((latest (answered p calls)).or o) (after p calls) := by
  induction calls generalizing p o with
  | nil => exact h
  | cons c cs ih =>
    have hnext := ih (holds_get h c)
    rw [← Option.or_assoc, ← latest_cons] at hnext
    exact hnext

theorem fresh_iff (h : Holds ttl strOf o p) (now : T) (g : StoreGuidance) :
    p.fresh now = some g ↔ ∃ t, o = some (g, t) ∧ now - t < ttl := by
  unfold GuidanceProvider.fresh
  rw [h.cache, h.fetchedAt, h.ttl]
  cases o with
  | none => simp
  | some q =>
    obtain ⟨g', t⟩ := q
    show (if now - t < ttl then some g' else none) = some g ↔ _
    split
    · rename_i hlt
      constructor
      · intro e
        cases e
        exact ⟨t, rfl, hlt⟩
      · rintro ⟨t', e, -⟩
        cases e
        rfl
    · rename_i hge
      constructor
      · intro e
        cases e
      · rintro ⟨t', e, hlt⟩
        cases e
        exact absurd hlt hge

/-- After any calls, one more call answers without a fetch just when the latest successful
    fetch was over less than `ttl` ago, and answers its guidance. Else it makes one fetch,
    which succeeds just when nothing raises and the payload is a mapping, with the texts of
    the payload; where it does not, the call raises `GuidanceFetchError`, and the cache and
    its time stay. -/
theorem get_correct (ttl : T) (strOf : Json → Except Exc Text) (history : List (Call T)) (c : Call T) :
    let p := after { ttl := ttl, strOf := strOf } history
    let last := latest (answered { ttl := ttl, strOf := strOf } history)
    ((get p c).2.fetches = 0 ↔ ∃ g t, last = some (g, t) ∧ c.started - t < ttl) ∧
      (∀ g t, last = some (g, t) → c.started - t < ttl → (get p c).2.result = .ok g) ∧
      ((get p c).2.fetches ≠ 0 → (get p c).2.fetches = 1 ∧ ∀ g, (get p c).2.result = .ok g ↔ Succeeds strOf c.server g) ∧
      (∀ e, (get p c).2.result = .error e → (∃ text, e = .guidanceFetchError text) ∧ (get p c).1 = p) := by
  intro p last
  have hp : Holds ttl strOf last p := by
    have h := holds_latest (o := none) (p := { ttl := ttl, strOf := strOf }) ⟨rfl, rfl, rfl, rfl⟩ history
    rw [Option.or_none] at h
    exact h
  have hfresh := fresh_iff hp c.started
  have hmiss (h : p.fresh c.started = none) (g : StoreGuidance) (t : T) (hlast : last = some (g, t)) : ¬ c.started - t < ttl := by
    intro hlt
    rw [(hfresh g).mpr ⟨t, hlast, hlt⟩] at h
    cases h
  have hg := get_cases p c
  generalize get p c = r at hg ⊢
  cases hg with
  | hit g h =>
    obtain ⟨t, hlast, hlt⟩ := (hfresh g).mp h
    refine ⟨⟨fun _ => ⟨g, t, hlast, hlt⟩, fun _ => rfl⟩, fun g' t' hlast' _ => ?_, fun hne => absurd rfl hne, fun e he => ?_⟩
    · cases hlast.symm.trans hlast'
      rfl
    · cases he
  | fetched g h hs =>
    rw [hp.strOf] at hs
    refine ⟨⟨fun e => (by cases e), fun ⟨g', t, hlast, hlt⟩ => absurd hlt (hmiss h g' t hlast)⟩,
      fun g' t hlast hlt => absurd hlt (hmiss h g' t hlast), fun _ => ⟨rfl, fun g' => ⟨fun e => ?_, fun hs' => ?_⟩⟩,
      fun e he => (by cases he)⟩
    · cases e
      exact hs
    · exact congrArg Except.ok (hs.unique hs')
  | failed text h hs =>
    rw [hp.strOf] at hs
    refine ⟨⟨fun e => (by cases e), fun ⟨g', t, hlast, hlt⟩ => absurd hlt (hmiss h g' t hlast)⟩,
      fun g' t hlast hlt => absurd hlt (hmiss h g' t hlast), fun _ => ⟨rfl, fun g' => ⟨fun e => (by cases e), fun hs' => ?_⟩⟩,
      fun e he => ?_⟩
    · exact absurd hs' (hs g')
    · cases he
      exact ⟨⟨text, rfl⟩, rfl⟩

end

def english : Server := ⟨.ok (), .ok (), .ok (Guidance.language "en"), .ok false⟩

def down : Server := ⟨.error (.other "mcp down"), .ok (), .ok (Guidance.language "en"), .ok false⟩

/-- A fetch that is over at 5 serves the call at 300; the one at 305 fails, and so does the next. -/
example : ((answered { ttl := (300 : Int), strOf := fun _ => .ok [] }
    [⟨0, english, 5⟩, ⟨300, down, 300⟩, ⟨305, down, 306⟩, ⟨306, down, 307⟩]).map fun d => d.2.fetches) = [1, 0, 1, 1] := rfl

/-! ## Calls that may overlap -/

section

variable [Sub T] [LinearOrder T]

omit [Sub T] [LinearOrder T] in
/-- The provider without the versions of its guidance. -/
def erase (p : Guidance.GuidanceProvider T) : GuidanceProvider T :=
  ⟨p.ttl, fun v => .ok (p.strOf v), p.cache.map fun g => g.value, p.fetchedAt⟩

/-- How a call that is over shows what it returned or raised. -/
inductive Shows : Guidance.Pc → Except Exc StoreGuidance → Prop
  | returned (version : Nat) (g : StoreGuidance) (ended : Nat) : Shows (.returned ⟨version, g⟩ ended) (.ok g)
  | raised (text : String) (e : Exc) : Shows (.raised text) (.error e)

theorem fresh_erase (p : Guidance.GuidanceProvider T) (now : T) : (erase p).fresh now = (p.fresh now).map fun g => g.value := by
  unfold GuidanceProvider.fresh Guidance.GuidanceProvider.fresh erase
  cases p.cache with
  | none => rfl
  | some g =>
    cases p.fetchedAt with
    | none => rfl
    | some t =>
      show (if now - t < p.ttl then some g.value else none) = (if now - t < p.ttl then some g else none).map fun g => g.value
      split <;> rfl

theorem coerceMembers_total (strOf : Json → Text) (ms : List (Text × Json)) :
    coerceMembers (fun v => .ok (strOf v)) ms = .ok (ms.map fun m => (m.1, Guidance.valueText strOf m.2)) := by
  have hvalue (v : Json) : valueText (fun v => .ok (strOf v)) v = .ok (Guidance.valueText strOf v) := by
    cases v <;> rfl
  induction ms with
  | nil => rfl
  | cons m ms ih =>
    obtain ⟨k, v⟩ := m
    rw [coerceMembers, hvalue, ih]
    rfl

/-- Where `str` does not raise, the result is coerced as `Guidance` does it. -/
theorem coerceGuidance_total (strOf : Json → Text) (raw : ToolResult) :
    coerceGuidance (fun v => .ok (strOf v)) raw = (Guidance.coerceGuidance strOf raw).mapError Exc.guidanceFetchError := by
  unfold coerceGuidance Guidance.coerceGuidance
  generalize unwrap raw = data
  cases data with
  | json j =>
    cases j with
    | obj ms => exact coerceMembers_total strOf ms
    | _ => rfl
  | _ => rfl

variable {s : Guidance.St T}

/-- A call that finds no fresh guidance starts to fetch. -/
theorem run_miss {now : T} (hnow : s.now ≤ now) (hf : s.provider.fresh now = none) (raw : ToolResult) :
    ∃ t started, Run Guidance.step (fun _ _ => True) s t ∧ t.calls = s.calls ++ [⟨started, .fetching⟩] ∧ t.provider = s.provider ∧
      t.now = now ∧ t.server.value = raw := by
  let s₁ : Guidance.St T := { s with now := now, steps := s.steps + 1 }
  let s₂ : Guidance.St T := { s₁ with server := ⟨s.server.version + 1, raw⟩, steps := s₁.steps + 1 }
  let s₃ : Guidance.St T := { s₂ with calls := s.calls ++ [⟨s₂.steps, .fetching⟩], steps := s₂.steps + 1 }
  have h₁ : Guidance.step s (.clock now) = some s₁ := by simp [Guidance.step, Guidance.act, hnow, s₁]
  have h₂ : Guidance.step s₁ (.publish raw) = some s₂ := rfl
  have h₃ : Guidance.step s₂ .get = some s₃ := by
    have hf₂ : s₂.provider.fresh s₂.now = none := hf
    simp only [Guidance.step, Guidance.act, hf₂]
    rfl
  exact ⟨s₃, s₂.steps, ((Run.single _ trivial h₁).tail _ trivial h₂).tail _ trivial h₃, rfl, rfl, rfl, rfl⟩

theorem run_hit {now : T} (hnow : s.now ≤ now) {g : Versioned StoreGuidance} (hf : s.provider.fresh now = some g) :
    ∃ t started ended, Run Guidance.step (fun _ _ => True) s t ∧ t.calls = s.calls ++ [⟨started, .returned g ended⟩] ∧
      t.provider = s.provider := by
  let s₁ : Guidance.St T := { s with now := now, steps := s.steps + 1 }
  let s₂ : Guidance.St T := { s₁ with calls := s.calls ++ [⟨s₁.steps, .returned g s₁.steps⟩], steps := s₁.steps + 1 }
  have h₁ : Guidance.step s (.clock now) = some s₁ := by simp [Guidance.step, Guidance.act, hnow, s₁]
  have h₂ : Guidance.step s₁ .get = some s₂ := by
    have hf₁ : s₁.provider.fresh s₁.now = some g := hf
    simp only [Guidance.step, Guidance.act, hf₁]
    rfl
  exact ⟨s₂, s₁.steps, s₁.steps, (Run.single _ trivial h₁).tail _ trivial h₂, rfl, rfl⟩

/-- The fetch of the last call is over, with a guidance. -/
theorem run_completes {calls : List Guidance.Call} {started : Nat} {now : T} (hcalls : s.calls = calls ++ [⟨started, .fetching⟩])
    (hnow : s.now ≤ now) {g : StoreGuidance} (hg : Guidance.coerceGuidance s.provider.strOf s.server.value = .ok g) :
    ∃ t version ended, Run Guidance.step (fun _ _ => True) s t ∧ t.calls = calls ++ [⟨started, .returned ⟨version, g⟩ ended⟩] ∧
      t.provider = { s.provider with cache := some ⟨version, g⟩, fetchedAt := some now } := by
  let n := calls.length
  let s₁ : Guidance.St T := { s with calls := calls ++ [⟨started, .answered s.server⟩], steps := s.steps + 1 }
  let s₂ : Guidance.St T := { s₁ with now := now, steps := s₁.steps + 1 }
  let v : Versioned StoreGuidance := ⟨s.server.version, g⟩
  let s₃ : Guidance.St T :=
    { s₂ with calls := calls ++ [⟨started, .returned v s₂.steps⟩], provider := { s.provider with cache := some v, fetchedAt := some now },
              steps := s₂.steps + 1 }
  have h₁ : Guidance.step s (.reads n) = some s₁ := by
    simp [Guidance.step, Guidance.act, Guidance.St.move, n, s₁, hcalls]
  have h₂ : Guidance.step s₁ (.clock now) = some s₂ := by simp [Guidance.step, Guidance.act, hnow, s₁, s₂]
  have h₃ : Guidance.step s₂ (.completes n) = some s₃ := by
    have hg₂ : Guidance.coerceGuidance s₂.provider.strOf s.server.value = .ok g := hg
    simp [Guidance.step, Guidance.act, Guidance.St.move, hg₂, s₃, v, s₂, s₁, n]
  exact ⟨s₃, s.server.version, s₂.steps, ((Run.single _ trivial h₁).tail _ trivial h₂).tail _ trivial h₃, rfl, rfl⟩

/-- The fetch of the last call fails. -/
theorem run_fails {calls : List Guidance.Call} {started : Nat} (hcalls : s.calls = calls ++ [⟨started, .fetching⟩]) :
    ∃ t text, Run Guidance.step (fun _ _ => True) s t ∧ t.calls = calls ++ [⟨started, .raised text⟩] ∧ t.provider = s.provider := by
  let s₁ : Guidance.St T := { s with calls := calls ++ [⟨started, Guidance.fetchError ""⟩], steps := s.steps + 1 }
  have h₁ : Guidance.step s (.fails calls.length "") = some s₁ := by
    simp [Guidance.step, Guidance.act, Guidance.St.move, s₁, hcalls]
  exact ⟨s₁, _, Run.single _ trivial h₁, rfl, rfl⟩

/-- One call after the other is a run of the provider whose calls may overlap. -/
theorem get_runs (c : Call T) (hstart : s.now ≤ c.started) (hend : c.started ≤ c.completed) :
    ∃ t call, Run Guidance.step (fun _ _ => True) s t ∧ t.calls = s.calls ++ [call] ∧
      erase t.provider = (get (erase s.provider) c).1 ∧ Shows call.pc (get (erase s.provider) c).2.result := by
  have hg := get_cases (erase s.provider) c
  have hfresh := fresh_erase s.provider c.started
  generalize get (erase s.provider) c = r at hg ⊢
  cases hg with
  | hit g h =>
    rw [hfresh] at h
    obtain ⟨v, hv, e⟩ := Option.map_eq_some_iff.mp h
    subst e
    obtain ⟨t, started, ended, hrun, hcalls, hprov⟩ := run_hit hstart hv
    exact ⟨t, _, hrun, hcalls, congrArg erase hprov, .returned v.version v.value ended⟩
  | fetched g h hs =>
    rw [hfresh, Option.map_eq_none_iff] at h
    obtain ⟨raw, ms, hr, hp, hms⟩ := hs
    obtain ⟨t, started, hrun, hcalls, hprov, hnow, hserver⟩ := run_miss hstart h raw
    have hcoerce : coerceGuidance (fun v => .ok (s.provider.strOf v)) raw = .ok g := coerceGuidance_ok.mpr ⟨ms, hp, hms⟩
    have hg : Guidance.coerceGuidance t.provider.strOf t.server.value = .ok g := by
      rw [coerceGuidance_total] at hcoerce
      rw [hprov, hserver]
      cases ho : Guidance.coerceGuidance s.provider.strOf raw with
      | error text =>
        rw [ho] at hcoerce
        cases hcoerce
      | ok g' =>
        rw [ho] at hcoerce
        cases hcoerce
        rfl
    obtain ⟨u, version, ended, hrun', hcalls', hprov'⟩ := run_completes hcalls (hnow ▸ hend) hg
    refine ⟨u, _, hrun.trans hrun', hcalls', ?_, .returned version g ended⟩
    rw [hprov', hprov]
    rfl
  | failed text h hs =>
    rw [hfresh, Option.map_eq_none_iff] at h
    obtain ⟨t, started, hrun, hcalls, hprov, -, -⟩ := run_miss hstart h (.json .null)
    obtain ⟨u, text', hrun', hcalls', hprov'⟩ := run_fails hcalls
    exact ⟨u, _, hrun.trans hrun', hcalls', congrArg erase (hprov'.trans hprov), .raised text' _⟩

end

end SagaAgents.Runtime.GuidanceFetch
