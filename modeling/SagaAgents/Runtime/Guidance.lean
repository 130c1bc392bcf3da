/-
  SagaAgents.Runtime.Guidance — the store guidance that prompts refer to
  (`runtime/guidance.py`).

  A placeholder of a prompt is replaced by the guidance under its key.
  `GuidanceProvider.get` answers from its cache while that is fresh; else it fetches the
  guidance, writes the cache and answers what it fetched. Between the test and the write
  it waits, so fetches overlap. A fetch is answered with the guidance the server has at
  some instant; the version that is counted here is when the server got it.

  Proved:
  - `guidance_monotone`: where no fetch that comes back writes over a newer guidance, no
    later `get` returns an older guidance than an earlier one, and the cache never goes back.
  - `overtaken_get_older`: where one does, the next `get` returns the older guidance.
    `late_fetch_returns_older` is a run that does.
-/

import Mathlib.Algebra.Order.Group.Defs
import SagaAgents.Lib.Json
import SagaAgents.Lib.Machine
import SagaAgents.Lib.Tasks

namespace SagaAgents.Runtime.Guidance

open Lib

/-! ## Placeholders -/

/-- What `\s` of a pattern matches. -/
def isSpace (c : CodePoint) : Bool :=
  let n := c.val
  (0x9 ≤ n && n ≤ 0xd) || (0x1c ≤ n && n ≤ 0x20) || n == 0x85 || n == 0xa0 || n == 0x1680 || (0x2000 ≤ n && n ≤ 0x200a) ||
    n == 0x2028 || n == 0x2029 || n == 0x202f || n == 0x205f || n == 0x3000

/-- `[a-z_]`. -/
def isKeyChar (c : CodePoint) : Bool := (0x61 ≤ c.val && c.val ≤ 0x7a) || c.val == 0x5f

def opening : Text := Text.ofString "\x7b\x7b"

def closing : Text := Text.ofString "\x7d\x7d"

/-- `_PLACEHOLDER_RE` at the head of a text: the key, and the rest. -/
def readPlaceholder (cs : Text) : Option (Text × Text) :=
  (expect opening cs).bind fun cs =>
    (expect (Text.ofString "saga.") (cs.dropWhile isSpace)).bind fun cs =>
      if cs.takeWhile isKeyChar = [] then none
      else
        (expect closing ((cs.dropWhile isKeyChar).dropWhile isSpace)).map fun rest => (cs.takeWhile isKeyChar, rest)

theorem readPlaceholder_shorter (cs key rest : Text) (h : readPlaceholder cs = some (key, rest)) : rest.length < cs.length := by
  obtain ⟨cs₁, h₁, h⟩ := Option.bind_eq_some_iff.mp h
  obtain ⟨cs₂, h₂, h⟩ := Option.bind_eq_some_iff.mp h
  split at h
  · cases h
  · obtain ⟨cs₃, h₃, e⟩ := Option.map_eq_some_iff.mp h
    cases e
    have l₁ : cs.length = 2 + cs₁.length := by rw [expect_some h₁, List.length_append]; rfl
    have l₂ : (cs₁.dropWhile isSpace).length = 5 + cs₂.length := by rw [expect_some h₂, List.length_append]; rfl
    have l₃ : ((cs₂.dropWhile isKeyChar).dropWhile isSpace).length = 2 + rest.length := by
      rw [expect_some h₃, List.length_append]; rfl
    have d₁ : (cs₁.dropWhile isSpace).length ≤ cs₁.length := (List.dropWhile_suffix _).length_le
    have d₂ : ((cs₂.dropWhile isKeyChar).dropWhile isSpace).length ≤ cs₂.length :=
      ((List.dropWhile_suffix _).trans (List.dropWhile_suffix _)).length_le
    omega

def placeholderRe : Matcher CodePoint Text := ⟨readPlaceholder, readPlaceholder_shorter⟩

def referencedKeys (text : Text) : List Text := (placeholderRe.found text).dedup

def guidanceKeys : List Text :=
  ["store_description", "doctype_instructions", "metadata_instructions", "summary_instructions", "folder_instructions",
    "language"].map Text.ofString

/-- `sorted` of keys, as a message shows the list. -/
def showSorted (keys : List Text) : String :=
  "[" ++ ", ".intercalate ((keys.mergeSort fun a b => decide (a ≤ b)).map fun k => "'" ++ k.toStr ++ "'") ++ "]"

/-- `source` is `{source!r}`. -/
def validatePlaceholders (source : String) (text : Text) : Except String Unit :=
  let unknown := (referencedKeys text).filter fun k => !guidanceKeys.contains k
  if unknown = [] then .ok ()
  else
    .error ("Agent file " ++ source ++ " references unknown saga placeholder(s) " ++ showSorted unknown ++ ". Valid keys: " ++
      showSorted guidanceKeys ++ ".")

/-- A guidance: its members, in order. -/
abbrev StoreGuidance := List (Text × Text)

/-- `guidance.get(key, "")`. -/
def StoreGuidance.lookup (guidance : StoreGuidance) (key : Text) : Text := ((guidance.find? fun m => m.1 == key).map Prod.snd).getD []

def substitute (text : Text) (guidance : StoreGuidance) : Text := placeholderRe.replaced guidance.lookup text

/-! ## What a fetch returns -/

/-- What `direct_call_tool` returns: a JSON value, or an object of another type. -/
inductive ToolResult where
  | json (v : Json)
  | other (typeName : String)

def ToolResult.typeName : ToolResult → String
  | .json .null => "NoneType"
  | .json (.bool _) => "bool"
  | .json (.int _) => "int"
  | .json (.float _) => "float"
  | .json (.str _) => "str"
  | .json (.list _) => "list"
  | .json (.obj _) => "dict"
  | .other name => name

/-- The mapping in a `{"result": …}` wrapper, or the value itself. -/
def unwrap : ToolResult → ToolResult
  | .json (.obj [(k, v)]) => if k = Text.ofString "result" then .json v else .json (.obj [(k, v)])
  | raw => raw

/-- `"" if v is None else str(v)`; `strOf` is `str` on the values that are no text. -/
def valueText (strOf : Json → Text) : Json → Text
  | .null => []
  | .str t => t
  | v => strOf v

def coerceGuidance (strOf : Json → Text) (raw : ToolResult) : Except String StoreGuidance :=
  match unwrap raw with
  | .json (.obj ms) => .ok (ms.map fun m => (m.1, valueText strOf m.2))
  | data => .error ("get_store_guidance returned unexpected type '" ++ data.typeName ++ "'; expected a dict.")

/-! ## The provider -/

/-- A value, and how often the server's guidance had changed when the server got it. -/
structure Versioned (α : Type) where
  version : Nat
  value : α

variable {T : Type}

structure GuidanceProvider (T : Type) where
  ttl : T
  strOf : Json → Text
  cache : Option (Versioned StoreGuidance) := none
  fetchedAt : Option T := none

/-- The cache, if it is fresh. -/
def GuidanceProvider.fresh [Sub T] [LT T] [DecidableLT T] (p : GuidanceProvider T) (now : T) : Option (Versioned StoreGuidance) :=
  p.cache.bind fun g => p.fetchedAt.bind fun t => if now - t < p.ttl then some g else none

/-- A call of `get`. `answered`: the server has sent its guidance, the call goes on later. -/
inductive Pc where
  | fetching
  | answered (raw : Versioned ToolResult)
  | returned (g : Versioned StoreGuidance) (ended : Nat)
  | raised (text : String)
  | cancelled

structure Call where
  started : Nat
  pc : Pc

/-- `steps` counts the events: it dates the calls. -/
structure St (T : Type) where
  now : T
  server : Versioned ToolResult
  provider : GuidanceProvider T
  calls : List Call
  steps : Nat

def init (now : T) (raw : ToolResult) (ttl : T) (strOf : Json → Text) : St T := ⟨now, ⟨0, raw⟩, { ttl := ttl, strOf := strOf }, [], 0⟩

inductive Ev (T : Type) where
  | clock (now : T)
  /-- The server's guidance changes. -/
  | publish (raw : ToolResult)
  | get
  /-- The server answers the fetch of call `i`. -/
  | reads (i : Nat)
  /-- The fetch of call `i` is over. -/
  | completes (i : Nat)
  /-- An exception in the fetch of call `i`. -/
  | fails (i : Nat) (text : String)
  | cancel (i : Nat)

/-- The fetch failed. -/
def fetchError (text : String) : Pc := .raised ("Could not fetch get_store_guidance from MCP: " ++ text)

def St.move (s : St T) (i : Nat) (c : Call) (pc : Pc) : St T := { s with calls := s.calls.set i { c with pc := pc } }

/-- What an event does, but for the count. -/
def act [Sub T] [LinearOrder T] (s : St T) : Ev T → Option (St T)
  | .clock t => if s.now ≤ t then some { s with now := t } else none
  | .publish raw => some { s with server := ⟨s.server.version + 1, raw⟩ }
  | .get =>
    match s.provider.fresh s.now with
    | some g => some { s with calls := s.calls ++ [⟨s.steps, .returned g s.steps⟩] }
    | none => some { s with calls := s.calls ++ [⟨s.steps, .fetching⟩] }
  | .reads i => s.calls[i]?.bind fun c =>
    match c.pc with
    | .fetching => some (s.move i c (.answered s.server))
    | _ => none
  | .completes i => s.calls[i]?.bind fun c =>
    match c.pc with
    | .answered raw =>
      match coerceGuidance s.provider.strOf raw.value with
      | .error text => some (s.move i c (.raised text))
      | .ok guidance =>
        let g : Versioned StoreGuidance := ⟨raw.version, guidance⟩
        some { s.move i c (.returned g s.steps) with provider := { s.provider with cache := some g, fetchedAt := some s.now } }
    | _ => none
  | .fails i text => s.calls[i]?.bind fun c =>
    match c.pc with
    | .fetching | .answered _ => some (s.move i c (fetchError text))
    | _ => none
  | .cancel i => s.calls[i]?.bind fun c =>
    match c.pc with
    | .fetching | .answered _ => some (s.move i c .cancelled)
    | _ => none

def step [Sub T] [LinearOrder T] (s : St T) (e : Ev T) : Option (St T) :=
  (act s e).map fun t => { t with steps := s.steps + 1 }

/-! ## What is read -/

/-- The version a call was answered with. -/
def Call.version (c : Call) : Option Nat :=
  match c.pc with
  | .answered raw => some raw.version
  | .returned g _ => some g.version
  | _ => none

/-- The version a call has returned, and when. -/
def Call.result (c : Call) : Option (Nat × Nat) :=
  match c.pc with
  | .returned g ended => some (g.version, ended)
  | _ => none

def St.cached (s : St T) : Option Nat := s.provider.cache.map (·.version)

/-- No call returns an older version than a call that ended before it started. -/
def Monotone (s : St T) : Prop :=
  ∀ a ∈ s.calls, ∀ b ∈ s.calls, ∀ p ∈ a.result, ∀ q ∈ b.result, p.2 < b.started → p.1 ≤ q.1

/-- A fetch that comes back with a guidance finds none in the cache that is newer. -/
def inOrder (s : St T) : Ev T → Bool
  | .completes i =>
    match s.calls[i]?.map Call.pc with
    | some (.answered raw) =>
      match coerceGuidance s.provider.strOf raw.value with
      | .ok _ => s.cached.all (· ≤ raw.version)
      | .error _ => true
    | _ => true
  | _ => true

/-! ## What a step does -/

/-- The steps, one constructor for each way through `act`. -/
inductive Act [Sub T] [LinearOrder T] (s : St T) : Ev T → St T → Prop
  | clock (t : T) (h : s.now ≤ t) : Act s (.clock t) { s with now := t }
  | publish (raw : ToolResult) : Act s (.publish raw) { s with server := ⟨s.server.version + 1, raw⟩ }
  | hit (g : Versioned StoreGuidance) (h : s.provider.fresh s.now = some g) :
      Act s .get { s with calls := s.calls ++ [⟨s.steps, .returned g s.steps⟩] }
  | miss (h : s.provider.fresh s.now = none) : Act s .get { s with calls := s.calls ++ [⟨s.steps, .fetching⟩] }
  | reads (i : Nat) (c : Call) (hi : s.calls[i]? = some c) (hp : c.pc = .fetching) :
      Act s (.reads i) (s.move i c (.answered s.server))
  | completes (i : Nat) (c : Call) (raw : Versioned ToolResult) (guidance : StoreGuidance) (hi : s.calls[i]? = some c)
      (hp : c.pc = .answered raw) (hg : coerceGuidance s.provider.strOf raw.value = .ok guidance) :
      Act s (.completes i)
        { s.move i c (.returned ⟨raw.version, guidance⟩ s.steps) with
          provider := { s.provider with cache := some ⟨raw.version, guidance⟩, fetchedAt := some s.now } }
  | drops (e : Ev T) (i : Nat) (c : Call) (pc : Pc) (hi : s.calls[i]? = some c)
      (hc : c.pc = .fetching ∨ ∃ raw, c.pc = .answered raw) (hp : (∃ text, pc = .raised text) ∨ pc = .cancelled) :
      Act s e (s.move i c pc)

theorem step_cases [Sub T] [LinearOrder T] {s t : St T} {e : Ev T} (h : step s e = some t) :
    ∃ u, Act s e u ∧ t = { u with steps := s.steps + 1 } := by
  obtain ⟨u, hu, rfl⟩ := Option.map_eq_some_iff.mp h
  refine ⟨u, ?_, rfl⟩
  cases e with
  | clock t =>
    simp only [act] at hu
    split at hu
    · rename_i ht; cases hu; exact .clock t ht
    · cases hu
  | publish raw => cases hu; exact .publish raw
  | get =>
    simp only [act] at hu
    split at hu
    · rename_i g hg; cases hu; exact .hit g hg
    · rename_i hg; cases hu; exact .miss hg
  | reads i =>
    obtain ⟨c, hi, hc⟩ := Option.bind_eq_some_iff.mp hu
    split at hc
    · rename_i hp; cases hc; exact .reads i c hi hp
    · cases hc
  | completes i =>
    obtain ⟨c, hi, hc⟩ := Option.bind_eq_some_iff.mp hu
    split at hc
    · rename_i raw hp
      split at hc
      · rename_i text hg; cases hc; exact .drops _ i c _ hi (Or.inr ⟨raw, hp⟩) (Or.inl ⟨text, rfl⟩)
      · rename_i guidance hg; cases hc; exact .completes i c raw guidance hi hp hg
    · cases hc
  | fails i text =>
    obtain ⟨c, hi, hc⟩ := Option.bind_eq_some_iff.mp hu
    split at hc
    · rename_i hp; cases hc; exact .drops _ i c _ hi (Or.inl hp) (Or.inl ⟨_, rfl⟩)
    · rename_i raw hp; cases hc; exact .drops _ i c _ hi (Or.inr ⟨raw, hp⟩) (Or.inl ⟨_, rfl⟩)
    · cases hc
  | cancel i =>
    obtain ⟨c, hi, hc⟩ := Option.bind_eq_some_iff.mp hu
    split at hc
    · rename_i hp; cases hc; exact .drops _ i c _ hi (Or.inl hp) (Or.inr rfl)
    · rename_i raw hp; cases hc; exact .drops _ i c _ hi (Or.inr ⟨raw, hp⟩) (Or.inr rfl)
    · cases hc

/-! ## The invariant -/

structure Inv (s : St T) : Prop where
  /-- The cache is no older than what any call has returned. -/
  cached : ∀ c ∈ s.calls, ∀ p ∈ c.result, ∃ v ∈ s.cached, p.1 ≤ v
  served : ∀ v ∈ s.cached, v ≤ s.server.version
  read : ∀ c ∈ s.calls, ∀ v ∈ c.version, v ≤ s.server.version
  dated : ∀ c ∈ s.calls, c.started < s.steps ∧ ∀ p ∈ c.result, p.2 < s.steps
  /-- A call is answered with no older version than a call returned before it started. -/
  ordered : ∀ a ∈ s.calls, ∀ b ∈ s.calls, ∀ p ∈ a.result, p.2 < b.started → ∀ v ∈ b.version, p.1 ≤ v

theorem Call.version_result {c : Call} {p : Nat × Nat} (h : p ∈ c.result) : p.1 ∈ c.version := by
  unfold Call.result at h
  split at h
  · rename_i g ended hp
    cases h
    simp [Call.version, hp]
  · cases h

theorem Inv.monotone {s : St T} (hs : Inv s) : Monotone s := fun a ha b hb p hp q hq hlt =>
  hs.ordered a ha b hb p hp hlt q.1 (Call.version_result hq)

/-- The call `c` is new or has moved, the others are as they were. -/
theorem inv_call {s t : St T} (hs : Inv s) {c : Call} (hmem : ∀ b ∈ t.calls, b ∈ s.calls ∨ b = c) (hserver : t.server = s.server)
    (hsteps : t.steps = s.steps + 1) (hcache : ∀ v ∈ s.cached, ∃ w ∈ t.cached, v ≤ w)
    (hserved : ∀ v ∈ t.cached, v ≤ s.server.version) (hstart : c.started ≤ s.steps)
    (hread : ∀ v ∈ c.version, v ≤ s.server.version) (hresult : ∀ p ∈ c.result, p.2 = s.steps ∧ ∃ v ∈ t.cached, p.1 ≤ v)
    (hord : ∀ a ∈ s.calls, ∀ p ∈ a.result, p.2 < c.started → ∀ v ∈ c.version, p.1 ≤ v) : Inv t := by
  refine ⟨fun b hb p hp => ?_, fun v hv => hserver ▸ hserved v hv, fun b hb v hv => ?_, fun b hb => ?_,
    fun a ha b hb p hp hlt v hv => ?_⟩
  · rcases hmem b hb with hb | e
    · obtain ⟨v, hv, hle⟩ := hs.cached b hb p hp
      obtain ⟨w, hw, hle'⟩ := hcache v hv
      exact ⟨w, hw, hle.trans hle'⟩
    · subst e
      exact (hresult p hp).2
  · rw [hserver]
    rcases hmem b hb with hb | e
    · exact hs.read b hb v hv
    · subst e
      exact hread v hv
  · rw [hsteps]
    rcases hmem b hb with hb | e
    · obtain ⟨h, h'⟩ := hs.dated b hb
      exact ⟨by omega, fun p hp => by have := h' p hp; omega⟩
    · subst e
      exact ⟨by omega, fun p hp => by have := (hresult p hp).1; omega⟩
  · rcases hmem a ha with ha | e
    · rcases hmem b hb with hb | e
      · exact hs.ordered a ha b hb p hp hlt v hv
      · subst e
        exact hord a ha p hp hlt v hv
    · -- the call that has just returned ended after every other one started
      subst e
      have hnow := (hresult p hp).1
      rcases hmem b hb with hb | e
      · have := (hs.dated b hb).1
        omega
      · subst e
        omega

theorem mem_started {s : St T} {c b : Call} (hb : b ∈ s.calls ++ [c]) : b ∈ s.calls ∨ b = c := by
  simpa using hb

theorem mem_moved {s : St T} {i : Nat} {c b : Call} {pc : Pc} (hb : b ∈ (s.move i c pc).calls) :
    b ∈ s.calls ∨ b = { c with pc := pc } := List.mem_or_eq_of_mem_set hb

theorem inv_init (now : T) (raw : ToolResult) (ttl : T) (strOf : Json → Text) : Inv (init now raw ttl strOf) := by
  refine ⟨?_, ?_, ?_, ?_, ?_⟩ <;> simp [init, St.cached]

theorem inOrder_completes {s : St T} {i : Nat} {c : Call} {raw : Versioned ToolResult} {guidance : StoreGuidance}
    (hi : s.calls[i]? = some c) (hp : c.pc = .answered raw) (hg : coerceGuidance s.provider.strOf raw.value = .ok guidance) :
    inOrder s (.completes i) = s.cached.all (· ≤ raw.version) := by
  simp [inOrder, hi, hp, hg]

theorem overtaken {s : St T} {e : Ev T} (ho : inOrder s e = false) :
    ∃ i c raw guidance v, e = .completes i ∧ s.calls[i]? = some c ∧ c.pc = .answered raw ∧
      coerceGuidance s.provider.strOf raw.value = .ok guidance ∧ s.cached = some v ∧ raw.version < v := by
  cases e with
  | completes i =>
    cases hi : s.calls[i]? with
    | none => simp [inOrder, hi] at ho
    | some c =>
      cases hp : c.pc with
      | answered raw =>
        cases hg : coerceGuidance s.provider.strOf raw.value with
        | error text => simp [inOrder, hi, hp, hg] at ho
        | ok guidance =>
          rw [inOrder_completes hi hp hg] at ho
          cases hc : s.cached with
          | none => simp [hc] at ho
          | some v => exact ⟨i, c, raw, guidance, v, rfl, hi, hp, hg, rfl, by simpa [hc] using ho⟩
      | _ => simp [inOrder, hi, hp] at ho
  | _ => simp [inOrder] at ho

section

variable [Sub T] [LinearOrder T]

theorem fresh_cached {p : GuidanceProvider T} {now : T} {g : Versioned StoreGuidance} (h : p.fresh now = some g) :
    p.cache = some g := by
  obtain ⟨g', hg, h⟩ := Option.bind_eq_some_iff.mp h
  obtain ⟨t, -, h⟩ := Option.bind_eq_some_iff.mp h
  split at h
  · cases h
    exact hg
  · cases h

theorem inv_step {s t : St T} {e : Ev T} (hs : Inv s) (ho : inOrder s e = true) (h : step s e = some t) : Inv t := by
  obtain ⟨u, hu, rfl⟩ := step_cases h
  cases hu with
  | clock now hn => exact ⟨hs.cached, hs.served, hs.read, fun c hc => ⟨Nat.lt_succ_of_lt (hs.dated c hc).1,
      fun p hp => Nat.lt_succ_of_lt ((hs.dated c hc).2 p hp)⟩, hs.ordered⟩
  | publish raw => exact ⟨hs.cached, fun v hv => Nat.le_succ_of_le (hs.served v hv),
      fun c hc v hv => Nat.le_succ_of_le (hs.read c hc v hv), fun c hc => ⟨Nat.lt_succ_of_lt (hs.dated c hc).1,
      fun p hp => Nat.lt_succ_of_lt ((hs.dated c hc).2 p hp)⟩, hs.ordered⟩
  | hit g hg =>
    have hcached : s.cached = some g.version := by rw [St.cached, fresh_cached hg]; rfl
    have hversion : (⟨s.steps, .returned g s.steps⟩ : Call).version = some g.version := rfl
    refine inv_call hs (c := ⟨s.steps, .returned g s.steps⟩) (fun b hb => mem_started hb) rfl rfl (fun v hv => ⟨v, hv, le_rfl⟩)
      hs.served le_rfl (fun v hv => ?_) (fun p hp => ?_) (fun a ha p hp hlt v hv => ?_)
    · cases hv
      exact hs.served _ hcached
    · cases hp
      exact ⟨rfl, g.version, hcached, le_rfl⟩
    · cases hv
      obtain ⟨w, hw, hle⟩ := hs.cached a ha p hp
      rw [hcached] at hw
      cases hw
      exact hle
  | miss hg =>
    exact inv_call hs (c := ⟨s.steps, .fetching⟩) (fun b hb => mem_started hb) rfl rfl (fun v hv => ⟨v, hv, le_rfl⟩)
      hs.served le_rfl (fun v hv => (by cases hv)) (fun p hp => (by cases hp)) (fun a ha p hp hlt v hv => (by cases hv))
  | reads i c hi hp =>
    have hc : c ∈ s.calls := List.mem_of_getElem? hi
    refine inv_call hs (c := { c with pc := .answered s.server }) (fun b hb => mem_moved hb) rfl rfl
      (fun v hv => ⟨v, hv, le_rfl⟩) hs.served (hs.dated c hc).1.le (fun v hv => ?_) (fun p hp => (by cases hp))
      (fun a ha p hp hlt v hv => ?_)
    · cases hv
      exact le_rfl
    · cases hv
      obtain ⟨w, hw, hle⟩ := hs.cached a ha p hp
      exact hle.trans (hs.served w hw)
  | completes i c raw guidance hi hp hg =>
    have hc : c ∈ s.calls := List.mem_of_getElem? hi
    have hraw : raw.version ∈ c.version := by simp [Call.version, hp]
    rw [inOrder_completes hi hp hg] at ho
    refine inv_call hs (c := { c with pc := .returned ⟨raw.version, guidance⟩ s.steps }) (fun b hb => mem_moved hb) rfl rfl
      (fun v hv => ⟨raw.version, rfl, ?_⟩) (fun v hv => ?_) (hs.dated c hc).1.le (fun v hv => ?_) (fun p hp => ?_)
      (fun a ha p hp hlt v hv => ?_)
    · rw [Option.mem_def.mp hv] at ho
      simpa using ho
    · cases hv
      exact hs.read c hc _ hraw
    · cases hv
      exact hs.read c hc _ hraw
    · cases hp
      exact ⟨rfl, raw.version, rfl, le_rfl⟩
    · cases hv
      exact hs.ordered a ha c hc p hp hlt _ hraw
  | drops e i c pc hi hwait hp =>
    have hc : c ∈ s.calls := List.mem_of_getElem? hi
    have hnone : ({ c with pc := pc } : Call).version = none ∧ ({ c with pc := pc } : Call).result = none := by
      rcases hp with ⟨text, e⟩ | e <;> subst e <;> exact ⟨rfl, rfl⟩
    refine inv_call hs (c := { c with pc := pc }) (fun b hb => mem_moved hb) rfl rfl (fun v hv => ⟨v, hv, le_rfl⟩) hs.served
      (hs.dated c hc).1.le (fun v hv => ?_) (fun p hp => ?_) (fun a ha p hp hlt v hv => ?_)
    · rw [hnone.1] at hv
      cases hv
    · rw [hnone.2] at hp
      cases hp
    · rw [hnone.1] at hv
      cases hv

/-! ## Runs -/

theorem cached_step {s t : St T} {e : Ev T} (ho : inOrder s e = true) (h : step s e = some t) :
    ∀ v ∈ s.cached, ∃ w ∈ t.cached, v ≤ w := by
  intro v hv
  obtain ⟨u, hu, rfl⟩ := step_cases h
  cases hu with
  | completes i c raw guidance hi hp hg =>
    rw [inOrder_completes hi hp hg, Option.mem_def.mp hv] at ho
    exact ⟨raw.version, rfl, by simpa using ho⟩
  | _ => exact ⟨v, hv, le_rfl⟩

/-- Where no fetch that comes back finds a newer guidance in the cache, no later call
    returns an older guidance, and the cache does not go back. -/
theorem guidance_monotone (now : T) (raw : ToolResult) (ttl : T) (strOf : Json → Text) {s : St T}
    (h : Run step (fun s e => inOrder s e = true) (init now raw ttl strOf) s) :
    Monotone s ∧ ∀ e t, inOrder s e = true → step s e = some t → ∀ v ∈ s.cached, ∃ w ∈ t.cached, v ≤ w :=
  ⟨(h.invariant (fun _ _ _ hs ho hst => inv_step hs ho hst) (inv_init now raw ttl strOf)).monotone,
    fun _ _ ho hst => cached_step ho hst⟩

/-! ## A fetch that comes back late -/

/-- What is in the cache, a call has returned. -/
def Held (s : St T) : Prop := ∀ v ∈ s.cached, ∃ c ∈ s.calls, ∃ p ∈ c.result, p.1 = v ∧ p.2 < s.steps

omit [Sub T] [LinearOrder T] in
theorem result_kept {s : St T} {i : Nat} {c : Call} {pc : Pc} (hi : s.calls[i]? = some c) (hc : c.result = none) {a : Call}
    (ha : a ∈ s.calls) {p : Nat × Nat} (hp : p ∈ a.result) : a ∈ (s.move i c pc).calls := by
  obtain ⟨j, hj⟩ := List.mem_iff_getElem?.mp ha
  have hne : j ≠ i := by
    intro e
    subst e
    rw [hi] at hj
    cases hj
    rw [hc] at hp
    cases hp
  exact List.mem_of_getElem? (Tasks.get_other hj hne)

theorem held_step {s t : St T} {e : Ev T} (hs : Held s) (h : step s e = some t) : Held t := by
  have hlater {calls : List Call} {u : St T} (hu : u.calls = calls) (hc : u.cached = s.cached) (hn : u.steps = s.steps + 1)
      (hkeep : ∀ a ∈ s.calls, ∀ p ∈ a.result, a ∈ calls) : Held u := by
    intro v hv
    obtain ⟨c, hm, p, hp, e, hlt⟩ := hs v (hc ▸ hv)
    exact ⟨c, hu ▸ hkeep c hm p hp, p, hp, e, by omega⟩
  obtain ⟨u, hu, rfl⟩ := step_cases h
  cases hu with
  | clock | publish => exact hlater rfl rfl rfl fun a ha _ _ => ha
  | hit | miss => exact hlater rfl rfl rfl fun a ha _ _ => List.mem_append_left _ ha
  | reads i c hi hp =>
    exact hlater rfl rfl rfl fun a ha p hr => result_kept hi (by simp [Call.result, hp]) ha hr
  | completes i c raw guidance hi hp hg =>
    intro v hv
    cases hv
    exact ⟨_, List.mem_of_getElem? (Tasks.get_moved hi), _, rfl, rfl, Nat.lt_succ_self _⟩
  | drops e i c pc hi hc hp =>
    have hnone : c.result = none := by
      rcases hc with hc | ⟨raw, hc⟩ <;> simp [Call.result, hc]
    exact hlater rfl rfl rfl fun a ha p hr => result_kept hi hnone ha hr

theorem held_run (now : T) (raw : ToolResult) (ttl : T) (strOf : Json → Text) {s : St T}
    (h : Run step (fun _ _ => True) (init now raw ttl strOf) s) : Held s :=
  h.invariant (fun _ _ _ hs _ hst => held_step hs hst) fun _ hv => (by cases hv)

end

section

variable [AddGroup T] [LinearOrder T]

/-- A fetch comes back with an older guidance than the cache's: it returns and caches it,
    and so does the next call, after an earlier one has returned the newer guidance. -/
theorem overtaken_get_older {s : St T} {e : Ev T} (hs : Held s) (httl : 0 < s.provider.ttl) (ho : inOrder s e = false) :
    ∃ t u, step s e = some t ∧ step t .get = some u ∧ ¬ Monotone u := by
  obtain ⟨i, c, raw, guidance, v, rfl, hi, hp, hg, hv, hlt⟩ := overtaken ho
  obtain ⟨a, ha, p, hr, e, hend⟩ := hs v hv
  let g : Versioned StoreGuidance := ⟨raw.version, guidance⟩
  let t : St T := { s.move i c (.returned g s.steps) with
    provider := { s.provider with cache := some g, fetchedAt := some s.now }, steps := s.steps + 1 }
  have ht : step s (.completes i) = some t := by simp [step, act, hi, hp, hg, t, g]
  have hfresh : t.provider.fresh t.now = some g := by simp [GuidanceProvider.fresh, httl, t, St.move]
  let b : Call := ⟨t.steps, .returned g t.steps⟩
  have hget : step t .get = some { t with calls := t.calls ++ [b], steps := t.steps + 1 } := by simp [step, act, hfresh, b]
  have ha' : a ∈ t.calls := result_kept hi (by simp [Call.result, hp]) ha hr
  refine ⟨t, _, ht, hget, fun hm => ?_⟩
  have : p.1 ≤ raw.version := hm a (List.mem_append_left _ ha') b (by simp) p hr (raw.version, t.steps) rfl
    (Nat.lt_succ_of_lt hend)
  omega

end

/-! ## Runs on a clock of seconds -/

def language (value : String) : ToolResult := .json (.obj [(Text.ofString "language", .str (Text.ofString value))])

def demo : St Int := init 0 (language "en") 300 fun _ => []

/-- Two fetches overlap and come back in the order in which the server answered them. -/
theorem guidance_monotone_overlapping :
    ∃ s, Run step (fun s e => inOrder s e = true) demo s ∧ s.calls.map Call.result = [some (0, 5), some (1, 6), some (1, 7)] ∧
      Monotone s := by
  have hrun := Run.exists_of_exec step (fun s e => inOrder s e = true) demo
    [.get, .get, .reads 0, .publish (language "de"), .reads 1, .completes 0, .completes 1, .get]
    (fun s => s.calls.map Call.result = [some (0, 5), some (1, 6), some (1, 7)]) rfl
  obtain ⟨s, hs, hp⟩ := hrun
  exact ⟨s, hs, by simpa using hp, (guidance_monotone 0 (language "en") 300 _ hs).1⟩

/-- A slow fetch is answered before the guidance changes and comes back after the next
    fetch: the third call, which starts last, returns the guidance from before. -/
theorem late_fetch_returns_older :
    ∃ s, Run step (fun _ _ => True) demo s ∧
      s.calls.map (fun c => (c.started, c.result)) = [(0, some (0, 6)), (3, some (1, 5)), (7, some (0, 7))] ∧ ¬ Monotone s := by
  have hrun := Run.exists_of_exec step (fun _ _ => True) demo
    [.get, .reads 0, .publish (language "de"), .get, .reads 1, .completes 1, .completes 0, .get]
    (fun s => s.calls.map (fun c => (c.started, c.result)) = [(0, some (0, 6)), (3, some (1, 5)), (7, some (0, 7))])
    rfl
  obtain ⟨s, hs, hp⟩ := hrun
  have hcalls : s.calls.map (fun c => (c.started, c.result)) = [(0, some (0, 6)), (3, some (1, 5)), (7, some (0, 7))] := by
    simpa using hp
  have hmem (x : Nat × Option (Nat × Nat)) (hx : x ∈ s.calls.map fun c => (c.started, c.result)) :
      ∃ c ∈ s.calls, c.started = x.1 ∧ c.result = x.2 := by
    obtain ⟨c, hc, e⟩ := List.mem_map.mp hx
    subst e
    exact ⟨c, hc, rfl, rfl⟩
  refine ⟨s, hs, hcalls, fun hm => ?_⟩
  obtain ⟨a, ha, -, hra⟩ := hmem (3, some (1, 5)) (by simp [hcalls])
  obtain ⟨b, hb, hsb, hrb⟩ := hmem (7, some (0, 7)) (by simp [hcalls])
  have := hm a ha b hb (1, 5) hra (0, 7) hrb (by rw [hsb]; decide)
  exact absurd this (by decide)

end SagaAgents.Runtime.Guidance
