/-
  SagaAgents.Tracing.Langfuse — tracing through Langfuse (`tracing/langfuse.py`).

  `configure_tracing` sets two variables for the exporter before it calls `logfire`, which
  reads them. If anything raises, both variables are removed again, whether they were set
  before the call or not. What `logfire` raises is a parameter, and `logfire` sets no
  variable; a value with a NUL cannot be set.

  Proved, for every process and every sequence of calls:
  - `configured_stays`: a process that is configured is never changed.
  - `all_or_nothing_iff`: each call that returns `False` leaves the process as it was iff
    neither variable is set at first, the process is configured at first, or the first call
    with both keys raises nothing. `rollback_removes` is a process that has a collector.
-/

import Mathlib.Data.List.DropRight
import Mathlib.Logic.Function.Basic
import SagaAgents.Config.Env
import SagaAgents.Config.Models
import SagaAgents.Lib.Machine
import SagaAgents.Lib.TextOrder

namespace SagaAgents.Tracing.Langfuse

open Lib
open Config (LangfuseSettings)
open Config.Env (Environ)

/-! ## Base64 -/

def alphabet : List Char := "ABCDEFGHIJKLMNOPQRSTUVWXYZabcdefghijklmnopqrstuvwxyz0123456789+/".toList

def digit (n : Nat) : Char := alphabet.getD n '='

/-- `base64.b64encode`, three bytes at a time. -/
def b64encode : List UInt8 → List Char
  | [] => []
  | [a] => [digit (a.toNat / 4), digit (a.toNat % 4 * 16), '=', '=']
  | [a, b] => [digit (a.toNat / 4), digit (a.toNat % 4 * 16 + b.toNat / 16), digit (b.toNat % 16 * 4), '=']
  | a :: b :: c :: rest =>
    [digit (a.toNat / 4), digit (a.toNat % 4 * 16 + b.toNat / 16), digit (b.toNat % 16 * 4 + c.toNat / 64), digit (c.toNat % 64)] ++
      b64encode rest

example : b64encode (TextOrder.bytes "pk:sk") = "cGs6c2s=".toList := by decide

theorem digit_ne_nul (n : Nat) : digit n ≠ '\x00' := by
  have hall : alphabet.all (· != '\x00') = true := by decide
  unfold digit
  rw [List.getD_eq_getElem?_getD]
  cases h : alphabet[n]? with
  | none => decide
  | some c =>
    have hc := List.all_eq_true.mp hall c (List.mem_of_getElem? h)
    simpa using hc

theorem b64encode_ne_nul (bs : List UInt8) : '\x00' ∉ b64encode bs := by
  induction bs using b64encode.induct with
  | case1 => exact List.not_mem_nil
  | case2 a => simp [b64encode, (digit_ne_nul _).symm]
  | case3 a b => simp [b64encode, (digit_ne_nul _).symm]
  | case4 a b c rest ih => simp [b64encode, (digit_ne_nul _).symm, ih]

/-! ## The process -/

structure Process where
  environ : Environ
  configured : Bool

def nul : CodePoint := CodePoint.ofChar '\x00'

/-- `os.environ[key] = value`. -/
def setItem (key value : Text) : ExceptT String (StateM Process) Unit := do
  if nul ∈ value then throw "embedded null byte"
  modify fun s => { s with environ := Function.update s.environ key (some value) }

/-- What `logfire.configure` and `logfire.instrument_pydantic_ai` raise. -/
structure Logfire where
  configure : Option String := none
  instrumentPydanticAi : Option String := none
  deriving DecidableEq, Repr

def raising : Option String → ExceptT String (StateM Process) Unit
  | some e => throw e
  | none => pure ()

/-! ## configure_tracing -/

def endpointKey : Text := Text.ofString "OTEL_EXPORTER_OTLP_ENDPOINT"

def headersKey : Text := Text.ofString "OTEL_EXPORTER_OTLP_HEADERS"

def slash : CodePoint := CodePoint.ofChar '/'

def endpoint (cfg : LangfuseSettings) : Text := (Text.ofString cfg.host).rdropWhile (· == slash) ++ Text.ofString "/api/public/otel"

def credentials (cfg : LangfuseSettings) : List Char := b64encode (TextOrder.bytes (cfg.publicKey ++ ":" ++ cfg.secretKey))

def headers (cfg : LangfuseSettings) : Text := Text.ofString "Authorization=Basic " ++ (credentials cfg).map CodePoint.ofChar

/-- The `try` block. -/
def attempt (cfg : LangfuseSettings) (logfire : Logfire) : ExceptT String (StateM Process) Unit := do
  setItem endpointKey (endpoint cfg)
  setItem headersKey (headers cfg)
  raising logfire.configure
  raising logfire.instrumentPydanticAi
  modify fun s => { s with configured := true }

/-- `os.environ.pop` of both variables. -/
def cleared (environ : Environ) : Environ := Function.update (Function.update environ endpointKey none) headersKey none

def configureTracing (cfg : LangfuseSettings) (logfire : Logfire) (s : Process) : Bool × Process :=
  if cfg.publicKey = "" ∨ cfg.secretKey = "" then (false, s)
  else if s.configured then (true, s)
  else
    match (attempt cfg logfire).run s with
    | (.ok (), t) => (true, t)
    | (.error _, t) => (false, { t with environ := cleared t.environ })

/-! ## One call -/

structure Call where
  cfg : LangfuseSettings
  logfire : Logfire
  deriving DecidableEq, Repr

def Call.run (c : Call) (s : Process) : Bool × Process := configureTracing c.cfg c.logfire s

def Call.hasKeys (c : Call) : Bool := c.cfg.publicKey != "" && c.cfg.secretKey != ""

/-- The host has a NUL, or `logfire` raises. -/
def Call.raises (c : Call) : Bool :=
  (Text.ofString c.cfg.host).contains nul || c.logfire.configure.isSome || c.logfire.instrumentPydanticAi.isSome

theorem nul_endpoint (cfg : LangfuseSettings) : nul ∈ endpoint cfg ↔ nul ∈ Text.ofString cfg.host := by
  have hpath : nul ∉ Text.ofString "/api/public/otel" := by decide
  have hslash : (nul == slash) = false := by decide
  have hsplit := List.rdropWhile_append_rtakeWhile (p := (· == slash)) (l := Text.ofString cfg.host)
  constructor
  · intro h
    rcases List.mem_append.mp h with h | h
    · exact (List.rdropWhile_prefix _ _).subset h
    · exact absurd h hpath
  · intro h
    rw [← hsplit] at h
    rcases List.mem_append.mp h with h | h
    · exact List.mem_append_left _ h
    · have := List.mem_rtakeWhile_imp h
      rw [hslash] at this
      cases this

theorem eq_nul {c : Char} (h : CodePoint.ofChar c = nul) : c = '\x00' := by
  have hval : c.toNat % 0x110000 = 0 := congrArg Fin.val h
  have hlt : c.toNat < 0x110000 := TextOrder.char_isLt c
  have hzero : c.toNat = 0 := by omega
  exact Char.toNat_inj.mp hzero

theorem nul_headers (cfg : LangfuseSettings) : nul ∉ headers cfg := by
  have hscheme : nul ∉ Text.ofString "Authorization=Basic " := by decide
  intro h
  rcases List.mem_append.mp h with h | h
  · exact hscheme h
  · obtain ⟨c, hc, he⟩ := List.mem_map.mp h
    exact b64encode_ne_nul _ (eq_nul he ▸ hc)

/-! The state goes through the `try` block, to its end or to what raises. -/

section

variable {x : ExceptT String (StateM Process) Unit} {f : Unit → ExceptT String (StateM Process) Unit} {s t : Process} {e : String}

theorem run_bind (x : ExceptT String (StateM Process) Unit) (f : Unit → ExceptT String (StateM Process) Unit) (s : Process) :
    (x >>= f).run s = ExceptT.bindCont f (x.run s).1 (x.run s).2 := rfl

theorem run_seq (h : x.run s = (.ok (), t)) : (x >>= f).run s = (f ()).run t := by
  rw [run_bind, h]
  rfl

theorem run_stop (h : x.run s = (.error e, t)) : (x >>= f).run s = (.error e, t) := by
  rw [run_bind, h]
  rfl

theorem setItem_ok {key value : Text} (h : nul ∉ value) :
    (setItem key value).run s = (.ok (), { s with environ := Function.update s.environ key (some value) }) := by
  rw [setItem, if_neg h]
  rfl

theorem setItem_nul {key value : Text} (h : nul ∈ value) : (setItem key value).run s = (.error "embedded null byte", s) := by
  rw [setItem, if_pos h]
  rfl

end

/-- The process with both variables set. -/
def exported (cfg : LangfuseSettings) (environ : Environ) : Environ :=
  Function.update (Function.update environ endpointKey (some (endpoint cfg))) headersKey (some (headers cfg))

theorem keys_ne : endpointKey ≠ headersKey := by decide

theorem cleared_exported (cfg : LangfuseSettings) (environ : Environ) : cleared (exported cfg environ) = cleared environ := by
  funext k
  unfold cleared exported
  by_cases h : k = headersKey
  · subst h
    simp
  · by_cases h' : k = endpointKey
    · subst h'
      simp [Function.update, keys_ne]
    · simp [Function.update, h, h']

/-- The `try` block sets both variables, or raises before it sets one, or behind it. -/
theorem attempt_run (c : Call) (s : Process) :
    (c.raises = false ∧ (attempt c.cfg c.logfire).run s = (.ok (), ⟨exported c.cfg s.environ, true⟩)) ∨
      c.raises = true ∧ ∃ e environ, cleared environ = cleared s.environ ∧
        (attempt c.cfg c.logfire).run s = (.error e, ⟨environ, s.configured⟩) := by
  have hhost : (Text.ofString c.cfg.host).contains nul = true ↔ nul ∈ endpoint c.cfg := by
    rw [List.contains_iff_mem, nul_endpoint]
  unfold Call.raises
  by_cases hnul : nul ∈ endpoint c.cfg
  · refine Or.inr ⟨by rw [hhost.mpr hnul]; rfl, "embedded null byte", s.environ, rfl, ?_⟩
    exact run_stop (setItem_nul hnul)
  · have hfalse : (Text.ofString c.cfg.host).contains nul = false := by
      rw [← Bool.not_eq_true]
      exact fun h => hnul (hhost.mp h)
    have hset (f : Unit → ExceptT String (StateM Process) Unit) :
        (do setItem endpointKey (endpoint c.cfg); setItem headersKey (headers c.cfg); f ()).run s =
          (f ()).run ⟨exported c.cfg s.environ, s.configured⟩ :=
      (run_seq (setItem_ok hnul)).trans (run_seq (setItem_ok (nul_headers c.cfg)))
    rw [hfalse, attempt, hset fun _ => do
      raising c.logfire.configure
      raising c.logfire.instrumentPydanticAi
      modify fun s => { s with configured := true }]
    cases hc : c.logfire.configure with
    | some e => exact Or.inr ⟨rfl, e, exported c.cfg s.environ, cleared_exported c.cfg s.environ, rfl⟩
    | none =>
      cases hi : c.logfire.instrumentPydanticAi with
      | some e => exact Or.inr ⟨rfl, e, exported c.cfg s.environ, cleared_exported c.cfg s.environ, rfl⟩
      | none => exact Or.inl ⟨rfl, rfl⟩

/-! What a call does: nothing, configure, or fail with both variables removed. -/

section

variable {c : Call} {s : Process}

theorem lacks_key : c.hasKeys = false ↔ c.cfg.publicKey = "" ∨ c.cfg.secretKey = "" := by
  rw [Call.hasKeys, Bool.and_eq_false_iff, bne_eq_false_iff_eq, bne_eq_false_iff_eq]

theorem run_skips (hk : c.hasKeys = false) : c.run s = (false, s) := if_pos (lacks_key.mp hk)

theorem run_keys (hk : c.hasKeys = true) : c.run s =
    if s.configured then (true, s)
    else
      match (attempt c.cfg c.logfire).run s with
      | (.ok (), t) => (true, t)
      | (.error _, t) => (false, { t with environ := cleared t.environ }) := by
  apply if_neg
  intro h
  rw [lacks_key.mpr h] at hk
  cases hk

theorem run_stays (hk : c.hasKeys = true) (hs : s.configured = true) : c.run s = (true, s) := by
  rw [run_keys hk, if_pos hs]

theorem run_configures (hk : c.hasKeys = true) (hs : s.configured = false) (hr : c.raises = false) :
    c.run s = (true, ⟨exported c.cfg s.environ, true⟩) := by
  rw [run_keys hk, if_neg (by simp [hs])]
  rcases attempt_run c s with ⟨-, h⟩ | ⟨hr', -⟩
  · rw [h]
  · rw [hr] at hr'
    cases hr'

theorem run_fails (hk : c.hasKeys = true) (hs : s.configured = false) (hr : c.raises = true) :
    c.run s = (false, ⟨cleared s.environ, false⟩) := by
  rw [run_keys hk, if_neg (by simp [hs])]
  rcases attempt_run c s with ⟨hr', -⟩ | ⟨-, e, environ, hclear, h⟩
  · rw [hr] at hr'
    cases hr'
  · rw [h]
    simp only [hclear, hs]

end

/-- A call that returns `False` leaves the process as it was. -/
def Restores (c : Call) (s : Process) : Prop := (c.run s).1 = false → (c.run s).2 = s

/-- Neither variable is set. -/
def Unset (environ : Environ) : Prop := environ endpointKey = none ∧ environ headersKey = none

theorem cleared_eq (environ : Environ) : cleared environ = environ ↔ Unset environ := by
  constructor
  · intro h
    refine ⟨?_, ?_⟩ <;> rw [← h]
    · simp [cleared, Function.update, keys_ne]
    · simp [cleared]
  · rintro ⟨he, hh⟩
    funext k
    unfold cleared
    by_cases h : k = headersKey
    · subst h
      rw [Function.update_self, hh]
    · rw [Function.update_of_ne h]
      by_cases h' : k = endpointKey
      · subst h'
        rw [Function.update_self, he]
      · rw [Function.update_of_ne h']

theorem cleared_unset (environ : Environ) : Unset (cleared environ) := by
  constructor
  · simp [cleared, Function.update, keys_ne]
  · simp [cleared]

/-- The call restores the process iff it does not fail, or there was nothing to remove. -/
theorem restores_iff (c : Call) (s : Process) :
    Restores c s ↔ c.hasKeys = false ∨ s.configured = true ∨ c.raises = false ∨ Unset s.environ := by
  unfold Restores
  cases hk : c.hasKeys with
  | false =>
    rw [run_skips hk]
    exact ⟨fun _ => .inl rfl, fun _ _ => rfl⟩
  | true =>
    cases hs : s.configured with
    | true =>
      rw [run_stays hk hs]
      exact ⟨fun _ => .inr (.inl rfl), fun _ _ => rfl⟩
    | false =>
      cases hr : c.raises with
      | false =>
        rw [run_configures hk hs hr]
        exact ⟨fun _ => .inr (.inr (.inl rfl)), fun _ h => (by cases h)⟩
      | true =>
        rw [run_fails hk hs hr]
        constructor
        · intro h
          exact .inr (.inr (.inr ((cleared_eq _).mp (congrArg Process.environ (h rfl)))))
        · rintro (h | h | h | h) _
          · cases h
          · cases h
          · cases h
          · show Process.mk (cleared s.environ) false = s
            rw [(cleared_eq _).mpr h, ← hs]

/-! ## Sequences of calls -/

/-- The process behind some calls. -/
def after (s : Process) (calls : List Call) : Process := calls.foldl (fun s c => (c.run s).2) s

/-- The call returns `True` and was the one that configured. -/
def Configures (c : Call) (s : Process) : Prop := s.configured = false ∧ (c.run s).1 = true

/-- Each call that returns `False` leaves the process as it was; and behind a call that
    configured no call changes the environment. -/
def AllOrNothing (s : Process) (calls : List Call) : Prop :=
  ∀ before c rest, calls = before ++ c :: rest → Restores c (after s before) ∧
    ∀ first c' between, before = first ++ c' :: between → Configures c' (after s first) →
      (c.run (after s before)).2.environ = (after s before).environ

theorem run_configured {c : Call} {s : Process} (h : s.configured = true) : (c.run s).2 = s := by
  cases hk : c.hasKeys with
  | false => rw [run_skips hk]
  | true => rw [run_stays hk h]

/-- A process that is configured is never changed. -/
theorem configured_stays {s : Process} (h : s.configured = true) (calls : List Call) : after s calls = s := by
  induction calls with
  | nil => rfl
  | cons c cs ih =>
    show after (c.run s).2 cs = s
    rw [run_configured h, ih]

theorem configures_configured {c : Call} {s : Process} (h : Configures c s) : (c.run s).2.configured = true := by
  obtain ⟨hs, ht⟩ := h
  cases hk : c.hasKeys with
  | false =>
    rw [run_skips hk] at ht
    cases ht
  | true =>
    cases hr : c.raises with
    | false => rw [run_configures hk hs hr]
    | true =>
      rw [run_fails hk hs hr] at ht
      cases ht

/-- Behind a call that configured no call changes the environment. -/
theorem configured_kept {s : Process} {first between : List Call} {c c' : Call} (h : Configures c' (after s first)) :
    (c.run (after s (first ++ c' :: between))).2.environ = (after s (first ++ c' :: between)).environ := by
  have hafter : after s (first ++ c' :: between) = (c'.run (after s first)).2 := by
    have hsplit : after s (first ++ c' :: between) = after (c'.run (after s first)).2 between := by
      simp [after]
    rw [hsplit, configured_stays (configures_configured h)]
  rw [hafter, run_configured (configures_configured h)]

/-- Each call of a sequence restores the process iff the first does, and the others do behind it. -/
theorem restores_cons {s : Process} {c : Call} {cs : List Call} :
    (∀ before d rest, c :: cs = before ++ d :: rest → Restores d (after s before)) ↔
      Restores c s ∧ ∀ before d rest, cs = before ++ d :: rest → Restores d (after (c.run s).2 before) :=
  forall_split_cons

theorem restores_configured {s : Process} (h : s.configured = true) (calls : List Call) :
    ∀ before c rest, calls = before ++ c :: rest → Restores c (after s before) := by
  intro before c rest _
  rw [configured_stays h, restores_iff]
  exact .inr (.inl h)

/-- With neither variable set, every call that fails restores the process. -/
theorem restores_unset {s : Process} (h : Unset s.environ) (calls : List Call) :
    ∀ before c rest, calls = before ++ c :: rest → Restores c (after s before) := by
  induction calls generalizing s with
  | nil => exact forall_split_nil
  | cons c cs ih =>
    rw [restores_cons, restores_iff]
    refine ⟨.inr (.inr (.inr h)), ?_⟩
    cases hk : c.hasKeys with
    | false =>
      rw [run_skips hk]
      exact ih h
    | true =>
      cases hs : s.configured with
      | true =>
        rw [run_stays hk hs]
        exact ih h
      | false =>
        cases hr : c.raises with
        | false =>
          rw [run_configures hk hs hr]
          exact restores_configured rfl cs
        | true =>
          rw [run_fails hk hs hr]
          exact ih (cleared_unset _)

theorem restores_each_iff (s : Process) (calls : List Call) :
    (∀ before c rest, calls = before ++ c :: rest → Restores c (after s before)) ↔
      Unset s.environ ∨ s.configured = true ∨ ∀ c, calls.find? Call.hasKeys = some c → c.raises = false := by
  by_cases hunset : Unset s.environ
  · exact ⟨fun _ => .inl hunset, fun _ => restores_unset hunset calls⟩
  by_cases hconf : s.configured = true
  · exact ⟨fun _ => .inr (.inl hconf), fun _ => restores_configured hconf calls⟩
  induction calls with
  | nil => exact ⟨fun _ => .inr (.inr fun c h => (by cases h)), fun _ => forall_split_nil⟩
  | cons c cs ih =>
    rw [restores_cons, restores_iff]
    cases hk : c.hasKeys with
    | false =>
      rw [List.find?_cons_of_neg (by simp [hk]), run_skips hk, ih]
      exact ⟨fun h => h.2, fun h => ⟨.inl rfl, h⟩⟩
    | true =>
      rw [List.find?_cons_of_pos hk]
      constructor
      · rintro ⟨h, -⟩
        refine .inr (.inr fun d hd => ?_)
        cases hd
        rcases h with h | h | h | h
        · cases h
        · exact absurd h hconf
        · exact h
        · exact absurd h hunset
      · intro h
        have hr : c.raises = false := (h.resolve_left hunset).resolve_left hconf c rfl
        refine ⟨.inr (.inr (.inl hr)), ?_⟩
        rw [run_configures hk (by simpa using hconf) hr]
        exact restores_configured rfl cs

/-- A sequence of calls is all-or-nothing iff neither variable is set at first, the process
    is configured at first, or the first call with both keys raises nothing. -/
theorem all_or_nothing_iff (s : Process) (calls : List Call) :
    AllOrNothing s calls ↔
      Unset s.environ ∨ s.configured = true ∨ ∀ c, calls.find? Call.hasKeys = some c → c.raises = false := by
  rw [← restores_each_iff]
  constructor
  · intro h before c rest e
    exact (h before c rest e).1
  · intro h before c rest e
    refine ⟨h before c rest e, fun first c' between e' hc => ?_⟩
    subst e'
    exact configured_kept hc

/-! A process that exports to a collector of its own, and a `logfire` that raises. -/

def collector : Process where
  environ := fun k => if k = endpointKey then some (Text.ofString "http://collector:4318") else none
  configured := false

def boom : Call := ⟨{ publicKey := "pk", secretKey := "sk" }, { configure := some "logfire boom" }⟩

/-- The call returns `False`, and the variable is gone. -/
theorem rollback_removes :
    (boom.run collector).1 = false ∧ collector.environ endpointKey = some (Text.ofString "http://collector:4318") ∧
      (boom.run collector).2.environ endpointKey = none ∧ ¬ AllOrNothing collector [boom] := by
  have hlost : (boom.run collector).2.environ endpointKey = none := by decide
  refine ⟨by decide, by decide, hlost, fun h => ?_⟩
  have hsame := (h [] boom [] rfl).1 (by decide)
  have henv : (boom.run collector).2.environ endpointKey = collector.environ endpointKey := by
    rw [show (boom.run collector).2 = collector from hsame]
  rw [hlost] at henv
  cases henv

end SagaAgents.Tracing.Langfuse
