/-
  SagaAgents.Config.Models — the configuration models (`config/models.py`).

  A pydantic model is a structure. `ToolsSpec` carries what its validator checks, so a
  spec with a write tool outside `allow` cannot be built; `ToolsSpec.validate` is the
  validator, which builds it or names the tools that are in its way (`validate_cases`). A
  table of definitions is keyed by id, as the dict the service builds from the enabled ones
  is.
-/

import Mathlib.Data.List.Dedup
import Mathlib.Data.List.Sort
import Mathlib.Data.Rat.Defs
import Mathlib.Data.String.Basic
import SagaAgents.Lib.Keyed

namespace SagaAgents.Config

/-! ## Triggers -/

structure EventTrigger where
  topics : List String
  debounceMinutes : Int := 0
  deriving DecidableEq, Repr

structure ScheduleTrigger where
  cron : String
  deriving DecidableEq, Repr

inductive Trigger where
  | event (t : EventTrigger)
  | schedule (t : ScheduleTrigger)
  | external
  deriving DecidableEq, Repr

def Trigger.schedule? : Trigger → Option ScheduleTrigger
  | .schedule t => some t
  | _ => none

def Trigger.event? : Trigger → Option EventTrigger
  | .event t => some t
  | _ => none

/-! ## Tools -/

structure ToolsSpec where
  allow : List String := []
  write : List String := []
  writeAllowed : ∀ t ∈ write, t ∈ allow := by decide
  deriving DecidableEq

/-- `ToolsSpec()`. -/
def ToolsSpec.new : ToolsSpec := {}

/-- `sorted(set(write) - set(allow))`. -/
def ToolsSpec.extra (allow write : List String) : List String :=
  (write.dedup.filter (· ∉ allow)).mergeSort fun s t => decide (s ≤ t)

/-- `_write_subset_of_allow`. -/
def ToolsSpec.validate (allow write : List String) : Except (List String) ToolsSpec :=
  if h : ∀ t ∈ write, t ∈ allow then .ok ⟨allow, write, h⟩ else .error (extra allow write)

theorem ToolsSpec.mem_extra {allow write : List String} {t : String} : t ∈ extra allow write ↔ t ∈ write ∧ t ∉ allow := by
  simp [extra, List.mem_mergeSort]

theorem ToolsSpec.extra_sorted (allow write : List String) : (extra allow write).Pairwise (· < ·) := by
  have hle : (extra allow write).Pairwise (· ≤ ·) := List.pairwise_mergeSort' (· ≤ ·) _
  have hne : (extra allow write).Nodup := (List.mergeSort_perm _ _).nodup_iff.mpr ((List.nodup_dedup write).filter _)
  apply (hle.and hne).imp
  rintro s t ⟨hle, hne⟩
  exact lt_of_le_of_ne hle hne

/-- The validator answers with a spec of the two lists, or names the write tools that are
    not allowed, each once and in order. -/
theorem ToolsSpec.validate_cases (allow write : List String) :
    (∃ spec, validate allow write = .ok spec ∧ spec.allow = allow ∧ spec.write = write) ∨
      ∃ extra, validate allow write = .error extra ∧ extra ≠ [] ∧ extra.Pairwise (· < ·) ∧
        ∀ t, t ∈ extra ↔ t ∈ write ∧ t ∉ allow := by
  by_cases h : ∀ t ∈ write, t ∈ allow
  · exact Or.inl ⟨_, dif_pos h, rfl, rfl⟩
  · refine Or.inr ⟨_, dif_neg h, ?_, extra_sorted allow write, fun t => mem_extra⟩
    push Not at h
    obtain ⟨t, ht, hno⟩ := h
    exact List.ne_nil_of_mem (mem_extra.mpr ⟨ht, hno⟩)

/-! ## Agents -/

structure Limits where
  maxSteps : Int := 40
  maxToolCalls : Int := 100
  timeoutSeconds : Int := 900
  maxConcurrentRuns : Int := 1
  deriving DecidableEq, Repr

inductive Autonomy where
  | proposal
  | autonomous
  deriving DecidableEq, Repr

structure AgentDefinition where
  id : String
  enabled : Bool := true
  description : String := ""
  model : Option String := none
  autonomy : Autonomy := .proposal
  tools : ToolsSpec := ToolsSpec.new
  triggers : List Trigger := []
  limits : Limits := {}
  systemPrompt : String := ""
  deriving DecidableEq

/-- Definitions by id. -/
abbrev Definitions := Lib.Keyed AgentDefinition.id

def AgentDefinition.scheduleTriggers (d : AgentDefinition) : List ScheduleTrigger := d.triggers.filterMap (·.schedule?)

def AgentDefinition.eventTriggers (d : AgentDefinition) : List EventTrigger := d.triggers.filterMap (·.event?)

/-! ## Global configuration -/

structure McpSettings where
  baseUrl : String
  bearerToken : String
  deriving DecidableEq, Repr

structure OllamaSettings where
  baseUrl : String
  defaultModel : String
  deriving DecidableEq, Repr

structure RedisSettings where
  url : String
  eventChannel : String
  deriving DecidableEq, Repr

structure LangfuseSettings where
  publicKey : String := ""
  secretKey : String := ""
  host : String := "https://cloud.langfuse.com"
  deriving DecidableEq, Repr

structure RuntimeSettings where
  maxConcurrentRunsGlobal : Int := 2
  proposalsDb : String := "proposals.db"
  guidanceCacheTtlSeconds : Rat := 300
  deriving DecidableEq, Repr

structure GlobalConfig where
  mcp : McpSettings
  ollama : OllamaSettings
  redis : RedisSettings
  langfuse : LangfuseSettings := {}
  runtime : RuntimeSettings := {}
  agentsDir : String := "config/agents"
  deriving DecidableEq, Repr

end SagaAgents.Config
