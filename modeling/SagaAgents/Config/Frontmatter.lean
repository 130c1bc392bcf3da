/-
  SagaAgents.Config.Frontmatter — agent files (`config/loader.py`, `parse_agent_markdown`).

  An agent file is a frontmatter between two lines `---`, and a body, which becomes the
  system prompt. The tokens of the frontmatter are replaced in its text, and the text that
  comes out is parsed as YAML. What `yaml.safe_load` answers is a parameter; a flat mapping
  is read line by line (`flatLoad`): a comment is cut off, and the line is split at its first
  `: `; how one scalar is read stays a parameter. So do pydantic's checks of one field.

  Proved:
  - `other_fields_equal`: two environments that differ in a variable that only the line of
    one key refers to, and comment lines. If no value that is put into these lines has a
    line break, the definitions are equal in every other field.
  - `injected_line`: with a line break, a value adds a line that sets any field; and the
    definition has the field's new value (`injected_field`). `value_sets_autonomy` is a file.
-/

import SagaAgents.Config.Env
import SagaAgents.Config.Models
import SagaAgents.Runtime.Guidance

namespace SagaAgents.Config.Frontmatter

open Lib
open Env (Environ ConfigError Node resolveEnv envPattern)
open Runtime.Guidance (isSpace validatePlaceholders)

variable {A C : Type}

/-! ## Definitions and their checks -/

/-- An `AgentDefinition` with its `context`. -/
structure AgentFile (C : Type) extends AgentDefinition where
  context : C

inductive Field where
  | id
  | enabled
  | description
  | model
  | autonomy
  | tools
  | triggers
  | limits
  | context
  | systemPrompt
  deriving DecidableEq, Repr

def Field.name : Field → Text
  | .id => Text.ofString "id"
  | .enabled => Text.ofString "enabled"
  | .description => Text.ofString "description"
  | .model => Text.ofString "model"
  | .autonomy => Text.ofString "autonomy"
  | .tools => Text.ofString "tools"
  | .triggers => Text.ofString "triggers"
  | .limits => Text.ofString "limits"
  | .context => Text.ofString "context"
  | .systemPrompt => Text.ofString "system_prompt"

def Field.Value (C : Type) : Field → Type
  | .id | .description | .systemPrompt => String
  | .enabled => Bool
  | .model => Option String
  | .autonomy => Autonomy
  | .tools => ToolsSpec
  | .triggers => List Trigger
  | .limits => Limits
  | .context => C

def AgentFile.get (d : AgentFile C) : (f : Field) → f.Value C
  | .id => d.id
  | .enabled => d.enabled
  | .description => d.description
  | .model => d.model
  | .autonomy => d.autonomy
  | .tools => d.tools
  | .triggers => d.triggers
  | .limits => d.limits
  | .context => d.context
  | .systemPrompt => d.systemPrompt

/-- A parsed mapping whose keys are strings. -/
abbrev Data (A : Type) := Keyed (Prod.fst : Text × Node A → Text)

/-- What `model_validate` raises. -/
inductive Rejected where
  /-- A `ValidationError`, with its text. -/
  | validation (text : String)
  /-- The `ConfigError` of `_write_subset_of_allow`; `extra` is the sorted list as it prints. -/
  | tools (extra : String)
  deriving DecidableEq, Repr

/-- What pydantic does with the value of a field, the empty `context`, and what is raised
    where a field does not pass. -/
structure Pydantic (A C : Type) where
  validate : (f : Field) → Node A → Option (f.Value C)
  noContext : C
  report : Data A → Rejected

def Field.default (noContext : C) : (f : Field) → Option (f.Value C)
  | .id => none
  | .enabled => some true
  | .description | .systemPrompt => some ""
  | .model => some none
  | .autonomy => some Autonomy.proposal
  | .tools => some ToolsSpec.new
  | .triggers => some []
  | .limits => some {}
  | .context => some noContext

def Pydantic.field (p : Pydantic A C) (data : Data A) (f : Field) : Option (f.Value C) :=
  match data.get f.name with
  | some m => p.validate f m.2
  | none => f.default p.noContext

/-- `AgentDefinition.model_validate`. -/
def Pydantic.modelValidate (p : Pydantic A C) (data : Data A) : Option (AgentFile C) := do
  let id ← p.field data .id
  let enabled ← p.field data .enabled
  let description ← p.field data .description
  let model ← p.field data .model
  let autonomy ← p.field data .autonomy
  let tools ← p.field data .tools
  let triggers ← p.field data .triggers
  let limits ← p.field data .limits
  let context ← p.field data .context
  let systemPrompt ← p.field data .systemPrompt
  some { id, enabled, description, model, autonomy, tools, triggers, limits, context, systemPrompt }

/-- A definition has in each field what the check of the field answers. -/
theorem modelValidate_field {p : Pydantic A C} {data : Data A} {d : AgentFile C} (h : p.modelValidate data = some d) (f : Field) :
    p.field data f = some (d.get f) := by
  obtain ⟨id, h1, h⟩ := Option.bind_eq_some_iff.mp h
  obtain ⟨enabled, h2, h⟩ := Option.bind_eq_some_iff.mp h
  obtain ⟨description, h3, h⟩ := Option.bind_eq_some_iff.mp h
  obtain ⟨model, h4, h⟩ := Option.bind_eq_some_iff.mp h
  obtain ⟨autonomy, h5, h⟩ := Option.bind_eq_some_iff.mp h
  obtain ⟨tools, h6, h⟩ := Option.bind_eq_some_iff.mp h
  obtain ⟨triggers, h7, h⟩ := Option.bind_eq_some_iff.mp h
  obtain ⟨limits, h8, h⟩ := Option.bind_eq_some_iff.mp h
  obtain ⟨context, h9, h⟩ := Option.bind_eq_some_iff.mp h
  obtain ⟨systemPrompt, h10, h⟩ := Option.bind_eq_some_iff.mp h
  cases h
  cases f with
  | id => exact h1
  | enabled => exact h2
  | description => exact h3
  | model => exact h4
  | autonomy => exact h5
  | tools => exact h6
  | triggers => exact h7
  | limits => exact h8
  | context => exact h9
  | systemPrompt => exact h10

/-- `data["system_prompt"] = body`. -/
def withPrompt (data : Data A) (body : Text) : Data A := data.set (Field.systemPrompt.name, .str body)

theorem withPrompt_other (data : Data A) (body : Text) {k : Text} (h : k ≠ Field.systemPrompt.name) :
    (withPrompt data body).get k = data.get k :=
  Keyed.get_set_ne data h

/-- A prompt that pydantic takes, it keeps. -/
def Pydantic.KeepsPrompt (p : Pydantic A C) : Prop :=
  ∀ s v, p.validate .systemPrompt (.str s) = some v → Text.ofString v = s

theorem systemPrompt_body {p : Pydantic A C} (hp : p.KeepsPrompt) {data : Data A} {body : Text} {d : AgentFile C}
    (h : p.modelValidate (withPrompt data body) = some d) : Text.ofString d.systemPrompt = body := by
  have hfield := modelValidate_field h .systemPrompt
  have hget : (withPrompt data body).get Field.systemPrompt.name = some (Field.systemPrompt.name, .str body) :=
    Keyed.get_set_same data _
  unfold Pydantic.field at hfield
  rw [hget] at hfield
  exact hp body _ hfield

/-- A field depends on its own member. -/
theorem field_congr (p : Pydantic A C) (body : Text) {data data' : Data A} {f : Field} (h : data.get f.name = data'.get f.name) :
    p.field (withPrompt data body) f = p.field (withPrompt data' body) f := by
  have hget : (withPrompt data body).get f.name = (withPrompt data' body).get f.name := by
    by_cases hk : f.name = Field.systemPrompt.name
    · rw [hk]
      exact (Keyed.get_set_same data _).trans (Keyed.get_set_same data' _).symm
    · rw [withPrompt_other data body hk, withPrompt_other data' body hk, h]
  unfold Pydantic.field
  rw [hget]

/-! ## parse_agent_markdown -/

/-- What `yaml.safe_load` answers. -/
inductive Loaded (A : Type) where
  | mapping (data : Data A)
  /-- `None`, and any other value that is false. -/
  | falsy
  | notMapping

/-- Without the characters of a kind at both ends. -/
def strip (p : CodePoint → Bool) (text : Text) : Text := ((text.dropWhile p).reverse.dropWhile p).reverse

inductive LoadError where
  | config (e : ConfigError)
  /-- What `yaml.safe_load` raises, which is not caught. -/
  | yaml
  deriving DecidableEq, Repr

/-- `source` is `{source!r}`. -/
def agentFile (source text : String) : LoadError := .config ("Agent file " ++ source ++ text)

/-- The frontmatter and the body of a file. -/
def split (text : Text) (source : String) : Except LoadError (Text × Text) :=
  match expect (Text.ofString "---\n") text with
  | none => .error (agentFile source " must start with a YAML frontmatter block (---).")
  | some rest =>
    match breakAt (Text.ofString "\n---\n") rest with
    | none => .error (agentFile source " has an unclosed frontmatter block (missing closing ---).")
    | some (front, body) =>
      if strip isSpace body = [] then .error (agentFile source " has an empty system-prompt body.")
      else .ok (front, strip isSpace body)

def resolveEnvInYaml (env : Environ) (text : Text) : Except LoadError Text := (resolveEnv env text).mapError .config

/-- `yaml.safe_load(..) or {}`, if that is a mapping. -/
def mapping (safeLoad : Text → Option (Loaded A)) (source : String) (text : Text) : Except LoadError (Data A) :=
  match safeLoad text with
  | none => .error .yaml
  | some (.mapping data) => .ok data
  | some .falsy => .ok (Keyed.empty _)
  | some .notMapping => .error (agentFile source " frontmatter must be a YAML mapping.")

/-- A `ValidationError` is named; the `ConfigError` of a validator goes through as it is. -/
def Rejected.error (source : String) : Rejected → LoadError
  | .validation text => agentFile source (" is invalid: " ++ text)
  | .tools extra => .config ("ToolsSpec.write contains tools not in allow: " ++ extra)

def validated (p : Pydantic A C) (source : String) (body : Text) (data : Data A) : Except LoadError (AgentFile C) :=
  match p.modelValidate (withPrompt data body) with
  | some d => .ok d
  | none => .error ((p.report (withPrompt data body)).error source)

def parseAgentMarkdown (safeLoad : Text → Option (Loaded A)) (p : Pydantic A C) (env : Environ) (text : Text) (source : String) :
    Except LoadError (AgentFile C) := do
  let (front, body) ← split text source
  let resolved ← resolveEnvInYaml env front
  let data ← mapping safeLoad source resolved
  (validatePlaceholders source body).mapError .config
  validated p source body data

/-! ## Flat mappings -/

/-- The line breaks of YAML. -/
def isBreak (c : CodePoint) : Bool := c.val == 0xa || c.val == 0xd || c.val == 0x85 || c.val == 0x2028 || c.val == 0x2029

def lines (text : Text) : List Text := text.splitOnP isBreak

def space : CodePoint := CodePoint.ofChar ' '

def hash : CodePoint := CodePoint.ofChar '#'

def colon : Text := Text.ofString ": "

/-- A line without its comment: `#` begins one after a space, and at the start of the line. -/
def uncomment : CodePoint → Text → Text
  | _, [] => []
  | before, c :: cs => if c = hash ∧ before = space then [] else c :: uncomment c cs

def isBlank (c : CodePoint) : Bool := c == space

/-- The key and the value of a line, if it has any; a line that is indented, or has no `: `,
    is none of a flat mapping. -/
def readLine (scalar : Text → Option (Node A)) (l : Text) : Option (Option (Text × Node A)) :=
  let content := uncomment space l
  if content.all isBlank then some none
  else if content.head? = some space then none
  else (breakAt colon content).bind fun p => (scalar (strip isBlank p.2)).map fun v => some (strip isBlank p.1, v)

/-- The members that lines set, in order. -/
def readLines (scalar : Text → Option (Node A)) : List Text → Option (List (Text × Node A))
  | [] => some []
  | l :: ls => (readLine scalar l).bind fun m => (readLines scalar ls).map fun ms => m.toList ++ ms

/-- `yaml.safe_load` on a flat mapping. -/
def flatLoad (scalar : Text → Option (Node A)) (text : Text) : Option (Loaded A) :=
  (readLines scalar (lines text)).map fun ms => if ms = [] then .falsy else .mapping (Keyed.ofList Prod.fst ms)

/-! ## Resolving line by line -/

def NoBreak (text : Text) : Prop := ∀ c ∈ text, isBreak c = false

theorem noBreak_of {text : Text} (h : text.all (!isBreak ·) = true) : NoBreak text := fun c hc => by
  simpa using List.all_eq_true.mp h c hc

/-- A text is one line, or a line and the lines after its break. -/
theorem lines_induction {P : Text → Prop} (one : ∀ l, NoBreak l → P l)
    (more : ∀ l sep rest, NoBreak l → isBreak sep = true → P rest → P (l ++ sep :: rest)) (text : Text) : P text := by
  induction hn : text.length using Nat.strongRecOn generalizing text with
  | ind n ih =>
    subst hn
    have hl : NoBreak (text.takeWhile (!isBreak ·)) := fun c hc => by
      simpa using List.mem_takeWhile_imp (p := (!isBreak ·)) hc
    have he := List.takeWhile_append_dropWhile (p := (!isBreak ·)) (l := text)
    cases hd : text.dropWhile (!isBreak ·) with
    | nil =>
      rw [hd, List.append_nil] at he
      rw [← he]
      exact one _ hl
    | cons sep rest =>
      rw [hd] at he
      have hsep : isBreak sep = true := by
        have := List.head_dropWhile_not (l := text) (!isBreak ·) (by rw [hd]; simp)
        simpa [hd] using this
      have hlen : rest.length < text.length := by
        have := congrArg List.length he
        simp only [List.length_append, List.length_cons] at this
        omega
      rw [← he]
      exact more _ sep rest hl hsep (ih rest.length hlen rest rfl)

theorem lines_one {l : Text} (h : NoBreak l) : lines l = [l] := List.splitOnP_eq_singleton h

theorem lines_append (a b : Text) {sep : CodePoint} (h : isBreak sep = true) : lines (a ++ sep :: b) = lines a ++ lines b :=
  List.splitOnP_append_cons a b h

/-- Every token is on one line. -/
def OneLine (text : Text) : Prop := ∀ t ∈ envPattern.found text, ∀ d, t.default = some d → NoBreak d

theorem isBreak_name {c : CodePoint} (h : Env.isNameChar c = true) : isBreak c = false := by
  simp only [Env.isNameChar, Env.isNameStart, Bool.or_eq_true, Bool.and_eq_true, decide_eq_true_eq, beq_iff_eq] at h
  simp only [isBreak, Bool.or_eq_false_iff, beq_eq_false_iff_ne]
  omega

theorem noBreak_token {text : Text} (ho : OneLine text) {t : Env.Token} (ht : t ∈ envPattern.found text) : NoBreak t.text := by
  intro c hc
  have hopening : NoBreak Env.opening := noBreak_of rfl
  have hdash : NoBreak Env.dash := noBreak_of rfl
  rcases List.mem_append.mp hc with hc | hc
  · exact hopening c hc
  rcases List.mem_append.mp hc with hc | hc
  · exact isBreak_name (Env.found_name ht c hc)
  rcases List.mem_append.mp hc with hc | hc
  · cases hd : t.default with
    | none => rw [hd] at hc; cases hc
    | some d =>
      rw [hd] at hc
      rcases List.mem_append.mp hc with hc | hc
      · exact hdash c hc
      · exact ho t ht d hd c hc
  · rw [List.mem_singleton.mp hc]
    decide

theorem scan_lines {l rest : Text} {sep : CodePoint} (ho : OneLine (l ++ sep :: rest)) (hs : isBreak sep = true) :
    envPattern.scan (l ++ sep :: rest) = envPattern.scan l ++ (.inl sep :: envPattern.scan rest) := by
  have hsep : ∀ t ∈ envPattern.found (l ++ sep :: rest), sep ∉ t.text := by
    intro t ht hm
    rw [noBreak_token ho ht sep hm] at hs
    cases hs
  have hd : sep ≠ CodePoint.ofChar '$' := by
    intro e
    subst e
    exact absurd hs (by decide)
  have hr : envPattern.scan (sep :: rest) = .inl sep :: envPattern.scan rest := Matcher.scan_skip (Env.readToken_none rest hd)
  rw [Matcher.scan_append_sep Env.envPattern_printed hsep, hr]

theorem oneLine_rest {l rest : Text} {sep : CodePoint} (ho : OneLine (l ++ sep :: rest)) (hs : isBreak sep = true) :
    OneLine rest := by
  intro t ht
  refine ho t (Matcher.mem_found.mpr ?_)
  rw [scan_lines ho hs]
  exact List.mem_append_right _ (List.mem_cons_of_mem _ (Matcher.mem_found.mp ht))

/-- The text is resolved line by line; a value may add lines. -/
theorem resolve_lines {env : Environ} (front : Text) :
    ∀ r, OneLine front → resolveEnv env front = .ok r →
      ∃ rs, List.Forall₂ (fun l x => resolveEnv env l = .ok x) (lines front) rs ∧ lines r = rs.flatMap lines := by
  induction front using lines_induction with
  | one l hl =>
    intro r _ h
    rw [lines_one hl]
    exact ⟨[r], .cons h .nil, by simp⟩
  | more l sep rest hl hs ih =>
    intro r ho h
    have hscan := scan_lines ho hs
    rw [resolveEnv, Matcher.tryReplaced, hscan] at h
    obtain ⟨x, y, hx, hy, e⟩ := Matcher.tryPieces_append h
    obtain ⟨z, hz, e'⟩ := map_ok.mp hy
    obtain ⟨rs, hrs, hlines⟩ := ih z (oneLine_rest ho hs) hz
    subst e e'
    rw [lines_append l rest hs, lines_append x z hs, lines_one hl, hlines]
    exact ⟨x :: rs, .cons hx hrs, rfl⟩

theorem resolve_of_lines {env : Environ} (front : Text) :
    ∀ rs, OneLine front → List.Forall₂ (fun l x => resolveEnv env l = .ok x) (lines front) rs →
      ∃ r, resolveEnv env front = .ok r ∧ lines r = rs.flatMap lines := by
  induction front using lines_induction with
  | one l hl =>
    intro rs _ h
    rw [lines_one hl] at h
    cases h with
    | cons hx h =>
      cases h
      exact ⟨_, hx, by simp⟩
  | more l sep rest hl hs ih =>
    intro rs ho h
    have hscan := scan_lines ho hs
    rw [lines_append l rest hs, lines_one hl] at h
    cases h with
    | @cons _ x _ rs hx h =>
      obtain ⟨z, hz, hlines⟩ := ih rs (oneLine_rest ho hs) h
      refine ⟨x ++ sep :: z, ?_, by rw [lines_append x z hs, hlines]; rfl⟩
      rw [resolveEnv, Matcher.tryReplaced, hscan]
      refine Matcher.tryPieces_append_ok hx ?_
      rw [Matcher.tryPieces]
      exact congrArg (Except.map _) hz

theorem noBreak_lines (text : Text) : ∀ l ∈ lines text, NoBreak l := by
  induction text using lines_induction with
  | one l hl =>
    intro l' h
    rw [lines_one hl] at h
    rw [List.mem_singleton.mp h]
    exact hl
  | more l sep rest hl hs ih =>
    intro l' h
    rw [lines_append l rest hs, lines_one hl] at h
    rcases List.mem_cons.mp h with h | h
    · rw [h]
      exact hl
    · exact ih l' h

theorem oneLine_of {l : Text} (h : NoBreak l) : OneLine l := by
  intro t ht d hd c hc
  obtain ⟨s, rest, hs, hr⟩ := Matcher.found_reads Env.envPattern_printed (Matcher.mem_found.mp ht)
  refine h c (hs.mem ?_)
  rw [Env.envPattern_printed.reads _ _ _ hr, Env.Token.text, hd]
  simp [hc]

/-- No value that is put into the line has a line break. -/
def Unbroken (env : Environ) (l : Text) : Prop := ∀ n ∈ Env.names l, ∀ v, env n = some v → NoBreak v

theorem resolved_noBreak {env : Environ} {l x : Text} (hl : NoBreak l) (hu : Unbroken env l) (h : resolveEnv env l = .ok x) :
    NoBreak x := by
  refine Matcher.tryPieces_all h (fun c hc => hl c (Matcher.mem_of_literal Env.envPattern_printed hc)) fun t ht v hv => ?_
  have ht := Matcher.mem_found.mpr ht
  unfold Env.Token.value at hv
  split at hv
  · rename_i v' he
    cases hv
    exact hu t.name (List.mem_map_of_mem ht) v he
  · rename_i d he hd
    cases hv
    exact oneLine_of hl t ht v hd
  · cases hv

/-- Text in which no token begins stays. -/
theorem resolve_literal {env : Environ} {a b x : Text} (ha : ∀ s, s ≠ [] → s <:+ a → envPattern.read (s ++ b) = none)
    (h : resolveEnv env (a ++ b) = .ok x) : ∃ y, x = a ++ y := by
  rw [resolveEnv, Matcher.tryReplaced, Matcher.scan_literal ha, Matcher.tryPieces_literal] at h
  obtain ⟨y, -, e⟩ := map_ok.mp h
  exact ⟨y, e.symm⟩

/-! ## Where a variable is referred to -/

/-- A comment line, or the line of key `k`: the key is before the first `: `, there is no
    comment in it, and no token begins before the scalar. -/
inductive Place (k : Text) : Text → Prop
  | comment (n : Nat) (rest : Text) : Place k (List.replicate n space ++ hash :: rest)
  | scalar (w s : Text) (hk : strip isBlank w = k) (hw : uncomment space w = w) (hc : breakAt colon (w ++ colon) = some (w, []))
      (ht : ∀ t, t ≠ [] → t <:+ w ++ colon → envPattern.read (t ++ s) = none) : Place k (w ++ colon ++ s)

/-- A key without a dollar sign. -/
theorem place_plain {k w s : Text} (hk : strip isBlank w = k) (hw : uncomment space w = w)
    (hc : breakAt colon (w ++ colon) = some (w, [])) (hd : CodePoint.ofChar '$' ∉ w ++ colon) : Place k (w ++ colon ++ s) := by
  refine .scalar w s hk hw hc fun t hne ht => ?_
  cases t with
  | nil => exact absurd rfl hne
  | cons c cs =>
    refine Env.readToken_none _ fun e => hd ?_
    rw [← e]
    exact ht.mem List.mem_cons_self

theorem uncomment_append {b : CodePoint} {w : Text} (h : uncomment b w = w) (y : Text) :
    ∃ b', uncomment b (w ++ y) = w ++ uncomment b' y := by
  induction w generalizing b with
  | nil => exact ⟨b, rfl⟩
  | cons c cs ih =>
    simp only [uncomment] at h
    split at h
    · cases h
    · rename_i hc
      obtain ⟨b', hb⟩ := ih (List.cons.inj h).2
      exact ⟨b', by rw [List.cons_append, uncomment, if_neg hc, hb]; rfl⟩

theorem uncomment_colon (b : CodePoint) (y : Text) : ∃ b', uncomment b (colon ++ y) = colon ++ uncomment b' y := by
  refine uncomment_append ?_ y
  have h1 : CodePoint.ofChar ':' ≠ hash := by decide
  have h2 : CodePoint.ofChar ' ' ≠ hash := by decide
  show uncomment b [CodePoint.ofChar ':', CodePoint.ofChar ' '] = _
  rw [uncomment, if_neg fun h => h1 h.1, uncomment, if_neg fun h => h2 h.1]
  rfl

theorem uncomment_comment (n : Nat) (rest : Text) : uncomment space (List.replicate n space ++ hash :: rest) = List.replicate n space := by
  induction n with
  | zero => exact if_pos ⟨rfl, rfl⟩
  | succ n ih =>
    have hne : ¬ (space = hash ∧ space = space) := by decide
    rw [List.replicate_succ, List.cons_append, uncomment, if_neg hne, ih]

/-- Such a line sets no other key. -/
theorem place_key {scalar : Text → Option (Node A)} {env : Environ} {k l x : Text} (hp : Place k l) (h : resolveEnv env l = .ok x)
    {m : Option (Text × Node A)} (hm : readLine scalar x = some m) : ∀ e ∈ m, e.1 = k := by
  cases hp with
  | comment n rest =>
    have hlit : ∀ t, t ≠ [] → t <:+ List.replicate n space ++ [hash] → envPattern.read (t ++ rest) = none := by
      intro t hne ht
      cases t with
      | nil => exact absurd rfl hne
      | cons c cs =>
        refine Env.readToken_none _ ?_
        have hc := ht.mem List.mem_cons_self
        rcases List.mem_append.mp hc with hc | hc
        · rw [List.eq_of_mem_replicate hc]
          decide
        · rw [List.mem_singleton.mp hc]
          decide
    rw [List.append_cons] at h
    obtain ⟨y, e⟩ := resolve_literal hlit h
    subst e
    rw [List.append_assoc, List.singleton_append] at hm
    unfold readLine at hm
    simp only [uncomment_comment] at hm
    rw [if_pos (by simp [isBlank])] at hm
    cases hm
    intro e he
    cases he
  | scalar w s hk hw hc ht =>
    obtain ⟨y, e⟩ := resolve_literal ht h
    subst e
    obtain ⟨b, h1⟩ := uncomment_append hw (colon ++ y)
    obtain ⟨b', h2⟩ := uncomment_colon b y
    unfold readLine at hm
    simp only [List.append_assoc, h1, h2] at hm
    split at hm
    · cases hm
      intro e he
      cases he
    · split at hm
      · cases hm
      · rw [← List.append_assoc, breakAt_extend hc] at hm
        obtain ⟨v, -, hv⟩ := Option.map_eq_some_iff.mp hm
        subst hv
        intro e he
        cases he
        exact hk

/-! ## Two environments -/

theorem readLines_append {scalar : Text → Option (Node A)} {a b : List Text} {ms : List (Text × Node A)}
    (h : readLines scalar (a ++ b) = some ms) :
    ∃ x y, readLines scalar a = some x ∧ readLines scalar b = some y ∧ ms = x ++ y := by
  induction a generalizing ms with
  | nil => exact ⟨[], ms, rfl, h, rfl⟩
  | cons l ls ih =>
    obtain ⟨m, hm, h⟩ := Option.bind_eq_some_iff.mp h
    obtain ⟨ms', hms, e⟩ := Option.map_eq_some_iff.mp h
    obtain ⟨x, y, hx, hy, e'⟩ := ih hms
    subst e e'
    exact ⟨m.toList ++ x, y, by rw [readLines, hm, Option.bind_some, hx]; rfl, hy, by rw [List.append_assoc]⟩

/-- The members under a key. -/
def under (f : Text) (ms : List (Text × Node A)) : List (Text × Node A) := ms.filter fun m => decide (m.1 = f)

variable {scalar : Text → Option (Node A)} {env env' : Environ} {name k f : Text}

/-- Where no line break is put in, the line has no member under another key. -/
theorem under_place {l x : Text} {ms : List (Text × Node A)} (hf : f ≠ k) (hl : NoBreak l) (hp : Place k l) (hu : Unbroken env l)
    (h : resolveEnv env l = .ok x) (hm : readLines scalar (lines x) = some ms) : under f ms = [] := by
  rw [lines_one (resolved_noBreak hl hu h)] at hm
  obtain ⟨m, hread, h'⟩ := Option.bind_eq_some_iff.mp hm
  cases h'
  show under f (m.toList ++ []) = []
  rw [List.append_nil]
  cases m with
  | none => rfl
  | some e =>
    have hk := place_key hp h hread e rfl
    exact List.filter_cons_of_neg (by rw [hk]; simpa using Ne.symm hf)

/-- The lines of two environments that differ in one variable have the same members under
    every other key. -/
theorem under_lines {ls rs rs' : List Text} {ms ms' : List (Text × Node A)} (henv : ∀ n, n ≠ name → env n = env' n) (hf : f ≠ k)
    (hl : ∀ l ∈ ls, NoBreak l) (hp : ∀ l ∈ ls, name ∈ Env.names l → Place k l ∧ Unbroken env l ∧ Unbroken env' l)
    (h : List.Forall₂ (fun l x => resolveEnv env l = .ok x) ls rs)
    (h' : List.Forall₂ (fun l x => resolveEnv env' l = .ok x) ls rs')
    (hm : readLines scalar (rs.flatMap lines) = some ms) (hm' : readLines scalar (rs'.flatMap lines) = some ms') :
    under f ms = under f ms' := by
  induction h generalizing rs' ms ms' with
  | nil =>
    cases h'
    cases hm
    cases hm'
    rfl
  | @cons l x ls rs hx hxs ih =>
    cases h' with
    | @cons _ x' _ rs' hx' hxs' =>
      obtain ⟨a, b, ha, hb, e⟩ := readLines_append hm
      obtain ⟨a', b', ha', hb', e'⟩ := readLines_append hm'
      have hrest := ih (fun l h => hl l (List.mem_cons_of_mem _ h)) (fun l h => hp l (List.mem_cons_of_mem _ h)) hxs' hb hb'
      have hline : under f a = under f a' := by
        by_cases hn : name ∈ Env.names l
        · obtain ⟨hpl, hu, hu'⟩ := hp l List.mem_cons_self hn
          have hl := hl l List.mem_cons_self
          rw [under_place hf hl hpl hu hx ha, under_place hf hl hpl hu' hx' ha']
        · have hsame := Env.resolveEnv_congr fun n h => henv n fun e => hn (e ▸ h)
          rw [hx, hx'] at hsame
          cases hsame
          cases ha.symm.trans ha'
          rfl
      subst e e'
      unfold under at hrest hline ⊢
      rw [List.filter_append, List.filter_append, hline, hrest]

theorem mapping_of {source : String} {text : Text} {ms : List (Text × Node A)} (h : readLines scalar (lines text) = some ms) :
    mapping (flatLoad scalar) source text = .ok (Keyed.ofList Prod.fst ms) := by
  unfold mapping flatLoad
  rw [h, Option.map_some]
  by_cases he : ms = []
  · rw [if_pos he, he]
    rfl
  · rw [if_neg he]

theorem flat_mapping {source : String} {text : Text} {data : Data A} (h : mapping (flatLoad scalar) source text = .ok data) :
    ∃ ms, readLines scalar (lines text) = some ms ∧ data = Keyed.ofList Prod.fst ms := by
  cases hm : readLines scalar (lines text) with
  | none =>
    rw [mapping, flatLoad, hm] at h
    cases h
  | some ms =>
    rw [mapping_of hm] at h
    cases h
    exact ⟨ms, rfl, rfl⟩

theorem validated_ok {p : Pydantic A C} {source : String} {body : Text} {data : Data A} {d : AgentFile C} :
    validated p source body data = .ok d ↔ p.modelValidate (withPrompt data body) = some d := by
  unfold validated
  cases p.modelValidate (withPrompt data body) with
  | none => exact ⟨fun h => (by cases h), fun h => (by cases h)⟩
  | some d' => exact ⟨fun h => (by cases h; rfl), fun h => (by cases h; rfl)⟩

/-- What a definition is made of. -/
theorem parse_iff {safeLoad : Text → Option (Loaded A)} {p : Pydantic A C} {text : Text} {source : String} {d : AgentFile C} :
    parseAgentMarkdown safeLoad p env text source = .ok d ↔
      ∃ front body r data, split text source = .ok (front, body) ∧ resolveEnv env front = .ok r ∧
        mapping safeLoad source r = .ok data ∧ validatePlaceholders source body = .ok () ∧
        p.modelValidate (withPrompt data body) = some d := by
  constructor
  · intro h
    obtain ⟨⟨front, body⟩, hs, h⟩ := bind_ok.mp h
    obtain ⟨r, hr, h⟩ := bind_ok.mp h
    obtain ⟨data, hd, h⟩ := bind_ok.mp h
    obtain ⟨_, hb, h⟩ := bind_ok.mp h
    exact ⟨front, body, r, data, hs, mapError_ok.mp hr, hd, mapError_ok.mp hb, validated_ok.mp h⟩
  · rintro ⟨front, body, r, data, hs, hr, hd, hb, hv⟩
    have hr' : resolveEnvInYaml env front = .ok r := mapError_ok.mpr hr
    have hb' : (validatePlaceholders source body).mapError LoadError.config = .ok () := mapError_ok.mpr hb
    simp only [parseAgentMarkdown, hs, bind, Except.bind, hr', hd, hb']
    exact validated_ok.mpr hv

/-- A variable that only the line of key `k`, and comment lines, refer to: where no line
    break is put into these lines, the definitions of two environments that differ in it are
    equal in every other field. -/
theorem other_fields_equal {p : Pydantic A C} {text front body : Text} {source : String} {d d' : AgentFile C}
    (hs : split text source = .ok (front, body)) (ho : OneLine front) (henv : ∀ n, n ≠ name → env n = env' n)
    (hp : ∀ l ∈ lines front, name ∈ Env.names l → Place k l ∧ Unbroken env l ∧ Unbroken env' l)
    (h : parseAgentMarkdown (flatLoad scalar) p env text source = .ok d)
    (h' : parseAgentMarkdown (flatLoad scalar) p env' text source = .ok d') (f : Field) (hf : f.name ≠ k) : d.get f = d'.get f := by
  obtain ⟨_, _, r, data, hs1, hr, hd, -, hv⟩ := parse_iff.mp h
  obtain ⟨_, _, r', data', hs2, hr', hd', -, hv'⟩ := parse_iff.mp h'
  cases hs.symm.trans hs1
  cases hs.symm.trans hs2
  obtain ⟨rs, hrs, hl⟩ := resolve_lines front r ho hr
  obtain ⟨rs', hrs', hl'⟩ := resolve_lines front r' ho hr'
  obtain ⟨ms, hms, e⟩ := flat_mapping hd
  obtain ⟨ms', hms', e'⟩ := flat_mapping hd'
  rw [hl] at hms
  rw [hl'] at hms'
  have hunder := under_lines henv hf (noBreak_lines front) hp hrs hrs' hms hms'
  have hget : data.get f.name = data'.get f.name := by
    rw [e, e', Keyed.get_ofList, Keyed.get_ofList]
    exact congrArg List.getLast? hunder
  have hfield := field_congr p body hget
  rw [modelValidate_field hv f, modelValidate_field hv' f] at hfield
  exact Option.some.inj hfield

/-! ## A value with a line break -/

def newline : CodePoint := CodePoint.ofChar '\n'

/-- The name of a field is a plain key. -/
theorem name_plain (f : Field) :
    uncomment space f.name = f.name ∧ breakAt colon (f.name ++ colon) = some (f.name, []) ∧ strip isBlank f.name = f.name ∧
      f.name.all isBlank = false ∧ f.name.head? ≠ some space ∧ f.name.all (!isBreak ·) = true := by
  cases f <;> decide

theorem readLine_member (f : Field) {v : Text} {node : Node A} (hv : ∀ b, uncomment b v = v)
    (hn : scalar (strip isBlank v) = some node) : readLine scalar (f.name ++ colon ++ v) = some (some (f.name, node)) := by
  obtain ⟨hu, hb, hs, ha, hh, -⟩ := name_plain f
  obtain ⟨b, h1⟩ := uncomment_append hu (colon ++ v)
  obtain ⟨b', h2⟩ := uncomment_colon b v
  have hall : (f.name ++ (colon ++ v)).all isBlank = false := by rw [List.all_append, ha]; rfl
  have hhead : (f.name ++ (colon ++ v)).head? ≠ some space := by
    cases hc : f.name with
    | nil => rw [hc] at ha; cases ha
    | cons c cs => rw [hc] at hh; exact hh
  unfold readLine
  simp only [List.append_assoc, h1, h2, hv]
  rw [hall, if_neg (by simp), if_neg hhead, ← List.append_assoc, breakAt_extend hb, Option.bind_some, List.nil_append, hn, hs]
  rfl

theorem readLines_append_some {a b : List Text} {x y : List (Text × Node A)} (ha : readLines scalar a = some x)
    (hb : readLines scalar b = some y) : readLines scalar (a ++ b) = some (x ++ y) := by
  induction a generalizing x with
  | nil => cases ha; exact hb
  | cons l ls ih =>
    obtain ⟨m, hm, ha⟩ := Option.bind_eq_some_iff.mp ha
    obtain ⟨ms, hms, e⟩ := Option.map_eq_some_iff.mp ha
    subst e
    rw [List.cons_append, readLines, hm, Option.bind_some, ih hms, List.append_assoc]
    rfl

/-- A line whose scalar is one token. -/
theorem resolve_token {t : Env.Token} {a value : Text} (ha : ∀ s, s ≠ [] → s <:+ a → envPattern.read (s ++ t.text) = none)
    (ht : envPattern.read t.text = some (t, [])) (hv : env t.name = some value) : resolveEnv env (a ++ t.text) = .ok (a ++ value) := by
  have hval : t.value env = .ok value := by rw [Env.Token.value, hv]
  rw [resolveEnv, Matcher.tryReplaced, Matcher.scan_literal ha, Matcher.tryPieces_literal, Matcher.scan_read ht]
  rw [Matcher.tryPieces, hval]
  show Except.map _ (Except.ok (value ++ [])) = _
  rw [List.append_nil]
  rfl

/-- Where every field has a value, there is a definition. -/
theorem modelValidate_some {p : Pydantic A C} {data : Data A} (h : ∀ f, ∃ v, p.field data f = some v) :
    ∃ d, p.modelValidate data = some d := by
  obtain ⟨_, h1⟩ := h .id
  obtain ⟨_, h2⟩ := h .enabled
  obtain ⟨_, h3⟩ := h .description
  obtain ⟨_, h4⟩ := h .model
  obtain ⟨_, h5⟩ := h .autonomy
  obtain ⟨_, h6⟩ := h .tools
  obtain ⟨_, h7⟩ := h .triggers
  obtain ⟨_, h8⟩ := h .limits
  obtain ⟨_, h9⟩ := h .context
  obtain ⟨_, h10⟩ := h .systemPrompt
  simp only [Pydantic.modelValidate, h1, h2, h3, h4, h5, h6, h7, h8, h9, h10]
  exact ⟨_, rfl⟩

def fields : List Field :=
  [.id, .enabled, .description, .model, .autonomy, .tools, .triggers, .limits, .context, .systemPrompt]

theorem mem_fields (f : Field) : f ∈ fields := by
  cases f <;> simp [fields]

theorem names_nodup : (fields.map Field.name).Nodup := by decide

theorem name_injective {f g : Field} (h : f.name = g.name) : f = g :=
  List.inj_on_of_nodup_map names_nodup (mem_fields f) (mem_fields g) h

/-- No line of these sets the field. -/
theorem under_none {ls xs : List Text} {ms : List (Text × Node A)} (h : List.Forall₂ (fun l x => resolveEnv env l = .ok x) ls xs)
    (hno : ∀ l ∈ ls, ∀ x m, resolveEnv env l = .ok x → readLines scalar (lines x) = some m → under f m = [])
    (hm : readLines scalar (xs.flatMap lines) = some ms) : under f ms = [] := by
  induction h generalizing ms with
  | nil => cases hm; rfl
  | @cons l x ls xs hx hxs ih =>
    obtain ⟨a, b, ha, hb, e⟩ := readLines_append hm
    subst e
    have h1 := hno l List.mem_cons_self x a hx ha
    have h2 := ih (fun l hl => hno l (List.mem_cons_of_mem _ hl)) hb
    unfold under at h1 h2 ⊢
    rw [List.filter_append, h1, h2]
    rfl

theorem forall₂_split {α β : Type} {R : α → β → Prop} {as bs : List α} {a : α} {cs : List β} (h : List.Forall₂ R (as ++ a :: bs) cs) :
    ∃ xs x ys, cs = xs ++ x :: ys ∧ List.Forall₂ R as xs ∧ R a x ∧ List.Forall₂ R bs ys := by
  induction as generalizing cs with
  | nil =>
    cases h with
    | @cons _ x _ ys hx hys => exact ⟨[], x, ys, rfl, .nil, hx, hys⟩
  | cons c as ih =>
    cases h with
    | @cons _ y _ cs' hy h =>
      obtain ⟨xs, x, ys, e, hxs, hx, hys⟩ := ih h
      subst e
      exact ⟨y :: xs, x, ys, rfl, .cons hy hxs, hx, hys⟩

theorem resolved_same {ls xs : List Text} (hsame : ∀ l ∈ ls, resolveEnv env' l = resolveEnv env l)
    (h : List.Forall₂ (fun l x => resolveEnv env l = .ok x) ls xs) : List.Forall₂ (fun l x => resolveEnv env' l = .ok x) ls xs := by
  induction h with
  | nil => exact .nil
  | @cons l x ls xs hx hxs ih =>
    exact .cons ((hsame l List.mem_cons_self).trans hx) (ih fun l hl => hsame l (List.mem_cons_of_mem _ hl))

/-- A member that is added after the first ones sets its field, and no other. -/
theorem field_added {p : Pydantic A C} {body : Text} {a b : List (Text × Node A)} {g : Field} {node : Node A} {value : g.Value C}
    {d : AgentFile C} (hg : g ≠ .systemPrompt) (hb : under g.name b = []) (hval : p.validate g node = some value)
    (hv : p.modelValidate (withPrompt (Keyed.ofList Prod.fst (a ++ b)) body) = some d) :
    ∃ d', p.modelValidate (withPrompt (Keyed.ofList Prod.fst (a ++ (g.name, node) :: b)) body) = some d' ∧
      d'.get g = value := by
  have hname : g.name ≠ Field.systemPrompt.name := fun e => hg (name_injective e)
  have hown : p.field (withPrompt (Keyed.ofList Prod.fst (a ++ (g.name, node) :: b)) body) g = some value := by
    have hget : (Keyed.ofList Prod.fst (a ++ (g.name, node) :: b)).get g.name = some (g.name, node) := by
      rw [Keyed.get_ofList, List.filter_append, List.filter_cons_of_pos (by simp)]
      unfold under at hb
      rw [hb]
      simp
    unfold Pydantic.field
    rw [withPrompt_other _ body hname, hget]
    exact hval
  have hother (f : Field) (hf : f ≠ g) :
      p.field (withPrompt (Keyed.ofList Prod.fst (a ++ (g.name, node) :: b)) body) f = some (d.get f) := by
    rw [← modelValidate_field hv f]
    refine field_congr p body ?_
    have hne : ¬ g.name = f.name := fun e => hf (name_injective e).symm
    rw [Keyed.get_ofList, Keyed.get_ofList, List.filter_append, List.filter_append, List.filter_cons_of_neg (by simpa using hne)]
  obtain ⟨d', hd'⟩ := modelValidate_some (p := p) fun f => by
    by_cases hf : f = g
    · subst hf
      exact ⟨value, hown⟩
    · exact ⟨_, hother f hf⟩
  refine ⟨d', hd', ?_⟩
  have := modelValidate_field hd' g
  rw [hown] at this
  exact (Option.some.inj this).symm

/-- The line that a value adds. -/
theorem injected_line {w u v : Text} {f : Field} {node : Node A} {ms : List (Text × Node A)} (hv : NoBreak v) (hc : ∀ b, uncomment b v = v) (hn : scalar (strip isBlank v) = some node)
    (hm : readLines scalar (lines (w ++ colon ++ u)) = some ms) :
    readLines scalar (lines (w ++ colon ++ (u ++ newline :: (f.name ++ colon ++ v)))) = some (ms ++ [(f.name, node)]) := by
  have hinj : NoBreak (f.name ++ colon ++ v) := by
    intro c h
    rcases List.mem_append.mp h with h | h
    · rcases List.mem_append.mp h with h | h
      · exact noBreak_of (name_plain f).2.2.2.2.2 c h
      · exact noBreak_of (rfl : colon.all (!isBreak ·) = true) c h
    · exact hv c h
  have hl : lines (w ++ colon ++ (u ++ newline :: (f.name ++ colon ++ v))) = lines (w ++ colon ++ u) ++ [f.name ++ colon ++ v] := by
    rw [← List.append_assoc, lines_append _ _ (by decide), lines_one hinj]
  rw [hl]
  refine readLines_append_some hm ?_
  rw [readLines, readLine_member f hc hn]
  rfl

/-- In a file where one line has a token of the variable as its scalar: a field that no later
    line sets can be set to any value that its check takes, by the value of the variable. -/
theorem injected_field {p : Pydantic A C} {text front body w u v : Text} {source : String} {t : Env.Token} {d : AgentFile C}
    {before after : List Text} {f : Field} {node : Node A} {value : f.Value C} (hs : split text source = .ok (front, body))
    (ho : OneLine front) (hl : lines front = before ++ (w ++ colon ++ t.text) :: after)
    (ht : ∀ s, s ≠ [] → s <:+ w ++ colon → envPattern.read (s ++ t.text) = none) (hr : envPattern.read t.text = some (t, []))
    (hno : ∀ l ∈ before ++ after, t.name ∉ Env.names l) (hu : env t.name = some u)
    (h : parseAgentMarkdown (flatLoad scalar) p env text source = .ok d) (hf : f ≠ .systemPrompt)
    (hafter : ∀ l ∈ after, ∀ x m, resolveEnv env l = .ok x → readLines scalar (lines x) = some m → under f.name m = [])
    (hv : NoBreak v) (hc : ∀ b, uncomment b v = v) (hn : scalar (strip isBlank v) = some node) (hval : p.validate f node = some value) :
    ∃ d', parseAgentMarkdown (flatLoad scalar) p (Function.update env t.name (some (u ++ newline :: (f.name ++ colon ++ v)))) text
      source = .ok d' ∧ d'.get f = value := by
  obtain ⟨_, _, r, data, hs1, hres, hd, hb, hmod⟩ := parse_iff.mp h
  cases hs.symm.trans hs1
  obtain ⟨rs, hrs, hlines⟩ := resolve_lines front r ho hres
  obtain ⟨ms, hms, e⟩ := flat_mapping hd
  subst e
  rw [hl] at hrs
  obtain ⟨xs, x, ys, e, hxs, hx, hys⟩ := forall₂_split hrs
  subst e
  have hx' : x = w ++ colon ++ u := Except.ok.inj (hx.symm.trans (resolve_token ht hr hu))
  subst hx'
  -- the members the lines set
  rw [hlines, List.flatMap_append, List.flatMap_cons] at hms
  obtain ⟨a, m, ha, hm, e⟩ := readLines_append hms
  subst e
  obtain ⟨b, c, hb', hc', e⟩ := readLines_append hm
  subst e
  -- the other environment
  have hsame (l : Text) (hl : l ∈ before ++ after) :
      resolveEnv (Function.update env t.name (some (u ++ newline :: (f.name ++ colon ++ v)))) l = resolveEnv env l := by
    refine Env.resolveEnv_congr fun n hn => Function.update_of_ne ?_ _ _
    intro e
    subst e
    exact hno l hl hn
  have hrs' : List.Forall₂ (fun l x => resolveEnv (Function.update env t.name (some (u ++ newline :: (f.name ++ colon ++ v)))) l = .ok x)
      (lines front) (xs ++ (w ++ colon ++ (u ++ newline :: (f.name ++ colon ++ v))) :: ys) := by
    rw [hl]
    refine List.rel_append (resolved_same (fun l h => hsame l (List.mem_append_left _ h)) hxs) (.cons ?_ ?_)
    · exact resolve_token ht hr (Function.update_self ..)
    · exact resolved_same (fun l h => hsame l (List.mem_append_right _ h)) hys
  obtain ⟨r', hres', hlines'⟩ := resolve_of_lines front _ ho hrs'
  have hms' : readLines scalar (lines r') = some (a ++ b ++ (f.name, node) :: c) := by
    have e : a ++ b ++ (f.name, node) :: c = a ++ (b ++ [(f.name, node)] ++ c) := by simp
    rw [hlines', List.flatMap_append, List.flatMap_cons, e]
    exact readLines_append_some ha (readLines_append_some (injected_line hv hc hn hb') hc')
  obtain ⟨d', hd', hget⟩ := field_added hf (under_none hys hafter hc') hval (by rw [List.append_assoc]; exact hmod)
  exact ⟨d', parse_iff.mpr ⟨front, body, r', _, hs, hres', mapping_of hms', hb, hd'⟩, hget⟩

/-! An agent file with `model: ${M}`, read by a loader that knows strings, booleans and
    `null`, and checked as far as these go. -/

def scalarOf (s : Text) : Option (Node Bool) :=
  some (if s = Text.ofString "true" then .other true else if s = Text.ofString "false" then .other false else .str s)

def autonomyOf (s : Text) : Option Autonomy :=
  if s = Text.ofString "proposal" then some .proposal
  else if s = Text.ofString "autonomous" then some .autonomous else none

def checks : Pydantic Bool Unit where
  validate
    | .id, .str s | .description, .str s | .systemPrompt, .str s => some s.toStr
    | .enabled, .other b => some b
    | .model, .str s => some (some s.toStr)
    | .autonomy, .str s => autonomyOf s
    | _, _ => none
  noContext := ()
  report _ := .validation "1 validation error for AgentDefinition"

def demoFront : Text := Text.ofString "id: demo\nmodel: $\x7bM\x7d"

def demoFile : Text := Text.ofString "---\n" ++ demoFront ++ Text.ofString "\n---\nHello.\n"

def only (name : Text) (value : String) : Environ := fun n => if n = name then some (Text.ofString value) else none

def nameM : Text := Text.ofString "M"

def parsed (value : String) : Except LoadError (AgentFile Unit) :=
  parseAgentMarkdown (flatLoad scalarOf) checks (only nameM value) demoFile "'demo.md'"

theorem demo_split : split demoFile "'demo.md'" = .ok (demoFront, Text.ofString "Hello.") := rfl

theorem demo_oneLine : OneLine demoFront := by
  have h : (envPattern.found demoFront).all (fun t => t.default == none) = true := rfl
  intro t ht d hd
  have := List.all_eq_true.mp h t ht
  rw [hd] at this
  cases this

theorem demo_place : ∀ l ∈ lines demoFront, nameM ∈ Env.names l → Place Field.model.name l := by
  have hl : lines demoFront = [Text.ofString "id: demo", Text.ofString "model" ++ colon ++ Text.ofString "$\x7bM\x7d"] := by
    rfl
  intro l h hm
  rw [hl] at h
  rcases List.mem_cons.mp h with h | h
  · subst h
    exact absurd hm (by decide)
  · rw [List.mem_singleton.mp h]
    exact place_plain rfl rfl rfl (by decide)

theorem other_envs {value value' : String} (n : Text) (h : n ≠ nameM) : only nameM value n = only nameM value' n := by
  rw [only, only, if_neg h, if_neg h]

theorem unbroken_only {value : String} (h : (Text.ofString value).all (!isBreak ·) = true) (l : Text) :
    Unbroken (only nameM value) l := by
  intro n _ v hv
  unfold only at hv
  split at hv
  · cases hv
    exact noBreak_of h
  · cases hv

def autonomyIn (value : String) : Option Autonomy := (parsed value).toOption.map (·.autonomy)

theorem parsed_of (value : String) (a : Autonomy) (h : autonomyIn value = some a) : ∃ d, parsed value = .ok d ∧ d.autonomy = a := by
  unfold autonomyIn at h
  cases hp : parsed value with
  | error e => rw [hp] at h; cases h
  | ok d =>
    rw [hp] at h
    exact ⟨d, rfl, Option.some.inj h⟩

theorem other_fields_equal_demo :
    ∃ d d', parsed "llama3:8b" = .ok d ∧ parsed "autonomy:autonomous" = .ok d' ∧
      ∀ f : Field, f.name ≠ Field.model.name → d.get f = d'.get f := by
  obtain ⟨d, h, -⟩ := parsed_of "llama3:8b" .proposal rfl
  obtain ⟨d', h', -⟩ := parsed_of "autonomy:autonomous" .proposal rfl
  refine ⟨d, d', h, h', fun f hf => ?_⟩
  exact other_fields_equal demo_split demo_oneLine other_envs
    (fun l hl hm => ⟨demo_place l hl hm, unbroken_only rfl l, unbroken_only rfl l⟩) h h' f hf

/-- Only the line of `model` refers to the variable, and its value sets `autonomy`. -/
theorem value_sets_autonomy :
    split demoFile "'demo.md'" = .ok (demoFront, Text.ofString "Hello.") ∧ OneLine demoFront ∧
      (∀ l ∈ lines demoFront, nameM ∈ Env.names l → Place Field.model.name l) ∧
      (∀ n, n ≠ nameM → only nameM "llama3:8b" n = only nameM "llama3:8b\nautonomy: autonomous" n) ∧
      ∃ d d', parsed "llama3:8b" = .ok d ∧ parsed "llama3:8b\nautonomy: autonomous" = .ok d' ∧
        Field.autonomy.name ≠ Field.model.name ∧ d.autonomy = .proposal ∧ d'.autonomy = .autonomous := by
  obtain ⟨d, h, ha⟩ := parsed_of "llama3:8b" .proposal rfl
  obtain ⟨d', h', ha'⟩ := parsed_of "llama3:8b\nautonomy: autonomous" .autonomous rfl
  exact ⟨demo_split, demo_oneLine, demo_place, fun n hn => other_envs n hn, d, d', h, h', by decide, ha, ha'⟩

end SagaAgents.Config.Frontmatter
