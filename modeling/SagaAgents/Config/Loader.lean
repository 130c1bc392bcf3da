/-
  SagaAgents.Config.Loader — reading the configuration (`config/loader.py`).

  `load_global_config` reads one YAML file, `load_agent_files` the `*.md` files of a
  directory in the order of their names. A file is its bytes, or the `OSError` of reading
  them. What `yaml.safe_load` answers is a parameter, and so are pydantic's checks of a
  scalar.

  Proved:
  - `loadFrom_ok`: the loop over the files returns their definitions in order, iff all of
    them load and no id comes twice.
  - `reported_iff`: the three loaders raise nothing but a `ConfigError` iff the bytes are
    UTF-8, `safe_load` raises nothing (a `YAMLError` is caught for the global file alone),
    a value that contains itself has an unset variable in front, and each agent file can
    be read. `undecodable_escapes` has files for which they raise something else.
-/

import SagaAgents.Config.Fences
import SagaAgents.Lib.Machine
import SagaAgents.Lib.Raises

namespace SagaAgents.Config.Loader

open Lib
open Env (ConfigError Environ Node resolveEnv resolveTree)
open Frontmatter (AgentFile Data LoadError Loaded Pydantic fence newline parseAgentMarkdown strip)
open Runtime.Guidance (isSpace)

variable {A C : Type}

/-- What a loader raises. -/
inductive Raised where
  | config (e : ConfigError)
  | os (text : String)
  | unicodeDecode
  /-- What `yaml.safe_load` raises. -/
  | yaml
  | recursion
  deriving DecidableEq, Repr

/-! ## Files -/

def carriageReturn : CodePoint := CodePoint.ofChar '\r'

/-- A line may end in `\r\n` or `\r`, too. -/
def universalNewlines : Text → Text
  | [] => []
  | [c] => if c = carriageReturn then [newline] else [c]
  | c :: d :: cs =>
    if c = carriageReturn then if d = newline then newline :: universalNewlines cs else newline :: universalNewlines (d :: cs)
    else c :: universalNewlines (d :: cs)

/-- `read_text(encoding="utf-8")` of a file with some bytes, or with an `OSError`. -/
def readText (content : Except String ByteArray) : Except Raised Text :=
  match content with
  | .error text => .error (.os text)
  | .ok bytes =>
    match String.fromUTF8? bytes with
    | some s => .ok (universalNewlines (Text.ofString s))
    | none => .error .unicodeDecode

/-! ## YAML -/

inductive YamlError where
  | yamlError (text : String)
  | valueError
  deriving DecidableEq, Repr

inductive Yaml (A : Type) where
  | tree (node : Node A)
  /-- A list or mapping that is inside itself, through an alias: the strings that are visited
      before it is entered again, and what an agent file finds in it. -/
  | cyclic (visited : List Text) (found : Loaded A)

/-- `yaml.safe_load`, and `bool` of the scalars that are no strings. -/
structure SafeLoad (A : Type) where
  load : Text → Except YamlError (Yaml A)
  truth : A → Bool

/-- `value or {}`, if that is a mapping. -/
def SafeLoad.found (y : SafeLoad A) : Yaml A → Loaded A
  | .tree (.dict members) => if members = [] then .falsy else .mapping (Keyed.ofList Prod.fst members)
  | .tree (.list items) => if items = [] then .falsy else .notMapping
  | .tree (.str s) => if s = [] then .falsy else .notMapping
  | .tree (.other a) => if y.truth a then .notMapping else .falsy
  | .cyclic _ found => found

def SafeLoad.frontmatter (y : SafeLoad A) (text : Text) : Option (Loaded A) := (y.load text).toOption.map y.found

/-! ## GlobalConfig -/

/-- What pydantic does with the value of a scalar, and the text of a `ValidationError`. -/
structure Scalars (A : Type) where
  str : Node A → Option String
  int : Node A → Option Int
  float : Node A → Option Rat
  report : Node A → String

def members : Node A → Option (Data A)
  | .dict ms => some (Keyed.ofList Prod.fst ms)
  | .list _ | .str _ | .other _ => none

/-- A field: checked where it is given. -/
def field {β : Type} (data : Data A) (name : String) (check : Node A → Option β) (default : Option β) : Option β :=
  match data.get (Text.ofString name) with
  | some m => check m.2
  | none => default

variable (s : Scalars A)

def Scalars.mcpSettings (node : Node A) : Option McpSettings := do
  let data ← members node
  let baseUrl ← field data "base_url" s.str none
  let bearerToken ← field data "bearer_token" s.str none
  some { baseUrl, bearerToken }

def Scalars.ollamaSettings (node : Node A) : Option OllamaSettings := do
  let data ← members node
  let baseUrl ← field data "base_url" s.str none
  let defaultModel ← field data "default_model" s.str none
  some { baseUrl, defaultModel }

def Scalars.redisSettings (node : Node A) : Option RedisSettings := do
  let data ← members node
  let url ← field data "url" s.str none
  let eventChannel ← field data "event_channel" s.str none
  some { url, eventChannel }

def Scalars.langfuseSettings (node : Node A) : Option LangfuseSettings := do
  let data ← members node
  let publicKey ← field data "public_key" s.str (some "")
  let secretKey ← field data "secret_key" s.str (some "")
  let host ← field data "host" s.str (some "https://cloud.langfuse.com")
  some { publicKey, secretKey, host }

def Scalars.runtimeSettings (node : Node A) : Option RuntimeSettings := do
  let data ← members node
  let maxConcurrentRunsGlobal ← field data "max_concurrent_runs_global" s.int (some 2)
  let proposalsDb ← field data "proposals_db" s.str (some "proposals.db")
  let guidanceCacheTtlSeconds ← field data "guidance_cache_ttl_seconds" s.float (some 300)
  some { maxConcurrentRunsGlobal, proposalsDb, guidanceCacheTtlSeconds }

/-- `GlobalConfig.model_validate`. -/
def Scalars.globalConfig (node : Node A) : Option GlobalConfig := do
  let data ← members node
  let mcp ← field data "mcp" s.mcpSettings none
  let ollama ← field data "ollama" s.ollamaSettings none
  let redis ← field data "redis" s.redisSettings none
  let langfuse ← field data "langfuse" s.langfuseSettings (some {})
  let runtime ← field data "runtime" s.runtimeSettings (some {})
  let agentsDir ← field data "agents_dir" s.str (some "config/agents")
  some { mcp, ollama, redis, langfuse, runtime, agentsDir }

/-! ## load_global_config -/

/-- `resolve_tree`; a value that contains itself is never done. -/
def resolveYaml (env : Environ) : Yaml A → Except Raised (Node A)
  | .tree node => (resolveTree env node).mapError .config
  | .cyclic visited _ =>
    match visited.mapM (resolveEnv env) with
    | .error e => .error (.config e)
    | .ok _ => .error .recursion

/-- Behind `read_text`; `path` is `{path!r}`. -/
def parseGlobal (y : SafeLoad A) (env : Environ) (path : String) (text : Text) : Except Raised GlobalConfig :=
  match y.load text with
  | .error (.yamlError text) => .error (.config ("Config file " ++ path ++ " is not valid YAML: " ++ text))
  | .error .valueError => .error .yaml
  | .ok raw =>
    (resolveYaml env raw).bind fun resolved =>
      match s.globalConfig resolved with
      | some config => .ok config
      | none => .error (.config ("Config file " ++ path ++ " is schema-invalid: " ++ s.report resolved))

def loadGlobalConfig (y : SafeLoad A) (env : Environ) (path : String) (content : Except String ByteArray) :
    Except Raised GlobalConfig :=
  match readText content with
  | .error (.os text) => .error (.config ("Cannot read config file " ++ path ++ ": " ++ text))
  | .error e => .error e
  | .ok text => parseGlobal s y env path text

/-! ## load_agent_files -/

structure File where
  name : Text
  content : Except String ByteArray

/-- The entries of a directory. -/
abbrev Directory := Keyed File.name

def suffix : Text := Text.ofString ".md"

/-- `sorted(base.glob("*.md"))`. -/
def mdFiles (dir : Directory) : List File :=
  (dir.rows.filter fun f => decide (suffix <:+ f.name)).mergeSort fun f g => decide (f.name ≤ g.name)

def LoadError.raised : LoadError → Raised
  | .config e => .config e
  | .yaml => .yaml

variable (y : SafeLoad A) (p : Pydantic A C) (env : Environ) (repr : Text → String)

def parseAgent (text : Text) (source : String) : Except Raised (AgentFile C) :=
  (parseAgentMarkdown y.frontmatter p env text source).mapError LoadError.raised

def loadFile (f : File) : Except Raised (AgentFile C) := (readText f.content).bind fun text => parseAgent y p env text (repr f.name)

/-- The file in which each id was seen. -/
abbrev SeenIds := Keyed (Prod.fst : String × Text → String)

def duplicate (agentId : String) (f : File) (other : Text) : ConfigError :=
  "Duplicate agent id " ++ repr (Text.ofString agentId) ++ " found in " ++ repr f.name ++ " (already defined in " ++ repr other ++ ")."

/-- The loop over the files. -/
def loadFrom (agents : List (AgentFile C)) (seenIds : SeenIds) : List File → Except Raised (List (AgentFile C))
  | [] => .ok agents
  | f :: fs =>
    match loadFile y p env repr f with
    | .error e => .error e
    | .ok agent =>
      match seenIds.get agent.id with
      | some seen => .error (.config (duplicate repr agent.id f seen.2))
      | none => loadFrom (agents ++ [agent]) (seenIds.set (agent.id, f.name)) fs

def loadAgentFiles (dir : Directory) : Except Raised (List (AgentFile C)) := loadFrom y p env repr [] (Keyed.empty _) (mdFiles dir)

/-! ## The loop -/

variable {s y p env repr}

/-- The files load, one definition each, in their order. -/
def Load (y : SafeLoad A) (p : Pydantic A C) (env : Environ) (repr : Text → String) (fs : List File) (ds : List (AgentFile C)) : Prop :=
  List.Forall₂ (fun f d => loadFile y p env repr f = .ok d) fs ds

variable {agents : List (AgentFile C)} {seenIds : SeenIds}

/-- The ids that were seen are those of the definitions so far. -/
def Tracks (seenIds : SeenIds) (agents : List (AgentFile C)) : Prop := seenIds.rows.map Prod.fst = agents.map (·.id)

theorem Tracks.add (h : Tracks seenIds agents) {agent : AgentFile C} (f : File) (hnew : seenIds.get agent.id = none) :
    Tracks (seenIds.set (agent.id, f.name)) (agents ++ [agent]) := by
  have hkey : (agent.id, f.name).1 ∉ seenIds.rows.map Prod.fst := Keyed.get_none.mp hnew
  rw [Tracks, Keyed.set_fresh hkey, List.map_append, List.map_append, h]
  rfl

/-- An id that was seen is the id of two definitions. -/
theorem Tracks.twice (h : Tracks seenIds agents) {agent : AgentFile C} {seen : String × Text} (hs : seenIds.get agent.id = some seen)
    (ds : List (AgentFile C)) : ¬ ((agents ++ agent :: ds).map (·.id)).Nodup := by
  intro hnodup
  obtain ⟨hmem, he⟩ := Keyed.get_some hs
  have hin : agent.id ∈ agents.map (·.id) := by
    rw [← h, ← he]
    exact List.mem_map_of_mem hmem
  rw [List.map_append, List.nodup_append] at hnodup
  exact hnodup.2.2 _ hin _ List.mem_cons_self rfl

/-- One file of the loop: it does not load, its id was seen, or the loop goes on behind it. -/
theorem loadFrom_step (h : Tracks seenIds agents) (f : File) (fs : List File) :
    (∃ e, loadFile y p env repr f = .error e ∧ loadFrom y p env repr agents seenIds (f :: fs) = .error e) ∨
      (∃ agent text, loadFile y p env repr f = .ok agent ∧ (∀ ds, ¬ ((agents ++ agent :: ds).map (·.id)).Nodup) ∧
        loadFrom y p env repr agents seenIds (f :: fs) = .error (.config text)) ∨
      ∃ agent seenIds', loadFile y p env repr f = .ok agent ∧ Tracks seenIds' (agents ++ [agent]) ∧
        loadFrom y p env repr agents seenIds (f :: fs) = loadFrom y p env repr (agents ++ [agent]) seenIds' fs := by
  rw [loadFrom]
  cases hf : loadFile y p env repr f with
  | error e => exact .inl ⟨e, rfl, rfl⟩
  | ok agent =>
    simp only
    cases hs : seenIds.get agent.id with
    | some seen => exact .inr (.inl ⟨agent, _, rfl, h.twice hs, rfl⟩)
    | none => exact .inr (.inr ⟨agent, _, rfl, h.add f hs, rfl⟩)

/-- The loop returns one definition for each file iff all load and no id comes twice. -/
theorem loadFrom_ok (h : Tracks seenIds agents) {fs : List File} {r : List (AgentFile C)} :
    loadFrom y p env repr agents seenIds fs = .ok r ↔
      ∃ ds, Load y p env repr fs ds ∧ ((agents ++ ds).map (·.id)).Nodup ∧ r = agents ++ ds := by
  induction fs generalizing agents seenIds with
  | nil =>
    constructor
    · intro hr
      cases hr
      refine ⟨[], .nil, ?_, (List.append_nil _).symm⟩
      rw [List.append_nil, ← h]
      exact seenIds.nodup
    · rintro ⟨ds, hds, -, e⟩
      cases hds
      subst e
      rw [List.append_nil]
      rfl
  | cons f fs ih =>
    rcases loadFrom_step (y := y) (p := p) h f fs with ⟨e, hf, hr⟩ | ⟨agent, text, hf, htwice, hr⟩ | ⟨agent, seenIds', hf, hnext, hr⟩
    · rw [hr]
      refine ⟨fun h => (by cases h), ?_⟩
      rintro ⟨ds, hds, -⟩
      cases hds with
      | cons hd _ => cases hf.symm.trans hd
    · rw [hr]
      refine ⟨fun h => (by cases h), ?_⟩
      rintro ⟨ds, hds, hnodup, -⟩
      cases hds with
      | cons hd hds =>
        cases hf.symm.trans hd
        exact absurd hnodup (htwice _)
    · rw [hr, ih hnext]
      constructor
      · rintro ⟨ds, hds, hnodup, e⟩
        rw [List.append_assoc] at hnodup e
        exact ⟨agent :: ds, .cons hf hds, hnodup, e⟩
      · rintro ⟨ds, hds, hnodup, e⟩
        cases hds with
        | cons hd hds =>
          cases hf.symm.trans hd
          rw [List.append_cons] at hnodup e
          exact ⟨_, hds, hnodup, e⟩

/-! ## What is raised -/

def Reported (e : Raised) : Prop := ∃ text, e = .config text

/-- The loop raises what the first file raises that does not load. -/
theorem loadFrom_raises (h : Tracks seenIds agents) {fs : List File} :
    Raises Reported (loadFrom y p env repr agents seenIds fs) ↔
      ∀ before f after, fs = before ++ f :: after → ∀ ds, Load y p env repr before ds → ((agents ++ ds).map (·.id)).Nodup →
        Raises Reported (loadFile y p env repr f) := by
  induction fs generalizing agents seenIds with
  | nil => exact ⟨fun _ => forall_split_nil, fun _ => raises_ok _⟩
  | cons f fs ih =>
    rw [forall_split_cons]
    rcases loadFrom_step (y := y) (p := p) h f fs with ⟨e, hf, hr⟩ | ⟨agent, text, hf, htwice, hr⟩ | ⟨agent, seenIds', hf, hnext, hr⟩
    · rw [hr, hf, raises_error, raises_error]
      constructor
      · intro hrep
        refine ⟨fun _ _ _ => hrep, fun before g after _ ds hds _ => ?_⟩
        cases hds with
        | cons hd _ => cases hf.symm.trans hd
      · rintro ⟨hfirst, -⟩
        refine hfirst [] .nil ?_
        rw [List.append_nil, ← h]
        exact seenIds.nodup
    · rw [hr, hf]
      refine ⟨fun _ => ⟨fun _ _ _ => raises_ok agent, fun before g after _ ds hds hnodup => ?_⟩, fun _ => raises_error.mpr ⟨text, rfl⟩⟩
      cases hds with
      | cons hd _ =>
        cases hf.symm.trans hd
        exact absurd hnodup (htwice _)
    · rw [hr, hf, ih hnext]
      constructor
      · intro hrest
        refine ⟨fun _ _ _ => raises_ok agent, fun before g after e ds hds hnodup => ?_⟩
        cases hds with
        | cons hd hds =>
          cases hf.symm.trans hd
          rw [List.append_cons] at hnodup
          exact hrest before g after e _ hds hnodup
      · rintro ⟨-, hrest⟩ before g after e ds hds hnodup
        rw [List.append_assoc] at hnodup
        exact hrest before g after e (agent :: ds) (.cons hf hds) hnodup

/-- A file with an `OSError` raises it, and one whose bytes are not UTF-8 an `UnicodeDecodeError`. -/
theorem readText_cases (content : Except String ByteArray) :
    (∃ text, content = .error text ∧ readText content = .error (.os text)) ∨
      (∃ bytes, content = .ok bytes ∧ ¬ bytes.IsValidUTF8 ∧ readText content = .error .unicodeDecode) ∨
      ∃ bytes text, content = .ok bytes ∧ bytes.IsValidUTF8 ∧ readText content = .ok text := by
  cases content with
  | error text => exact .inl ⟨text, rfl, rfl⟩
  | ok bytes =>
    by_cases h : bytes.IsValidUTF8
    · refine .inr (.inr ⟨bytes, universalNewlines (Text.ofString (String.fromUTF8 bytes h)), rfl, h, ?_⟩)
      rw [readText, String.fromUTF8?, dif_pos h]
    · refine .inr (.inl ⟨bytes, rfl, h, ?_⟩)
      rw [readText, String.fromUTF8?, dif_neg h]

/-- The text has this frontmatter, and a body that is not blank. -/
def HasFront (text front : Text) : Prop :=
  ∃ rest body, text = fence ++ rest ∧ breakAt (newline :: fence) rest = some (front, body) ∧ strip isSpace body ≠ []

/-- `safe_load` raises nothing for the frontmatter. -/
def FrontLoads (y : SafeLoad A) (env : Environ) (text : Text) : Prop :=
  ∀ front r, HasFront text front → resolveEnv env front = .ok r → ∃ v, y.load r = .ok v

/-- The file can be read, its bytes are UTF-8, and `safe_load` raises nothing for its
    frontmatter. -/
def FileLoads (y : SafeLoad A) (env : Environ) (f : File) : Prop :=
  ∃ bytes, f.content = .ok bytes ∧ bytes.IsValidUTF8 ∧ ∀ text, readText f.content = .ok text → FrontLoads y env text

/-- `safe_load` raises nothing but a `YAMLError`, and a value that contains itself has a
    string with an unset variable in front. -/
def YamlLoads (y : SafeLoad A) (env : Environ) (text : Text) : Prop :=
  y.load text ≠ .error .valueError ∧
    ∀ visited found, y.load text = .ok (.cyclic visited found) → ∃ t ∈ visited, ∃ e, resolveEnv env t = .error e

/-- The bytes of the global file are UTF-8, if it can be read, and its text is as above. -/
def GlobalLoads (y : SafeLoad A) (env : Environ) (content : Except String ByteArray) : Prop :=
  ∀ bytes, content = .ok bytes → bytes.IsValidUTF8 ∧ ∀ text, readText content = .ok text → YamlLoads y env text

theorem frontmatter_some {text : Text} : y.frontmatter text ≠ none ↔ ∃ v, y.load text = .ok v := by
  unfold SafeLoad.frontmatter
  cases y.load text with
  | error e => exact ⟨fun h => absurd rfl h, fun ⟨_, h⟩ => (by cases h)⟩
  | ok v => exact ⟨fun _ => ⟨v, rfl⟩, fun _ h => (by cases h)⟩

theorem split_raises (text : Text) (source : String) : Raises (· ≠ .yaml) (Frontmatter.split text source) := by
  unfold Frontmatter.split
  split
  · exact raises_error.mpr fun h => (by cases h)
  · split
    · exact raises_error.mpr fun h => (by cases h)
    · split
      · exact raises_error.mpr fun h => (by cases h)
      · exact raises_ok _

theorem mapping_raises {safeLoad : Text → Option (Loaded A)} {source : String} {r : Text} :
    Raises (· ≠ .yaml) (Frontmatter.mapping safeLoad source r) ↔ safeLoad r ≠ none := by
  unfold Frontmatter.mapping
  cases safeLoad r with
  | none => exact ⟨fun h => absurd rfl (h .yaml rfl), fun h => absurd rfl h⟩
  | some l =>
    refine ⟨fun _ h => (by cases h), fun _ => ?_⟩
    cases l with
    | mapping data => exact raises_ok data
    | falsy => exact raises_ok _
    | notMapping => exact raises_error.mpr fun h => (by cases h)

theorem validated_raises (source : String) (body : Text) (data : Data A) :
    Raises (· ≠ .yaml) (Frontmatter.validated p source body data) := by
  unfold Frontmatter.validated
  split
  · exact raises_ok _
  · cases p.report (Frontmatter.withPrompt data body) <;> exact raises_error.mpr fun h => (by cases h)

/-- A `ConfigError` that is passed on. -/
theorem config_raises {β : Type} (x : Except ConfigError β) : Raises (· ≠ .yaml) (x.mapError LoadError.config) :=
  raises_mapError.mpr fun _ _ h => (by cases h)

/-- `parse_agent_markdown` raises what `safe_load` raises, and else nothing but a `ConfigError`. -/
theorem parse_raises {text : Text} {source : String} : Raises Reported (parseAgent y p env text source) ↔ FrontLoads y env text := by
  have hraised : ∀ e, Reported (LoadError.raised e) ↔ e ≠ .yaml := by
    intro e
    cases e with
    | config e => exact ⟨fun _ h => (by cases h), fun _ => ⟨e, rfl⟩⟩
    | yaml => exact ⟨fun ⟨_, h⟩ => (by cases h), fun h => absurd rfl h⟩
  have hsteps : parseAgentMarkdown y.frontmatter p env text source = (Frontmatter.split text source).bind fun x =>
      (Frontmatter.resolveEnvInYaml env x.1).bind fun r => (Frontmatter.mapping y.frontmatter source r).bind fun data =>
        ((Runtime.Guidance.validatePlaceholders source x.2).mapError LoadError.config).bind fun _ =>
          Frontmatter.validated p source x.2 data := rfl
  rw [parseAgent, raises_mapError]
  simp only [hraised]
  rw [hsteps, raises_bind]
  constructor
  · rintro ⟨-, h⟩ front r ⟨rest, body, e, hbreak, hne⟩ hr
    have hsplit : Frontmatter.split text source = .ok (front, strip isSpace body) :=
      Frontmatter.split_ok.mpr ⟨rest, body, e, hbreak, hne, rfl⟩
    obtain ⟨-, h⟩ := raises_bind.mp (h _ hsplit)
    exact frontmatter_some.mp (mapping_raises.mp (raises_bind.mp (h r (mapError_ok.mpr hr))).1)
  · intro h
    refine ⟨split_raises text source, fun ⟨front, body⟩ hsplit => ?_⟩
    obtain ⟨rest, v, e, hbreak, hne, -⟩ := Frontmatter.split_ok.mp hsplit
    refine raises_bind.mpr ⟨config_raises _, fun r hr => ?_⟩
    have hload := h front r ⟨rest, v, e, hbreak, hne⟩ (mapError_ok.mp hr)
    refine raises_bind.mpr ⟨mapping_raises.mpr (frontmatter_some.mpr hload), fun data _ => ?_⟩
    exact raises_bind.mpr ⟨config_raises _, fun _ _ => validated_raises source body data⟩

theorem file_raises {f : File} : Raises Reported (loadFile y p env repr f) ↔ FileLoads y env f := by
  rw [loadFile, raises_bind]
  rcases readText_cases f.content with ⟨text, hc, hr⟩ | ⟨bytes, hc, hno, hr⟩ | ⟨bytes, text, hc, hyes, hr⟩
  · rw [hr, raises_error]
    refine ⟨fun ⟨⟨_, h⟩, _⟩ => (by cases h), ?_⟩
    rintro ⟨bytes, hb, -⟩
    cases hc.symm.trans hb
  · rw [hr, raises_error]
    refine ⟨fun ⟨⟨_, h⟩, _⟩ => (by cases h), ?_⟩
    rintro ⟨bytes', hb, hyes, -⟩
    cases hc.symm.trans hb
    exact absurd hyes hno
  · constructor
    · rintro ⟨-, h⟩
      exact ⟨bytes, hc, hyes, fun text' ht => parse_raises.mp (h text' ht)⟩
    · rintro ⟨-, -, -, h⟩
      rw [hr]
      refine ⟨raises_ok text, fun text' ht => ?_⟩
      cases ht
      exact parse_raises.mpr (h text hr)

theorem mapM_error {x : Text → Except ConfigError Text} {ts : List Text} :
    (∃ e, ts.mapM x = .error e) ↔ ∃ t ∈ ts, ∃ e, x t = .error e := by
  induction ts with
  | nil => exact ⟨fun ⟨_, h⟩ => (by cases h), fun ⟨_, h, _⟩ => (by cases h)⟩
  | cons t ts ih =>
    rw [List.mapM_cons]
    cases ht : x t with
    | error e => exact ⟨fun _ => ⟨t, List.mem_cons_self, e, ht⟩, fun _ => ⟨e, rfl⟩⟩
    | ok r =>
      constructor
      · rintro ⟨e, h⟩
        cases hts : ts.mapM x with
        | error e' =>
          obtain ⟨t', hmem, he⟩ := ih.mp ⟨e', hts⟩
          exact ⟨t', List.mem_cons_of_mem _ hmem, he⟩
        | ok rs =>
          rw [hts] at h
          cases h
      · rintro ⟨t', hmem, e, he⟩
        rcases List.mem_cons.mp hmem with h | h
        · subst h
          cases ht.symm.trans he
        · obtain ⟨e', h⟩ := ih.mpr ⟨t', h, e, he⟩
          exact ⟨e', by rw [h]; rfl⟩

theorem yaml_raises {v : Yaml A} : Raises Reported (resolveYaml env v) ↔
    ∀ visited found, v = .cyclic visited found → ∃ t ∈ visited, ∃ e, resolveEnv env t = .error e := by
  cases v with
  | tree node => exact ⟨fun _ _ _ h => (by cases h), fun _ => raises_mapError.mpr fun e _ => ⟨e, rfl⟩⟩
  | cyclic visited found =>
    rw [resolveYaml]
    cases h : visited.mapM (resolveEnv env) with
    | error e => exact ⟨fun _ _ _ hv => by cases hv; exact mapM_error.mp ⟨e, h⟩, fun _ => raises_error.mpr ⟨e, rfl⟩⟩
    | ok rs =>
      constructor
      · intro hr
        obtain ⟨_, he⟩ := raises_error.mp hr
        cases he
      · intro hv
        obtain ⟨e, he⟩ := mapM_error.mpr (hv visited found rfl)
        cases h.symm.trans he

theorem parseGlobal_raises {path : String} {text : Text} : Raises Reported (parseGlobal s y env path text) ↔ YamlLoads y env text := by
  unfold parseGlobal YamlLoads
  cases y.load text with
  | error e =>
    cases e with
    | yamlError text => exact ⟨fun _ => ⟨fun h => (by cases h), fun _ _ h => (by cases h)⟩, fun _ => raises_error.mpr ⟨_, rfl⟩⟩
    | valueError =>
      constructor
      · intro h
        obtain ⟨_, he⟩ := raises_error.mp h
        cases he
      · intro h
        exact absurd rfl h.1
  | ok v =>
    simp only [Except.ok.injEq]
    rw [raises_bind, yaml_raises]
    refine ⟨fun h => ⟨fun he => (by cases he), h.1⟩, fun h => ⟨h.2, fun resolved _ => ?_⟩⟩
    split
    · exact raises_ok _
    · exact raises_error.mpr ⟨_, rfl⟩

theorem global_raises {path : String} {content : Except String ByteArray} :
    Raises Reported (loadGlobalConfig s y env path content) ↔ GlobalLoads y env content := by
  unfold loadGlobalConfig GlobalLoads
  rcases readText_cases content with ⟨text, hc, hr⟩ | ⟨bytes, hc, hno, hr⟩ | ⟨bytes, text, hc, hyes, hr⟩
  · rw [hr]
    refine ⟨fun _ bytes hb => ?_, fun _ => raises_error.mpr ⟨_, rfl⟩⟩
    cases hc.symm.trans hb
  · rw [hr]
    constructor
    · intro h
      obtain ⟨_, he⟩ := raises_error.mp h
      cases he
    · intro h
      exact absurd (h bytes hc).1 hno
  · rw [hr]
    simp only
    rw [parseGlobal_raises]
    constructor
    · intro h bytes' hb
      cases hc.symm.trans hb
      refine ⟨hyes, fun text' ht => ?_⟩
      cases ht
      exact h
    · intro h
      exact (h bytes hc).2 text rfl

variable (s y p env repr) in
/-- The loaders raise nothing but `ConfigError`s iff what they read loads: of the agent
    files, each one behind files that all load and have ids of their own. -/
theorem reported_iff :
    (∀ path content, Raises Reported (loadGlobalConfig s y env path content) ↔ GlobalLoads y env content) ∧
      (∀ text source, Raises Reported (parseAgent y p env text source) ↔ FrontLoads y env text) ∧
      ∀ dir, Raises Reported (loadAgentFiles y p env repr dir) ↔
        ∀ before f after, mdFiles dir = before ++ f :: after → ∀ ds, Load y p env repr before ds → (ds.map (·.id)).Nodup →
          FileLoads y env f := by
  refine ⟨fun _ _ => global_raises, fun _ _ => parse_raises, fun dir => ?_⟩
  have hempty : Tracks (Keyed.empty _) ([] : List (AgentFile C)) := rfl
  rw [loadAgentFiles, loadFrom_raises hempty]
  simp only [file_raises, List.nil_append]

/-! A loader that raises at a flow sequence that is not closed, and at a day that is none. -/

def demoLoad : SafeLoad Bool where
  load text :=
    if text = Text.ofString "id: [" then .error (.yamlError "while parsing a flow node")
    else if text = Text.ofString "id: 2024-02-30" then .error .valueError
    else .ok (.tree (.dict [(Text.ofString "id", .str (Text.ofString "demo"))]))
  truth b := b

def textScalars : Scalars Bool where
  str
    | .str s => some s.toStr
    | _ => none
  int _ := none
  float _ := none
  report _ := "3 validation errors for GlobalConfig"

def demoDirectory (content : Except String ByteArray) : Directory := Keyed.ofList File.name [⟨Text.ofString "demo.md", content⟩]

theorem demoDirectory_files (content : Except String ByteArray) :
    mdFiles (demoDirectory content) = [⟨Text.ofString "demo.md", content⟩] := by
  have hrows : (demoDirectory content).rows.filter (fun f => decide (suffix <:+ f.name)) = [⟨Text.ofString "demo.md", content⟩] := rfl
  rw [mdFiles, hrows, List.mergeSort_singleton]

/-- Bytes that are no UTF-8, in the global file and in an agent file; a day that is none in
    the global file; a frontmatter that is no YAML; and an agent file that cannot be read. -/
theorem undecodable_escapes :
    loadGlobalConfig textScalars demoLoad (fun _ => none) "'agents.yaml'" (.ok ⟨#[0xff]⟩) = .error .unicodeDecode ∧
      loadGlobalConfig textScalars demoLoad (fun _ => none) "'agents.yaml'" (.ok "id: 2024-02-30".toUTF8) = .error .yaml ∧
      parseAgent demoLoad Frontmatter.checks (fun _ => none) (Text.ofString "---\nid: [\n---\nHello.") "'demo.md'" = .error .yaml ∧
      loadAgentFiles demoLoad Frontmatter.checks (fun _ => none) (fun _ => "'demo.md'") (demoDirectory (.ok ⟨#[0xff]⟩)) =
        .error .unicodeDecode ∧
      loadAgentFiles demoLoad Frontmatter.checks (fun _ => none) (fun _ => "'demo.md'") (demoDirectory (.error "Permission denied")) =
        .error (.os "Permission denied") ∧
      ¬ Reported .unicodeDecode ∧ ¬ Reported .yaml ∧ ∀ text, ¬ Reported (.os text) := by
  refine ⟨rfl, rfl, rfl, ?_, ?_, ?_, ?_, ?_⟩
  · rw [loadAgentFiles, demoDirectory_files]
    rfl
  · rw [loadAgentFiles, demoDirectory_files]
    rfl
  · rintro ⟨_, h⟩
    cases h
  · rintro ⟨_, h⟩
    cases h
  · rintro _ ⟨_, h⟩
    cases h

end SagaAgents.Config.Loader
