/-
  SagaAgents.Wiring — from a directory of agent files to the service that runs them
  (`load_agent_files`, then `build_service`).

  The executor, the listener and the API make tables of their own from the definitions they
  are given: the executor a semaphore for each id (`_agent_sems`), the listener a debouncer
  for each event trigger, the API the ids it knows.

  Proved, for every directory:
  - `mdFiles_sorted`: the files are taken in the order of their names.
  - `turned_away`: over every run, a submit for an id without a definition is skipped.
  - `loaded_wired`: loading succeeds iff each file parses and no id comes twice; the
    definitions are then one for each file, and a service built from them has exactly the
    enabled ones in each of its tables.
-/

import SagaAgents.Config.Loader
import SagaAgents.Sources
import SagaAgents.Triggers.Permits

namespace SagaAgents.Wiring

open Lib
open App (Deps Service buildService definitionsById)
open Config (AgentDefinition Definitions GlobalConfig)
open Config.Frontmatter (AgentFile Pydantic)
open Config.Loader (Directory File Load SafeLoad loadAgentFiles loadFile mdFiles)
open Triggers
open Triggers.Api (verifyToken)
open Triggers.Executor (Moves Pc RunExecutor RunRequest Sub)
open Triggers.RedisListener (TriggerState)

variable {A Args Val Out C Cron T : Type}

/-! ## Files in order -/

section

variable (dir : Directory)

theorem mdFiles_perm : (mdFiles dir).Perm (dir.rows.filter fun f => decide (Config.Loader.suffix <:+ f.name)) :=
  List.mergeSort_perm _ _

theorem mdFiles_names : ((mdFiles dir).map File.name).Nodup := by
  rw [((mdFiles_perm dir).map File.name).nodup_iff]
  exact dir.nodup.sublist (List.filter_sublist.map _)

/-- Each file comes behind those with a smaller name. -/
theorem mdFiles_sorted : (mdFiles dir).Pairwise fun f g => f.name < g.name := by
  have hle : (mdFiles dir).Pairwise fun f g => decide (f.name ≤ g.name) = true := by
    apply List.pairwise_mergeSort
    · intro f g h hfg hgh
      rw [decide_eq_true_eq] at *
      exact le_trans hfg hgh
    · intro f g
      rw [Bool.or_eq_true, decide_eq_true_eq, decide_eq_true_eq]
      exact le_total _ _
  have hne : (mdFiles dir).Pairwise fun f g => f.name ≠ g.name := List.pairwise_map.mp (mdFiles_names dir)
  apply (hle.and hne).imp
  rintro f g ⟨h, hne⟩
  exact lt_of_le_of_ne (of_decide_eq_true h) hne

end

/-! ## Submits that are turned away -/

section

variable {x : RunExecutor} {u v : Sub} {e : Executor.Ev}

theorem moves_req (h : Moves x u e v) : v.req = u.req := by
  cases h <;> rfl

theorem moves_live (h : Moves x u e v) (e' : Executor.Ending) : u.pc ≠ .ended e' := by
  intro hu
  cases h with
  | cancelled hp =>
    rcases hp with hp | hp | hp | ⟨_, hp⟩ <;> (rw [hu] at hp; cases hp)
  | unlocked _ hp =>
    rw [hu] at hp
    cases hp
  | _ hp =>
    rw [hu] at hp
    cases hp

/-- A submit for an id without an enabled definition never enters `runner.run`. -/
theorem turned_away {ok : Executor.St → Executor.Ev → Prop} {s : Executor.St} (h : Run (Executor.step x) ok (Executor.init x) s) :
    ∀ u ∈ s.subs, (x.runnable u.req).isSome = true ∨ u.pc = .ended .skipped ∧ u.entered = false := by
  refine Executor.subs_run (P := fun u => (x.runnable u.req).isSome = true ∨ u.pc = .ended .skipped ∧ u.entered = false)
    (fun _ req v _ hm => ?_) (fun _ e u v _ hu hm => ?_) h
  · cases hm with
    | skip _ _ => exact Or.inr ⟨rfl, rfl⟩
    | queueGlobal _ hd => exact Or.inl hd
    | queueAgent _ hd => exact Or.inl (hd rfl)
    | lock _ hd _ => exact Or.inl (hd rfl)
    | start _ hd _ => exact Or.inl (hd rfl)
  · rcases hu with hu | ⟨hp, -⟩
    · rw [moves_req hm]
      exact Or.inl hu
    · exact absurd hp (moves_live hm .skipped)

end

/-! ## The tables -/

/-- `_agent_sems`. -/
def agentSems (definitions : Definitions) : Keyed (Prod.fst : String × Semaphore Nat → String) :=
  Keyed.ofList Prod.fst (definitions.rows.map fun d => (d.id, Semaphore.init d.limits.maxConcurrentRuns.toNat))

theorem agentSems_rows (definitions : Definitions) :
    (agentSems definitions).rows = definitions.rows.map fun d => (d.id, Semaphore.init d.limits.maxConcurrentRuns.toNat) := by
  apply Keyed.ofList_rows
  rw [List.map_map]
  exact definitions.nodup

/-- The semaphore that `submit` takes is the table's. -/
theorem init_agentSems (x : RunExecutor) {id : String} {e : String × Semaphore Nat} (h : (agentSems x.definitions).get id = some e) :
    (Executor.init x).agentSems id = e.2 := by
  obtain ⟨hmem, hid⟩ := Keyed.get_some h
  rw [agentSems_rows] at hmem
  obtain ⟨d, hd, he⟩ := List.mem_map.mp hmem
  subst he hid
  show Semaphore.init (x.permits d.id) = _
  rw [RunExecutor.permits, Keyed.get_of_mem hd]
  rfl

theorem agentSems_get {definitions : Definitions} {d : AgentDefinition} (h : d ∈ definitions.rows) :
    (agentSems definitions).get d.id = some (d.id, Semaphore.init d.limits.maxConcurrentRuns.toNat) := by
  have hmem : (d.id, Semaphore.init d.limits.maxConcurrentRuns.toNat) ∈ (agentSems definitions).rows := by
    rw [agentSems_rows]
    exact List.mem_map_of_mem h
  exact Keyed.get_of_mem hmem

/-- The agents that `GET /stats` lists. -/
def statsAgents (definitions : Definitions) : List (String × Bool) := definitions.rows.map fun d => (d.id, d.enabled)

def enabled (definitions : List AgentDefinition) : List AgentDefinition := definitions.filter (·.enabled)

/-- A submit that is not turned away has its definition, and finds its semaphore. -/
structure Found (definitions : List AgentDefinition) (x : RunExecutor) (req : RunRequest) (d : AgentDefinition) : Prop where
  mem : d ∈ enabled definitions
  id : d.id = req.agentId
  definition : x.runnable req = some d
  semaphore : (agentSems x.definitions).get req.agentId = some (d.id, Semaphore.init d.limits.maxConcurrentRuns.toNat)

section

variable [CommRing T] [LinearOrder T]

/-- The service has the enabled definitions of a list, each in every table once. -/
structure Wired (env : Deps Args Val Out Cron) (definitions : List AgentDefinition) (svc : Service Args Val Out Cron T) : Prop where
  executor : svc.executor.definitions.rows = enabled definitions
  semaphores : (agentSems svc.executor.definitions).rows =
    (enabled definitions).map fun d => (d.id, Semaphore.init d.limits.maxConcurrentRuns.toNat)
  limits : ∀ d ∈ enabled definitions, 0 ≤ d.limits.maxConcurrentRuns
  initial : ∀ d ∈ enabled definitions,
    (Executor.init svc.executor).agentSems d.id = Semaphore.init d.limits.maxConcurrentRuns.toNat
  submits : ∀ s, Run (Executor.step svc.executor) (fun _ _ => True) (Executor.init svc.executor) s →
    ∀ u ∈ s.subs, u.pc = .ended .skipped ∧ u.entered = false ∨ ∃ d, Found definitions svc.executor u.req d
  listener : svc.listener.map (·.states) =
    if env.redis then
      some ((enabled definitions).flatMap fun d => d.eventTriggers.map fun t =>
        { agentId := d.id, topics := t.topics, lastTopic := "debounced",
          debouncer := { delay := max ((t.debounceMinutes : T) * 60) 1, lastMark := none, pending := false } })
    else none
  stats : statsAgents svc.executor.definitions = (enabled definitions).map fun d => (d.id, true)
  known : ∀ id authorization, verifyToken svc.api authorization = true →
    ((∃ r, Sources.triggerAgent svc.api svc.executor.definitions id authorization = .ok r) ↔ ∃ d ∈ enabled definitions, d.id = id)
  /-- Whatever is submitted, a disabled agent does not run; and no trigger submits one. -/
  disabled : ∀ d ∈ definitions, d.enabled = false →
    (∀ s, Run (Executor.step svc.executor) (fun _ _ => True) (Executor.init svc.executor) s →
      ∀ u ∈ s.subs, u.req.agentId = d.id → u.pc = .ended .skipped ∧ u.entered = false) ∧
    ∀ now s, Run (Sources.step svc) (fun _ _ => True) (Sources.init svc now) s → ∀ r ∈ s.submitted, r.agentId ≠ d.id

variable {env : Deps Args Val Out Cron} {config : GlobalConfig} {definitions : List AgentDefinition} {svc : Service Args Val Out Cron T}

theorem mem_enabled {d : AgentDefinition} : d ∈ enabled definitions ↔ d ∈ definitions ∧ d.enabled = true := List.mem_filter

theorem found_of_runnable {x : RunExecutor} (hx : x.definitions.rows = enabled definitions) {req : RunRequest}
    (h : (x.runnable req).isSome = true) : ∃ d, Found definitions x req d := by
  obtain ⟨d, hd⟩ := Option.isSome_iff_exists.mp h
  obtain ⟨hmem, hid⟩ := Keyed.get_some (Option.filter_eq_some_iff.mp hd).1
  refine ⟨d, hx ▸ hmem, hid, hd, ?_⟩
  rw [← hid]
  exact agentSems_get hmem

theorem triggerAgent_known {api : Api.App Args Val Out} {byId : Definitions} {id : String} {authorization : Option String}
    (hv : verifyToken api authorization = true) :
    (∃ r, Sources.triggerAgent api byId id authorization = .ok r) ↔ ∃ d ∈ byId.rows, d.id = id := by
  constructor
  · rintro ⟨r, hr⟩
    exact (Sources.triggerAgent_ok hr).2.2
  · rintro ⟨d, hd, hid⟩
    subst hid
    refine ⟨⟨d.id, "external"⟩, ?_⟩
    simp [Sources.triggerAgent, hv, Keyed.get_of_mem hd]

/-- No disabled agent has the id of an enabled one. -/
theorem disabled_absent (hids : (definitions.map AgentDefinition.id).Nodup) {d d' : AgentDefinition} (hd : d ∈ definitions)
    (hoff : d.enabled = false) (hd' : d' ∈ enabled definitions) : d'.id ≠ d.id := by
  intro e
  obtain ⟨hin, hen⟩ := mem_enabled.mp hd'
  have hsame : d' = d := List.inj_on_of_nodup_map hids hin hd e
  subst hsame
  rw [hoff] at hen
  cases hen

theorem wired (hids : (definitions.map AgentDefinition.id).Nodup) (h : buildService env config definitions = .ok svc) :
    Wired env definitions svc := by
  obtain ⟨hx, -, hl⟩ := App.buildService_ok h
  have hrows : svc.executor.definitions.rows = enabled definitions := App.built_definitions hids h
  have htwice : (enabled definitions).filter (·.enabled) = enabled definitions := by
    rw [enabled, List.filter_filter]
    simp
  have hsubmits : ∀ s, Run (Executor.step svc.executor) (fun _ _ => True) (Executor.init svc.executor) s →
      ∀ u ∈ s.subs, u.pc = .ended .skipped ∧ u.entered = false ∨ ∃ d, Found definitions svc.executor u.req d := by
    intro s hs u hu
    rcases turned_away hs u hu with hd | hskip
    · exact Or.inr (found_of_runnable hrows hd)
    · exact Or.inl hskip
  constructor
  · exact hrows
  · rw [agentSems_rows, hrows]
  · intro d hd
    exact svc.executor.nonneg d (hrows ▸ hd)
  · intro d hd
    exact init_agentSems svc.executor (agentSems_get (hrows ▸ hd))
  · exact hsubmits
  · rw [hl, RedisListener.triggerStates, App.definitionsById_rows hids]
    show (if env.redis then some (((enabled definitions).filter (·.enabled)).flatMap _) else none) = _
    rw [htwice]
    rfl
  · rw [statsAgents, hrows]
    apply List.map_congr_left
    intro d hd
    rw [(mem_enabled.mp hd).2]
  · intro id authorization hv
    rw [triggerAgent_known hv, hrows]
  · intro d hd hoff
    constructor
    · intro s hs u hu hid
      rcases hsubmits s hs u hu with hskip | ⟨d', hf⟩
      · exact hskip
      · exact absurd (hf.id.trans hid) (disabled_absent hids hd hoff hf.mem)
    · intro now s hs r hr hid
      obtain ⟨d', hd', hen, hid'⟩ := (Sources.sourced_run h hs r hr).enabled
      exact disabled_absent hids hd hoff (mem_enabled.mpr ⟨hd', hen⟩) (hid'.trans hid)

end

/-! ## Loaded and wired -/

section

variable {y : SafeLoad A} {p : Pydantic A C} {env : Config.Env.Environ} {repr : Text → String}

theorem load_exists {fs : List File} (h : ∀ f ∈ fs, ∃ d, loadFile y p env repr f = .ok d) : ∃ ds, Load y p env repr fs ds := by
  induction fs with
  | nil => exact ⟨[], .nil⟩
  | cons f fs ih =>
    obtain ⟨d, hd⟩ := h f List.mem_cons_self
    obtain ⟨ds, hds⟩ := ih fun g hg => h g (List.mem_cons_of_mem _ hg)
    exact ⟨d :: ds, .cons hd hds⟩

theorem load_all {fs : List File} {ds : List (AgentFile C)} (h : Load y p env repr fs ds) :
    ∀ f ∈ fs, ∃ d, loadFile y p env repr f = .ok d := by
  induction h with
  | nil => exact fun f hf => (by cases hf)
  | cons hd _ ih =>
    intro f hf
    rcases List.mem_cons.mp hf with e | hf
    · subst e
      exact ⟨_, hd⟩
    · exact ih f hf

/-- The id that a file defines, if it parses. -/
def idOf (y : SafeLoad A) (p : Pydantic A C) (env : Config.Env.Environ) (repr : Text → String) (f : File) : Option String :=
  (loadFile y p env repr f).toOption.map (·.id)

theorem load_ids {fs : List File} {ds : List (AgentFile C)} (h : Load y p env repr fs ds) :
    (ds.map (·.id)).map some = fs.map (idOf y p env repr) := by
  induction h with
  | nil => rfl
  | cons hd _ ih =>
    rw [List.map_cons, List.map_cons, List.map_cons, ih, idOf, hd]
    rfl

/-- No id comes twice iff no two files define the same. -/
theorem ids_nodup {fs : List File} (hfs : fs.Nodup) {ds : List (AgentFile C)} (h : Load y p env repr fs ds) :
    (ds.map (·.id)).Nodup ↔ ∀ f ∈ fs, ∀ g ∈ fs, idOf y p env repr f = idOf y p env repr g → f = g := by
  rw [← List.nodup_map_iff_inj_on hfs, ← load_ids h, List.nodup_map_iff (Option.some_injective _)]

theorem loadAgentFiles_ok {dir : Directory} {fs : List (AgentFile C)} :
    loadAgentFiles y p env repr dir = .ok fs ↔ Load y p env repr (mdFiles dir) fs ∧ (fs.map (·.id)).Nodup := by
  have hempty : Config.Loader.Tracks (Keyed.empty _) ([] : List (AgentFile C)) := rfl
  rw [loadAgentFiles, Config.Loader.loadFrom_ok hempty]
  constructor
  · rintro ⟨ds, hds, hnodup, e⟩
    subst e
    exact ⟨hds, hnodup⟩
  · rintro ⟨hds, hnodup⟩
    exact ⟨fs, hds, hnodup, rfl⟩

variable (y p env repr) in
/-- Loading a directory succeeds iff each file parses and no two define one id. The result
    is one definition for each file, in the order of the names; and a service built from it
    is wired with the enabled ones. -/
theorem loaded_wired [CommRing T] [LinearOrder T] (dir : Directory) :
    ((∃ fs, loadAgentFiles y p env repr dir = .ok fs) ↔
      (∀ f ∈ mdFiles dir, ∃ d, loadFile y p env repr f = .ok d) ∧
        ∀ f ∈ mdFiles dir, ∀ g ∈ mdFiles dir, idOf y p env repr f = idOf y p env repr g → f = g) ∧
    (mdFiles dir).Perm (dir.rows.filter fun f => decide (Config.Loader.suffix <:+ f.name)) ∧
    (mdFiles dir).Pairwise (fun f g => f.name < g.name) ∧
    ∀ fs, loadAgentFiles y p env repr dir = .ok fs → Load y p env repr (mdFiles dir) fs ∧
      ∀ (deps : Deps Args Val Out Cron) (config : GlobalConfig) (svc : Service Args Val Out Cron T),
        buildService deps config (fs.map AgentFile.toAgentDefinition) = .ok svc →
          Wired deps (fs.map AgentFile.toAgentDefinition) svc := by
  have hfiles : (mdFiles dir).Nodup := List.Nodup.of_map _ (mdFiles_names dir)
  refine ⟨⟨?_, ?_⟩, mdFiles_perm dir, mdFiles_sorted dir, ?_⟩
  · rintro ⟨fs, h⟩
    obtain ⟨hload, hids⟩ := loadAgentFiles_ok.mp h
    exact ⟨load_all hload, (ids_nodup hfiles hload).mp hids⟩
  · rintro ⟨hall, hone⟩
    obtain ⟨fs, hload⟩ := load_exists hall
    exact ⟨fs, loadAgentFiles_ok.mpr ⟨hload, (ids_nodup hfiles hload).mpr hone⟩⟩
  · intro fs h
    obtain ⟨hload, hids⟩ := loadAgentFiles_ok.mp h
    refine ⟨hload, fun deps config svc hsvc => ?_⟩
    have hmap : (fs.map AgentFile.toAgentDefinition).map AgentDefinition.id = fs.map (·.id) := by
      rw [List.map_map]
      rfl
    exact wired (hmap ▸ hids) hsvc

end

/-! Two agents, of which one is disabled. -/

def flatYaml : SafeLoad Bool where
  load text :=
    match Config.Frontmatter.flatLoad Config.Frontmatter.scalarOf text with
    | some (.mapping data) => .ok (.tree (.dict data.rows))
    | _ => .error (.yamlError "while scanning a simple key")
  truth b := b

def curatorFile : File := ⟨Text.ofString "curator.md", .ok "---\nid: curator\n---\nCurate.".toUTF8⟩

def translatorFile : File := ⟨Text.ofString "translator.md", .ok "---\nid: translator\nenabled: false\n---\nTranslate.".toUTF8⟩

def twoFiles : Directory := Keyed.ofList File.name [translatorFile, curatorFile]

theorem twoFiles_order : mdFiles twoFiles = [curatorFile, translatorFile] := by
  have hrows : twoFiles.rows.filter (fun f => decide (Config.Loader.suffix <:+ f.name)) = [translatorFile, curatorFile] := rfl
  have hperm := mdFiles_perm twoFiles
  rw [hrows] at hperm
  have hsorted : [curatorFile, translatorFile].Pairwise fun f g => f.name < g.name := by
    rw [List.pairwise_pair]
    decide
  refine (hperm.trans (List.Perm.swap _ _ _)).eq_of_pairwise (fun f g _ _ h h' => ?_) (mdFiles_sorted twoFiles) hsorted
  exact absurd h' (lt_asymm h)

theorem loaded_wired_twoFiles :
    ∃ (fs : List (AgentFile Unit)) (svc : Service Unit Unit Unit String Int),
      loadAgentFiles flatYaml Config.Frontmatter.checks (fun _ => none) (fun _ => "'demo.md'") twoFiles = .ok fs ∧
        fs.map (·.id) = ["curator", "translator"] ∧ buildService App.deps App.demoConfig (fs.map AgentFile.toAgentDefinition) = .ok svc ∧
        Wired App.deps (fs.map AgentFile.toAgentDefinition) svc ∧ svc.executor.definitions.rows.map (·.id) = ["curator"] := by
  obtain ⟨fs, hfs, hids, svc, hsvc, hrows⟩ : ∃ fs : List (AgentFile Unit),
      loadAgentFiles flatYaml Config.Frontmatter.checks (fun _ => none) (fun _ => "'demo.md'") twoFiles = .ok fs ∧
        fs.map (·.id) = ["curator", "translator"] ∧ ∃ svc : Service Unit Unit Unit String Int,
          buildService App.deps App.demoConfig (fs.map AgentFile.toAgentDefinition) = .ok svc ∧
            svc.executor.definitions.rows.map (·.id) = ["curator"] := by
    rw [loadAgentFiles, twoFiles_order]
    exact ⟨_, rfl, rfl, _, rfl, rfl⟩
  have hwired := ((loaded_wired flatYaml Config.Frontmatter.checks (fun _ => none) (fun _ => "'demo.md'") twoFiles).2.2.2
    fs hfs).2 App.deps App.demoConfig svc hsvc
  exact ⟨fs, svc, hfs, hids, hsvc, hwired, hrows⟩

end SagaAgents.Wiring
