/-
  SagaAgents.Config.Fences — where the frontmatter of an agent file ends
  (`config/loader.py`, `parse_agent_markdown`).

  A file is a line `---`, the lines of the frontmatter, a line `---` and the body. The
  parser looks for the closing line as `"\n---\n"`, and starts after the newline of the
  opening one. So it does not see a closing line that follows the opening one at once: the
  next line `---` of the body closes the frontmatter, or none does.

  Proved, whatever `yaml.safe_load` and pydantic answer:
  - `split_lines`: with a line between the fences, the frontmatter is these lines, and no
    line `---` of the body moves the split.
  - `follows_iff`: the file is parsed by its grammar iff it has such a line, or can define no
    agent anyway; and a text that has no closing line defines none.
    `empty_frontmatter_takes_body` is a file.
-/

import SagaAgents.Config.Frontmatter

namespace SagaAgents.Config.Frontmatter

open Lib
open Env (Environ resolveEnv envPattern)
open Runtime.Guidance (isSpace validatePlaceholders referencedKeys guidanceKeys)

/-! ## The grammar -/

def dashes : Text := Text.ofString "---"

/-- A line of a frontmatter. -/
abbrev Line := { l : Text // newline ∉ l ∧ l ≠ dashes }

/-- A line `---`, with its newline. -/
def fence : Text := Text.ofString "---\n"

def fileText (L : List Line) (B : Text) : Text := fence ++ (L.flatMap (fun l => l.val ++ [newline]) ++ (fence ++ B))

/-- The lines, joined by newlines. -/
def joined (L : List Line) : Text := [newline].intercalate (L.map Subtype.val)

variable {A C : Type}

/-- The definition that a frontmatter and a body give. -/
def Defines (safeLoad : Text → Option (Loaded A)) (p : Pydantic A C) (env : Environ) (source : String) (front body : Text)
    (d : AgentFile C) : Prop :=
  ∃ r data, resolveEnv env front = .ok r ∧ mapping safeLoad source r = .ok data ∧ validatePlaceholders source body = .ok () ∧
    p.modelValidate (withPrompt data body) = some d

variable (A C) in
/-- The file is parsed by its grammar. -/
structure Follows (L : List Line) (B : Text) : Prop where
  /-- The lines are the frontmatter, and the stripped body is the body, which must not be empty. -/
  parse : ∀ (safeLoad : Text → Option (Loaded A)) (p : Pydantic A C) env source d,
    parseAgentMarkdown safeLoad p env (fileText L B) source = .ok d ↔
      strip isSpace B ≠ [] ∧ Defines safeLoad p env source (joined L) (strip isSpace B) d
  /-- The prompt is the stripped body. -/
  prompt : ∀ (safeLoad : Text → Option (Loaded A)) (p : Pydantic A C) env source d, p.KeepsPrompt →
    parseAgentMarkdown safeLoad p env (fileText L B) source = .ok d → Text.ofString d.systemPrompt = strip isSpace B
  /-- The other fields do not depend on the body. -/
  others : ∀ (safeLoad : Text → Option (Loaded A)) (p : Pydantic A C) env source B' d d',
    parseAgentMarkdown safeLoad p env (fileText L B) source = .ok d →
    parseAgentMarkdown safeLoad p env (fileText L B') source = .ok d' → ∀ f, f ≠ .systemPrompt → d.get f = d'.get f

/-- The body can be a prompt: it is not blank, and its placeholders have known keys. -/
def Usable (B : Text) : Prop := strip isSpace B ≠ [] ∧ ∀ k ∈ referencedKeys (strip isSpace B), k ∈ guidanceKeys

/-! ## The first closing line -/

theorem breakAt_skip {l : Text} (hl : newline ∉ l) (cs : Text) :
    breakAt (newline :: fence) (l ++ cs) = (breakAt (newline :: fence) cs).map fun p => (l ++ p.1, p.2) := by
  induction l with
  | nil => cases h : breakAt (newline :: fence) cs <;> simp [h]
  | cons c l ih =>
    have hc : newline ≠ c := fun e => hl (e ▸ List.mem_cons_self)
    have hnone : expect (newline :: fence) (c :: (l ++ cs)) = none := by rw [expect, if_neg hc]
    rw [List.cons_append, breakAt, hnone, ih fun h => hl (List.mem_cons_of_mem _ h), Option.map_map]
    rfl

/-- Two texts with their first newline. -/
theorem line_unique {a b x y : Text} (ha : newline ∉ a) (hb : newline ∉ b) (h : a ++ newline :: x = b ++ newline :: y) : a = b := by
  have htake {l z : Text} (hl : newline ∉ l) : (l ++ newline :: z).takeWhile (· != newline) = l := by
    have hall : ∀ c ∈ l, (c != newline) = true := by
      intro c hc
      rw [bne_iff_ne]
      intro e
      exact hl (e ▸ hc)
    rw [List.takeWhile_append_of_pos hall, List.takeWhile_cons_of_neg (by simp), List.append_nil]
  rw [← htake (z := x) ha, h, htake hb]

theorem fence_eq (cs : Text) : fence ++ cs = dashes ++ newline :: cs := rfl

/-- A line that is not `---` is no closing line. -/
theorem expect_line (l : Line) (cs : Text) : expect fence (l.val ++ newline :: cs) = none := by
  by_contra hne
  obtain ⟨rest, h⟩ := Option.ne_none_iff_exists'.mp hne
  have e := expect_some h
  rw [fence_eq] at e
  exact l.property.2 (line_unique l.property.1 (by decide) e)

theorem joined_cons (l l' : Line) (L : List Line) : joined (l :: l' :: L) = l.val ++ newline :: joined (l' :: L) := by
  simp [joined, List.intercalate]

/-- Behind some lines, the first closing line is the one that follows them. -/
theorem breakAt_lines (l : Line) (L : List Line) (B : Text) :
    breakAt (newline :: fence) ((l :: L).flatMap (fun l => l.val ++ [newline]) ++ (fence ++ B)) = some (joined (l :: L), B) := by
  induction L generalizing l with
  | nil =>
    have hclose : breakAt (newline :: fence) (newline :: (fence ++ B)) = some ([], B) := by
      have h : expect (newline :: fence) (newline :: (fence ++ B)) = some B := expect_append (newline :: fence) B
      rw [breakAt, h]
    have htext : [l].flatMap (fun l => l.val ++ [newline]) ++ (fence ++ B) = l.val ++ newline :: (fence ++ B) := by
      simp
    rw [htext, breakAt_skip l.property.1, hclose]
    simp [joined, List.intercalate]
  | cons l' L ih =>
    have htext : (l :: l' :: L).flatMap (fun l => l.val ++ [newline]) ++ (fence ++ B) =
        l.val ++ newline :: ((l' :: L).flatMap (fun l => l.val ++ [newline]) ++ (fence ++ B)) := by
      simp
    have hnone : expect (newline :: fence) (newline :: ((l' :: L).flatMap (fun l => l.val ++ [newline]) ++ (fence ++ B))) = none := by
      rw [expect, if_pos rfl]
      have h := expect_line l' (L.flatMap (fun l => l.val ++ [newline]) ++ (fence ++ B))
      simpa using h
    rw [htext, breakAt_skip l.property.1, breakAt, hnone, ih l', joined_cons]
    rfl

/-- With a line between the fences, the split is at the closing one. -/
theorem split_lines {L : List Line} (hL : L ≠ []) (B : Text) (source : String) :
    split (fileText L B) source =
      if strip isSpace B = [] then .error (agentFile source " has an empty system-prompt body.") else .ok (joined L, strip isSpace B) := by
  obtain ⟨l, L, rfl⟩ := List.exists_cons_of_ne_nil hL
  have hopen : expect (Text.ofString "---\n") (fileText (l :: L) B) =
      some ((l :: L).flatMap (fun l => l.val ++ [newline]) ++ (fence ++ B)) := expect_append fence _
  have hclose : breakAt (Text.ofString "\n---\n") ((l :: L).flatMap (fun l => l.val ++ [newline]) ++ (fence ++ B)) =
      some (joined (l :: L), B) := breakAt_lines l L B
  rw [split, hopen]
  simp only
  rw [hclose]

/-! ## Files that follow the grammar -/

theorem split_ok {text front body : Text} {source : String} :
    split text source = .ok (front, body) ↔ ∃ rest v, text = fence ++ rest ∧ breakAt (newline :: fence) rest = some (front, v) ∧
      strip isSpace v ≠ [] ∧ body = strip isSpace v := by
  unfold split
  constructor
  · intro h
    split at h
    · cases h
    · rename_i rest hrest
      split at h
      · cases h
      · rename_i u v hv
        split at h
        · cases h
        · rename_i hne
          cases h
          exact ⟨rest, v, expect_some hrest, hv, hne, rfl⟩
  · rintro ⟨rest, v, e, hv, hne, e'⟩
    subst e e'
    have hopen : expect (Text.ofString "---\n") (fence ++ rest) = some rest := expect_append fence rest
    have hclose : breakAt (Text.ofString "\n---\n") rest = some (front, v) := hv
    rw [hopen]
    simp only
    rw [hclose]
    simp only
    rw [if_neg hne]

theorem validate_ok {source : String} {body : Text} :
    validatePlaceholders source body = .ok () ↔ ∀ k ∈ referencedKeys body, k ∈ guidanceKeys := by
  unfold validatePlaceholders
  simp only
  split
  · rename_i h
    refine ⟨fun _ k hk => ?_, fun _ => rfl⟩
    by_contra hno
    have hmem : k ∈ (referencedKeys body).filter fun k => !guidanceKeys.contains k :=
      List.mem_filter.mpr ⟨hk, by simpa using hno⟩
    rw [h] at hmem
    cases hmem
  · rename_i h
    refine ⟨fun e => (by cases e), fun hall => absurd ?_ h⟩
    rw [List.filter_eq_nil_iff]
    intro k hk
    simpa using hall k hk

variable {safeLoad : Text → Option (Loaded A)} {p : Pydantic A C} {env : Environ} {source : String}

theorem parse_defines {text : Text} {d : AgentFile C} :
    parseAgentMarkdown safeLoad p env text source = .ok d ↔
      ∃ front body, split text source = .ok (front, body) ∧ Defines safeLoad p env source front body d := by
  rw [parse_iff]
  constructor
  · rintro ⟨front, body, r, data, hs, h⟩
    exact ⟨front, body, hs, r, data, h⟩
  · rintro ⟨front, body, hs, r, data, h⟩
    exact ⟨front, body, r, data, hs, h⟩

theorem Defines.usable {front B : Text} {d : AgentFile C} (hne : strip isSpace B ≠ [])
    (h : Defines safeLoad p env source front (strip isSpace B) d) : Usable B := by
  obtain ⟨_, _, -, -, hb, -⟩ := h
  exact ⟨hne, validate_ok.mp hb⟩

theorem parse_lines {L : List Line} (hL : L ≠ []) (B : Text) (d : AgentFile C) :
    parseAgentMarkdown safeLoad p env (fileText L B) source = .ok d ↔
      strip isSpace B ≠ [] ∧ Defines safeLoad p env source (joined L) (strip isSpace B) d := by
  rw [parse_defines, split_lines hL]
  by_cases hB : strip isSpace B = []
  · simp [hB]
  · rw [if_neg hB]
    constructor
    · rintro ⟨front, body, e, h⟩
      cases e
      exact ⟨hB, h⟩
    · rintro ⟨-, h⟩
      exact ⟨_, _, rfl, h⟩

/-- Without a line between the fences, the next line `---` of the body closes. -/
theorem parse_empty (B : Text) (d : AgentFile C) :
    parseAgentMarkdown safeLoad p env (fileText [] B) source = .ok d ↔
      ∃ u v, breakAt (newline :: fence) (fence ++ B) = some (u, v) ∧ strip isSpace v ≠ [] ∧
        Defines safeLoad p env source u (strip isSpace v) d := by
  rw [parse_defines]
  constructor
  · rintro ⟨front, body, hs, h⟩
    obtain ⟨rest, v, e, hv, hne, e'⟩ := split_ok.mp hs
    subst e'
    have e : rest = fence ++ B := (List.append_cancel_left e).symm
    subst e
    exact ⟨front, v, hv, hne, h⟩
  · rintro ⟨u, v, hv, hne, h⟩
    exact ⟨u, strip isSpace v, split_ok.mpr ⟨fence ++ B, v, rfl, hv, hne, rfl⟩, h⟩

theorem defines_others {front body body' : Text} {d d' : AgentFile C} (h : Defines safeLoad p env source front body d)
    (h' : Defines safeLoad p env source front body' d') {f : Field} (hf : f ≠ .systemPrompt) : d.get f = d'.get f := by
  obtain ⟨r, data, hr, hd, -, hv⟩ := h
  obtain ⟨r', data', hr', hd', -, hv'⟩ := h'
  cases hr.symm.trans hr'
  cases hd.symm.trans hd'
  have hne : f.name ≠ Field.systemPrompt.name := fun e => hf (name_injective e)
  have h1 := modelValidate_field hv f
  have h2 := modelValidate_field hv' f
  unfold Pydantic.field at h1 h2
  rw [withPrompt_other _ _ hne] at h1 h2
  rw [h1] at h2
  exact Option.some.inj h2

theorem defines_prompt (hp : p.KeepsPrompt) {front body : Text} {d : AgentFile C} (h : Defines safeLoad p env source front body d) :
    Text.ofString d.systemPrompt = body := by
  obtain ⟨_, _, -, -, -, hv⟩ := h
  exact systemPrompt_body hp hv

theorem follows_lines {L : List Line} (hL : L ≠ []) (B : Text) : Follows A C L B where
  parse _ _ _ _ d := parse_lines hL B d
  prompt _ _ _ _ d hp h := defines_prompt hp ((parse_lines hL B d).mp h).2
  others _ _ _ _ B' d d' h h' _ hf := defines_others ((parse_lines hL B d).mp h).2 ((parse_lines hL B' d').mp h').2 hf

/-! ## Files without a line between the fences -/

theorem breakAt_empty (B : Text) :
    breakAt (newline :: fence) (fence ++ B) = (breakAt (newline :: fence) (newline :: B)).map fun p => (dashes ++ p.1, p.2) := by
  rw [fence_eq, breakAt_skip (by decide)]

section

variable [Inhabited C]

def anyValue : (f : Field) → f.Value C
  | .id | .description | .systemPrompt => ""
  | .enabled => true
  | .model => none
  | .autonomy => Autonomy.proposal
  | .tools => ToolsSpec.new
  | .triggers => []
  | .limits => {}
  | .context => (default : C)

variable (A C) in
/-- Checks that everything passes. -/
def lenient : Pydantic A C := ⟨fun f _ => some (anyValue f), default, fun _ => .validation ""⟩

def idOnly : Data A := Keyed.ofList Prod.fst [(Field.id.name, .str [])]

/-- A loader that reads some texts, as a mapping with an id. -/
def loadsWhen (q : Text → Bool) (text : Text) : Option (Loaded A) := if q text then some (.mapping idOnly) else none

/-- An environment in which every variable is set. -/
def allSet : Environ := fun _ => some []

theorem resolves_allSet (text : Text) : ∃ r, resolveEnv allSet text = .ok r :=
  Matcher.tryPieces_total (fun _ => ⟨[], rfl⟩) _

theorem resolves_dashes (u : Text) : ∃ r, resolveEnv allSet (dashes ++ u) = .ok r ∧ r ≠ [] := by
  obtain ⟨r, hr⟩ := resolves_allSet (Text.ofString "--" ++ u)
  have hread : Env.readToken (CodePoint.ofChar '-' :: (Text.ofString "--" ++ u)) = none := Env.readToken_none _ (by decide)
  have hscan : envPattern.scan (dashes ++ u) = .inl (CodePoint.ofChar '-') :: envPattern.scan (Text.ofString "--" ++ u) :=
    Matcher.scan_skip hread
  have hr : Matcher.tryPieces (Env.Token.value allSet) (envPattern.scan (Text.ofString "--" ++ u)) = .ok r := hr
  refine ⟨CodePoint.ofChar '-' :: r, ?_, List.cons_ne_nil _ _⟩
  rw [resolveEnv, Matcher.tryReplaced, hscan, Matcher.tryPieces, hr]
  rfl

theorem lenient_defines {q : Text → Bool} {front r B : Text} (hB : Usable B) (hr : resolveEnv allSet front = .ok r) (hq : q r = true)
    (source : String) : ∃ d, Defines (loadsWhen q) (lenient A C) allSet source front (strip isSpace B) d := by
  have hfields : ∀ f, ∃ v, (lenient A C).field (withPrompt idOnly (strip isSpace B)) f = some v := by
    intro f
    unfold Pydantic.field
    split
    · exact ⟨_, rfl⟩
    · rename_i hget
      cases f with
      | id =>
        rw [withPrompt_other _ _ (by decide)] at hget
        cases hget
      | _ => exact ⟨_, rfl⟩
  obtain ⟨d, hd⟩ := modelValidate_some hfields
  refine ⟨d, r, idOnly, hr, ?_, validate_ok.mpr hB.2, hd⟩
  rw [mapping, loadsWhen, hq]
  rfl

omit [Inhabited C] in
/-- A loader that does not read the frontmatter defines nothing. -/
theorem not_loaded {q : Text → Bool} {front r body : Text} {p : Pydantic A C} {d : AgentFile C} (hr : resolveEnv env front = .ok r)
    (hq : q r = false) : ¬ Defines (loadsWhen q) p env source front body d := by
  rintro ⟨r', data, hr', hd, -⟩
  cases hr.symm.trans hr'
  rw [mapping, loadsWhen, hq] at hd
  cases hd

theorem resolves_joined : resolveEnv allSet (joined []) = .ok [] := rfl

/-- With nothing between the fences a body that can be a prompt is not looked at. -/
theorem follows_body {B : Text} (h : Follows A C [] B) : ¬ Usable B := by
  intro hB
  -- a loader that reads nothing but the empty frontmatter
  obtain ⟨d, hd⟩ := lenient_defines (A := A) (C := C) (q := (· == [])) hB resolves_joined rfl ""
  obtain ⟨u, v, hv, -, hd'⟩ := (parse_empty B d).mp ((h.parse _ _ _ _ d).mpr ⟨hB.1, hd⟩)
  rw [breakAt_empty] at hv
  obtain ⟨w, -, e⟩ := Option.map_eq_some_iff.mp hv
  cases e
  obtain ⟨r, hr, hne⟩ := resolves_dashes w.1
  exact not_loaded hr (by simpa using hne) hd'

/-- And what is behind the first line `---` of the body is the prompt, if it can be one. -/
theorem follows_rest {B u v : Text} (h : Follows A C [] B) (hv : breakAt (newline :: fence) (newline :: B) = some (u, v)) :
    ¬ Usable v := by
  intro hV
  -- a loader that does not read the empty frontmatter
  obtain ⟨r, hr, hne⟩ := resolves_dashes u
  obtain ⟨d, hd⟩ := lenient_defines (A := A) (C := C) (q := (· != [])) hV hr (by simpa using hne) ""
  have hclose : breakAt (newline :: fence) (fence ++ B) = some (dashes ++ u, v) := by
    rw [breakAt_empty, hv]
    rfl
  obtain ⟨-, hd'⟩ := (h.parse _ _ _ _ d).mp ((parse_empty B d).mpr ⟨_, v, hclose, hV.1, hd⟩)
  exact not_loaded resolves_joined rfl hd'

omit [Inhabited C] in
/-- Where neither can be a prompt, the file defines nothing. -/
theorem follows_none {B : Text} (hB : ¬ Usable B)
    (hV : ∀ u v, breakAt (newline :: fence) (newline :: B) = some (u, v) → ¬ Usable v) : Follows A C [] B := by
  have hnone (safeLoad : Text → Option (Loaded A)) (p : Pydantic A C) (env : Environ) (source : String) (d : AgentFile C) :
      parseAgentMarkdown safeLoad p env (fileText [] B) source ≠ .ok d := by
    intro h
    obtain ⟨u, v, hv, hne, hd⟩ := (parse_empty B d).mp h
    rw [breakAt_empty] at hv
    obtain ⟨w, hw, e⟩ := Option.map_eq_some_iff.mp hv
    cases e
    exact hV w.1 w.2 hw (hd.usable hne)
  constructor
  · intro safeLoad p env source d
    constructor
    · intro h
      exact absurd h (hnone safeLoad p env source d)
    · rintro ⟨hne, hd⟩
      exact absurd (hd.usable hne) hB
  · intro safeLoad p env source d _ h
    exact absurd h (hnone safeLoad p env source d)
  · intro safeLoad p env source B' d d' h
    exact absurd h (hnone safeLoad p env source d)

variable (A C) in
theorem follows_empty (B : Text) :
    Follows A C [] B ↔ ¬ Usable B ∧ ∀ u v, breakAt (newline :: fence) (newline :: B) = some (u, v) → ¬ Usable v :=
  ⟨fun h => ⟨follows_body h, fun _ _ hv => follows_rest h hv⟩, fun h => follows_none h.1 h.2⟩

end

/-! ## All files -/

/-- A text with a closing line has lines before its first line `---`; `l` is what is read of
    the first one. -/
theorem lines_exist (u v : Text) {l : Text} (hl : newline ∉ l) :
    ∃ (L : List Line) (B : Text), l ++ (u ++ newline :: (fence ++ v)) = L.flatMap (fun l => l.val ++ [newline]) ++ (fence ++ B) := by
  induction u generalizing l with
  | nil =>
    by_cases hd : l = dashes
    · subst hd
      exact ⟨[], fence ++ v, rfl⟩
    · exact ⟨[⟨l, hl, hd⟩], v, by simp⟩
  | cons c u ih =>
    by_cases hc : c = newline
    · subst hc
      by_cases hd : l = dashes
      · subst hd
        exact ⟨[], u ++ newline :: (fence ++ v), rfl⟩
      · obtain ⟨L, B, e⟩ := ih (l := []) (by simp)
        refine ⟨⟨l, hl, hd⟩ :: L, B, ?_⟩
        rw [List.cons_append, ← List.nil_append (u ++ _), e]
        simp
    · have hl' : newline ∉ l ++ [c] := by
        intro h
        rcases List.mem_append.mp h with h | h
        · exact hl h
        · exact hc (List.mem_singleton.mp h).symm
      obtain ⟨L, B, e⟩ := ih hl'
      exact ⟨L, B, by rw [← e]; simp⟩

theorem parsed_shape {text : Text} {d : AgentFile C} (h : parseAgentMarkdown safeLoad p env text source = .ok d) :
    ∃ L B, text = fileText L B := by
  obtain ⟨front, body, hs, -⟩ := parse_defines.mp h
  obtain ⟨rest, v, e, hv, -, -⟩ := split_ok.mp hs
  have hrest : rest = front ++ newline :: (fence ++ v) := by
    rw [breakAt_some hv, List.append_assoc]
    rfl
  obtain ⟨L, B, e'⟩ := lines_exist front v (l := []) (by simp)
  rw [List.nil_append] at e'
  exact ⟨L, B, by rw [e, hrest, e', fileText]⟩

variable (A C) in
/-- A file is parsed by its grammar iff there is a line between its fences, or neither its
    body nor what is behind the first line `---` of the body can be a prompt. A text that has
    no such shape defines no agent. -/
theorem follows_iff [Inhabited C] :
    (∀ L B, Follows A C L B ↔
      L ≠ [] ∨ ¬ Usable B ∧ ∀ u v, breakAt (newline :: fence) (newline :: B) = some (u, v) → ¬ Usable v) ∧
    ∀ text, (∀ L B, text ≠ fileText L B) →
      ∀ (safeLoad : Text → Option (Loaded A)) (p : Pydantic A C) env source d, parseAgentMarkdown safeLoad p env text source ≠ .ok d := by
  constructor
  · intro L B
    by_cases hL : L = []
    · subst hL
      rw [follows_empty]
      exact ⟨Or.inr, fun h => h.resolve_left fun hne => hne rfl⟩
    · exact ⟨fun _ => .inl hL, fun _ => follows_lines hL B⟩
  · intro text hno safeLoad p env source d h
    obtain ⟨L, B, e⟩ := parsed_shape h
    exact hno L B e

/-! A file with nothing between its fences; the loader knows a line `---` as the start of a
    document. -/

def documentLoad (text : Text) : Option (Loaded Bool) := flatLoad scalarOf ((expect fence text).getD text)

def ruleBody : Text := Text.ofString "id: x\n---\nbody"

/-- The body up to its rule becomes the frontmatter. -/
theorem empty_frontmatter_takes_body :
    (∃ d, parseAgentMarkdown documentLoad checks (fun _ => none) (fileText [] ruleBody) "'x.md'" = .ok d ∧ d.id = "x" ∧
      d.systemPrompt = "body" ∧ strip isSpace ruleBody = ruleBody) ∧
    (∀ d, ¬ Defines documentLoad checks (fun _ => none) "'x.md'" (joined []) (strip isSpace ruleBody) d) ∧
    ¬ Follows Bool Unit [] ruleBody := by
  have hparse : ∃ d, parseAgentMarkdown documentLoad checks (fun _ => none) (fileText [] ruleBody) "'x.md'" = .ok d ∧ d.id = "x" ∧
      d.systemPrompt = "body" ∧ strip isSpace ruleBody = ruleBody := ⟨_, rfl, rfl, rfl, rfl⟩
  have hno (d : AgentFile Unit) : ¬ Defines documentLoad checks (fun _ => none) "'x.md'" (joined []) (strip isSpace ruleBody) d := by
    rintro ⟨r, data, hr, hd, -, hv⟩
    cases hr
    cases hd
    cases hv
  refine ⟨hparse, hno, fun h => ?_⟩
  obtain ⟨d, hd, -⟩ := hparse
  exact hno d ((h.parse _ _ _ _ d).mp hd).2

end SagaAgents.Config.Frontmatter
