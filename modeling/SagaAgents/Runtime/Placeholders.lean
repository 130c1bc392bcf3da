/-
  SagaAgents.Runtime.Placeholders — the placeholders of a prompt (`runtime/guidance.py`).

  The loader rejects a body that refers to an unknown key, and the runner puts the guidance
  in. Both find placeholders with one pattern, and a key of it is `[a-z_]+`.

  Proved:
  - `readPlaceholder_iff`: the texts that the pattern matches.
  - `substitute_around`: no text before or after a placeholder changes what becomes of it,
    and no guidance is scanned again.
  - `prompt_clean_iff`: with a guidance without braces, the prompt of a loaded agent has no
    saga token iff no two pairs of braces of its body, outside the placeholders, frame one
    (`Framed`). `unknown_key_reaches_prompt` is a file with a key that the pattern misses.
-/

import Mathlib.Data.List.TakeWhile
import SagaAgents.Config.Frontmatter
import SagaAgents.Lib.Fill
import SagaAgents.Lib.JsonRoundTrip
import SagaAgents.Runtime.Outcomes

namespace SagaAgents.Runtime.Placeholders

open Lib
open SagaAgents.Config.Env (Environ)
open SagaAgents.Config.Frontmatter (AgentFile Loaded Pydantic parseAgentMarkdown split)
open SagaAgents.Runtime.Guidance
open SagaAgents.Runtime.Outcomes (resolveSystemPrompt)

/-! ## The pattern -/

/-- A text that the pattern matches. -/
structure Placeholder where
  before : Text
  key : Text
  after : Text
  blankBefore : ∀ c ∈ before, isSpace c = true
  keyChars : key ≠ [] ∧ ∀ c ∈ key, isKeyChar c = true
  blankAfter : ∀ c ∈ after, isSpace c = true

def saga : Text := Text.ofString "saga."

def Placeholder.text (p : Placeholder) : Text := opening ++ (p.before ++ (saga ++ (p.key ++ (p.after ++ closing))))

theorem isKeyChar_space {c : CodePoint} (h : isSpace c = true) : isKeyChar c = false := by
  simp only [isSpace, isKeyChar, Bool.or_eq_true, Bool.and_eq_true, decide_eq_true_eq, beq_iff_eq, Bool.or_eq_false_iff,
    Bool.and_eq_false_iff, decide_eq_false_iff_not, beq_eq_false_iff_ne] at h ⊢
  omega

/-- Symbols of a kind, and one that is not. -/
theorem span_append {p : CodePoint → Bool} {a b : Text} {c : CodePoint} (ha : ∀ c ∈ a, p c = true) (hc : p c = false) :
    (a ++ c :: b).takeWhile p = a ∧ (a ++ c :: b).dropWhile p = c :: b := by
  rw [List.takeWhile_append_of_pos ha, List.dropWhile_append_of_pos ha, List.takeWhile_cons_of_neg (by simp [hc]),
    List.dropWhile_cons_of_neg (by simp [hc]), List.append_nil]
  exact ⟨rfl, rfl⟩

theorem read_text (p : Placeholder) (rest : Text) : readPlaceholder (p.text ++ rest) = some (p.key, rest) := by
  have htext : p.text ++ rest = opening ++ (p.before ++ (saga ++ (p.key ++ (p.after ++ (closing ++ rest))))) := by
    simp only [Placeholder.text, List.append_assoc]
  have hbefore : (p.before ++ (saga ++ (p.key ++ (p.after ++ (closing ++ rest))))).dropWhile isSpace =
      saga ++ (p.key ++ (p.after ++ (closing ++ rest))) := (span_append p.blankBefore rfl).2
  have hkey : (p.key ++ (p.after ++ (closing ++ rest))).takeWhile isKeyChar = p.key ∧
      (p.key ++ (p.after ++ (closing ++ rest))).dropWhile isKeyChar = p.after ++ (closing ++ rest) := by
    cases h : p.after with
    | nil => exact span_append p.keyChars.2 rfl
    | cons c cs =>
      have hc : isSpace c = true := p.blankAfter c (by rw [h]; exact List.mem_cons_self)
      exact span_append p.keyChars.2 (isKeyChar_space hc)
  have hafter : (p.after ++ (closing ++ rest)).dropWhile isSpace = closing ++ rest := (span_append p.blankAfter rfl).2
  have hsaga (cs : Text) : expect (Text.ofString "saga.") (saga ++ cs) = some cs := expect_append saga cs
  rw [htext, readPlaceholder, expect_append, Option.bind_some, hbefore, hsaga, Option.bind_some, if_neg, hkey.2, hafter,
    expect_append, hkey.1]
  · rfl
  · rw [hkey.1]
    exact p.keyChars.1

/-- What the pattern matches at the head of a text. -/
theorem readPlaceholder_iff {cs key rest : Text} :
    readPlaceholder cs = some (key, rest) ↔ ∃ p : Placeholder, cs = p.text ++ rest ∧ p.key = key := by
  constructor
  · intro h
    obtain ⟨cs₁, h₁, h⟩ := Option.bind_eq_some_iff.mp h
    obtain ⟨cs₂, h₂, h⟩ := Option.bind_eq_some_iff.mp h
    split at h
    · cases h
    · rename_i hne
      obtain ⟨cs₃, h₃, e⟩ := Option.map_eq_some_iff.mp h
      cases e
      refine ⟨⟨cs₁.takeWhile isSpace, cs₂.takeWhile isKeyChar, (cs₂.dropWhile isKeyChar).takeWhile isSpace,
        fun c hc => List.mem_takeWhile_imp hc, ⟨hne, fun c hc => List.mem_takeWhile_imp hc⟩,
        fun c hc => List.mem_takeWhile_imp hc⟩, ?_, rfl⟩
      have e₁ : cs₁ = cs₁.takeWhile isSpace ++ (saga ++ cs₂) := by
        rw [saga, ← expect_some h₂, List.takeWhile_append_dropWhile]
      have e₂ : cs₂ = cs₂.takeWhile isKeyChar ++ ((cs₂.dropWhile isKeyChar).takeWhile isSpace ++ (closing ++ rest)) := by
        rw [← expect_some h₃, List.takeWhile_append_dropWhile, List.takeWhile_append_dropWhile]
      simp only [Placeholder.text, List.append_assoc]
      rw [← e₂, ← e₁]
      exact expect_some h₁
  · rintro ⟨p, e, hk⟩
    subst e hk
    exact read_text p rest

theorem placeholderRe_selfDelimiting : placeholderRe.SelfDelimiting := by
  intro cs key rest h
  obtain ⟨p, e, hk⟩ := readPlaceholder_iff.mp h
  subst hk
  exact ⟨p.text, e, fun x => read_text p x⟩

/-! ## A placeholder between two texts -/

def openBrace : CodePoint := CodePoint.ofChar '\x7b'

def closeBrace : CodePoint := CodePoint.ofChar '\x7d'

/-- After its opening, a placeholder has no opening brace. -/
theorem opened (p : Placeholder) : ∃ rest, p.text = openBrace :: openBrace :: rest ∧ rest ≠ [] ∧ openBrace ∉ rest := by
  refine ⟨p.before ++ (saga ++ (p.key ++ (p.after ++ closing))), rfl, ?_, ?_⟩
  · intro h
    have := congrArg List.length h
    simp [saga, Text.ofString] at this
  · have hspace : isSpace openBrace = false := rfl
    have hkey : isKeyChar openBrace = false := rfl
    have hsaga : openBrace ∉ saga := by decide
    have hclosing : openBrace ∉ closing := by decide
    simp only [List.mem_append, not_or]
    refine ⟨fun h => ?_, hsaga, fun h => ?_, fun h => ?_, hclosing⟩
    · have := p.blankBefore _ h
      rw [hspace] at this
      cases this
    · have := p.keyChars.2 _ h
      rw [hkey] at this
      cases this
    · have := p.blankAfter _ h
      rw [hspace] at this
      cases this

/-- No placeholder has an opening in its middle. -/
theorem not_cut {s y b key : Text} (p : Placeholder) (hs : s ≠ []) (hy : y ≠ []) (hb : y <+: p.text ++ b) :
    readPlaceholder (s ++ y) ≠ some (key, []) := by
  intro h
  obtain ⟨q, e, -⟩ := readPlaceholder_iff.mp h
  obtain ⟨rest, hq, hne, hno⟩ := opened q
  obtain ⟨rest', hp, -, -⟩ := opened p
  rw [List.append_nil, hq] at e
  rw [hp] at hb
  cases s with
  | nil => exact hs rfl
  | cons a s =>
    cases y with
    | nil => exact hy rfl
    | cons c y =>
      obtain ⟨z, hz⟩ := hb
      obtain ⟨ec, htail⟩ := List.cons.inj hz
      subst ec
      obtain ⟨-, e⟩ := List.cons.inj e
      cases s with
      | nil =>
        -- the opening brace of `y` is the second one of the placeholder
        obtain ⟨-, e⟩ := List.cons.inj e
        subst e
        cases y with
        | nil => exact hne rfl
        | cons d y =>
          obtain ⟨ed, -⟩ := List.cons.inj htail
          subst ed
          exact hno List.mem_cons_self
      | cons a' s =>
        obtain ⟨-, e⟩ := List.cons.inj e
        rw [← e] at hno
        exact hno (List.mem_append_right _ List.mem_cons_self)

theorem scan_placeholder (a b : Text) (p : Placeholder) :
    placeholderRe.scan (a ++ p.text ++ b) = placeholderRe.scan a ++ .inr p.key :: placeholderRe.scan b :=
  Matcher.scan_around placeholderRe_selfDelimiting (read_text p b) fun _ _ _ hs hy _ hb => not_cut p hs hy hb

/-- Whatever stands before and after a placeholder, and whatever the guidance is: the
    placeholder becomes its value, the text before and the text after become what they
    become alone, and the keys are theirs and the placeholder's. -/
theorem substitute_around (a b : Text) (p : Placeholder) (guidance : StoreGuidance) :
    substitute (a ++ p.text ++ b) guidance = substitute a guidance ++ guidance.lookup p.key ++ substitute b guidance ∧
      ∀ k, k ∈ referencedKeys (a ++ p.text ++ b) ↔ k ∈ referencedKeys a ∨ k = p.key ∨ k ∈ referencedKeys b := by
  have hscan := scan_placeholder a b p
  constructor
  · unfold substitute Matcher.replaced
    rw [hscan, List.flatMap_append, List.flatMap_cons, List.append_assoc]
    rfl
  · intro k
    unfold referencedKeys Matcher.found
    rw [hscan, List.filterMap_append, List.mem_dedup, List.mem_append, List.mem_dedup, List.mem_dedup]
    show _ ∨ k ∈ p.key :: _ ↔ _
    rw [List.mem_cons]

/-! ## Tokens that stay -/

/-- The inside of a saga token: blanks, `saga.` and a key of any symbols but braces. -/
def SagaWord (w : Text) : Prop :=
  ∃ before key, w = before ++ (saga ++ key) ∧ (∀ c ∈ before, isSpace c = true) ∧ key ≠ [] ∧
    ∀ c ∈ key, c ≠ openBrace ∧ c ≠ closeBrace

/-- A saga token is somewhere in the text. -/
def HasSagaToken (text : Text) : Prop := ∃ x w y, SagaWord w ∧ text = x ++ (opening ++ (w ++ (closing ++ y)))

/-- No value has a brace. -/
def BraceFree (guidance : StoreGuidance) : Prop := ∀ m ∈ guidance, openBrace ∉ m.2 ∧ closeBrace ∉ m.2

/-- The symbols of a body that are in no placeholder, and the value of each placeholder. -/
def pieces (guidance : StoreGuidance) (body : Text) : List (CodePoint ⊕ Text) :=
  (placeholderRe.scan body).map (Sum.map id guidance.lookup)

/-- Two opening and two closing braces that are in no placeholder. The two of a pair are
    next to each other, but for placeholders for nothing; and with its placeholders filled
    in, what is between the pairs is the inside of a saga token. -/
def Framed (guidance : StoreGuidance) (body : Text) : Prop :=
  ∃ us gap content gap' vs, pieces guidance body = us ++ .inl openBrace :: (gap ++ .inl openBrace :: (content ++
      .inl closeBrace :: (gap' ++ .inl closeBrace :: vs))) ∧
    fill gap = [] ∧ fill gap' = [] ∧ SagaWord (fill content)

theorem fill_pieces (guidance : StoreGuidance) (body : Text) : fill (pieces guidance body) = substitute body guidance := by
  unfold fill pieces substitute Matcher.replaced
  rw [List.flatMap_map]
  refine List.flatMap_congr fun p _ => ?_
  cases p <;> rfl

theorem lookup_free {guidance : StoreGuidance} (hg : BraceFree guidance) (k : Text) :
    openBrace ∉ guidance.lookup k ∧ closeBrace ∉ guidance.lookup k := by
  unfold StoreGuidance.lookup
  cases h : guidance.find? fun m => m.1 == k with
  | none => exact ⟨List.not_mem_nil, List.not_mem_nil⟩
  | some m => exact hg m (List.mem_of_find?_eq_some h)

theorem pieces_free {guidance : StoreGuidance} (hg : BraceFree guidance) (body : Text) :
    Fill.Free openBrace (pieces guidance body) ∧ Fill.Free closeBrace (pieces guidance body) := by
  have hblock : ∀ b, .inr b ∈ pieces guidance body → ∃ k, b = guidance.lookup k := by
    intro b hb
    obtain ⟨p, -, e⟩ := List.mem_map.mp hb
    cases p with
    | inl c => cases e
    | inr k =>
      cases e
      exact ⟨k, rfl⟩
  constructor
  · intro b hb
    obtain ⟨k, e⟩ := hblock b hb
    rw [e]
    exact (lookup_free hg k).1
  · intro b hb
    obtain ⟨k, e⟩ := hblock b hb
    rw [e]
    exact (lookup_free hg k).2

/-- A saga token of the filled body is framed in the body. -/
theorem hasSagaToken_iff {guidance : StoreGuidance} (hg : BraceFree guidance) (body : Text) :
    HasSagaToken (substitute body guidance) ↔ Framed guidance body := by
  obtain ⟨hopen, hclose⟩ := pieces_free hg body
  rw [← fill_pieces]
  constructor
  · rintro ⟨x, w, y, hw, h⟩
    -- the four braces of the token are symbols of the body, one after the other
    obtain ⟨us, vs, e, -, hvs⟩ := Fill.split_symbol hopen h
    rw [e] at hopen hclose
    have hopen := Fill.Free.tail hopen.right
    have hclose := Fill.Free.tail hclose.right
    obtain ⟨gap, ws, e₁, hgap, hws⟩ := Fill.split_symbol (x := []) hopen hvs
    rw [e₁] at hclose
    have hclose := Fill.Free.tail hclose.right
    obtain ⟨content, zs, e₂, hcontent, hzs⟩ := Fill.split_symbol hclose hws
    rw [e₂] at hclose
    have hclose := Fill.Free.tail hclose.right
    obtain ⟨gap', rest, e₃, hgap', -⟩ := Fill.split_symbol (x := []) hclose hzs
    subst e₃ e₂ e₁
    exact ⟨us, gap, content, gap', rest, e, hgap, hgap', hcontent ▸ hw⟩
  · rintro ⟨us, gap, content, gap', vs, e, hgap, hgap', hw⟩
    refine ⟨fill us, fill content, fill vs, hw, ?_⟩
    rw [e]
    simp only [Fill.fill_append, Fill.fill_symbol, hgap, hgap', List.nil_append]
    rfl

/-! ## The prompt of a loaded agent -/

theorem substitute_none {text : Text} (h : referencedKeys text = []) (guidance : StoreGuidance) : substitute text guidance = text := by
  have hfound : placeholderRe.found text = [] := by
    rw [List.eq_nil_iff_forall_not_mem]
    intro k hk
    have hmem : k ∈ referencedKeys text := List.mem_dedup.mpr hk
    rw [h] at hmem
    cases hmem
  exact Matcher.replaced_none hfound _

theorem resolve_ok (d : Config.AgentDefinition) (guidance : StoreGuidance) :
    resolveSystemPrompt d (.ok guidance) = .ok (substitute (Text.ofString d.systemPrompt) guidance) := by
  unfold resolveSystemPrompt
  by_cases h : referencedKeys (Text.ofString d.systemPrompt) = []
  · simp only [h, if_true, substitute_none h]
  · simp only [h, if_false]
    rfl

variable {A C : Type}

/-- With a guidance without braces, the prompt of a loaded agent has no saga token iff
    nothing in its body frames one. -/
theorem prompt_clean_iff {safeLoad : Text → Option (Loaded A)} {p : Pydantic A C} (hp : p.KeepsPrompt) {env : Environ} {text : Text}
    {source : String} {d : AgentFile C} (h : parseAgentMarkdown safeLoad p env text source = .ok d) {guidance : StoreGuidance}
    (hg : BraceFree guidance) :
    ∃ front body prompt, split text source = .ok (front, body) ∧
      resolveSystemPrompt d.toAgentDefinition (.ok guidance) = .ok prompt ∧ (¬ HasSagaToken prompt ↔ ¬ Framed guidance body) := by
  obtain ⟨front, body, r, data, hs, -, -, -, hv⟩ := Config.Frontmatter.parse_iff.mp h
  have hbody := Config.Frontmatter.systemPrompt_body hp hv
  refine ⟨front, body, _, hs, resolve_ok _ guidance, ?_⟩
  rw [hbody, hasSagaToken_iff hg]

/-! A file with one placeholder, and one with a key that the pattern misses; the checks are
    those of a prompt that is Unicode text. -/

def promptChecks : Pydantic Bool Unit where
  validate
    | .systemPrompt, .str s => if s.all isScalar then some s.toStr else none
    | f, node => Config.Frontmatter.checks.validate f node
  noContext := ()
  report := Config.Frontmatter.checks.report

theorem promptChecks_keeps : promptChecks.KeepsPrompt := by
  intro s v h
  have h : (if s.all isScalar then some s.toStr else none) = some v := h
  split at h
  · rename_i hs
    cases h
    exact Json.ofString_toStr hs
  · cases h

def fileOf (body : String) : Text := Text.ofString ("---\nid: demo\n---\n" ++ body)

def loaded (body : String) : Except Config.Frontmatter.LoadError (AgentFile Unit) :=
  parseAgentMarkdown (Config.Frontmatter.flatLoad Config.Frontmatter.scalarOf) promptChecks (fun _ => none) (fileOf body) "'demo.md'"

theorem loaded_known : ∃ d, loaded "Answer in \x7b\x7bsaga.language\x7d\x7d." = .ok d := ⟨_, rfl⟩

def english : StoreGuidance := [(Text.ofString "language", Text.ofString "English")]

theorem english_braceFree : BraceFree english := by
  intro m hm
  rw [List.mem_singleton.mp hm]
  decide

theorem prompt_clean_iff_demo :
    ∃ d front body prompt, split (fileOf "Answer in \x7b\x7bsaga.language\x7d\x7d.") "'demo.md'" = .ok (front, body) ∧
      resolveSystemPrompt d (.ok english) = .ok prompt ∧ (¬ HasSagaToken prompt ↔ ¬ Framed english body) := by
  obtain ⟨d, h⟩ := loaded_known
  obtain ⟨front, body, prompt, hs, hr, hiff⟩ := prompt_clean_iff promptChecks_keeps h english_braceFree
  exact ⟨d.toAgentDefinition, front, body, prompt, hs, hr, hiff⟩

/-- The loader takes a key with a capital letter, and the runner leaves it in the prompt. -/
theorem unknown_key_reaches_prompt :
    BraceFree english ∧ ∃ d prompt, loaded "Answer in \x7b\x7bsaga.Language\x7d\x7d." = .ok d ∧
      resolveSystemPrompt d.toAgentDefinition (.ok english) = .ok prompt ∧ HasSagaToken prompt := by
  refine ⟨english_braceFree, _, _, rfl, rfl, Text.ofString "Answer in ", Text.ofString "saga.Language", Text.ofString ".", ?_, rfl⟩
  have hkey : (Text.ofString "Language").all (fun c => c != openBrace && c != closeBrace) = true := rfl
  refine ⟨[], Text.ofString "Language", rfl, fun c hc => (by cases hc), by decide, fun c hc => ?_⟩
  simpa using List.all_eq_true.mp hkey c hc

end SagaAgents.Runtime.Placeholders
