/-
  SagaAgents.Config.Env — environment variables in configuration values (`core/env.py`).

  `resolve_env` replaces the tokens `${VAR}` and `${VAR:-default}` of a text;
  `resolve_tree` does so in the strings of a parsed YAML structure, and leaves the keys of
  its mappings alone.

  Proved: `resolveTree_members`. What a member of a mapping becomes depends only on the
  variables that its own strings refer to, and the keys stay.
-/

import Mathlib.Data.List.TakeWhile
import SagaAgents.Lib.Json

namespace SagaAgents.Config.Env

open Lib

/-! ## Tokens -/

/-- `[A-Za-z_]`. -/
def isNameStart (c : CodePoint) : Bool :=
  (0x41 ≤ c.val && c.val ≤ 0x5a) || (0x61 ≤ c.val && c.val ≤ 0x7a) || c.val == 0x5f

/-- `[A-Za-z0-9_]`. -/
def isNameChar (c : CodePoint) : Bool := isNameStart c || (0x30 ≤ c.val && c.val ≤ 0x39)

structure Token where
  name : Text
  default : Option Text
  deriving DecidableEq

def opening : Text := Text.ofString "$\x7b"

def dash : Text := Text.ofString ":-"

/-- The brace that ends a token. -/
def brace : CodePoint := CodePoint.ofChar '\x7d'

/-- `(?::-(?P<default>[^}]*))?\}`, after the name. -/
def readDefault (cs : Text) : Option (Option Text × Text) :=
  match expect dash cs with
  | some cs => (expect [brace] (cs.dropWhile (· != brace))).map fun rest => (some (cs.takeWhile (· != brace)), rest)
  | none => (expect [brace] cs).map fun rest => (none, rest)

/-- `_ENV_PATTERN` at the head of a text. -/
def readToken (cs : Text) : Option (Token × Text) :=
  (expect opening cs).bind fun cs =>
    if cs.head?.any isNameStart then
      (readDefault (cs.dropWhile isNameChar)).map fun p => (⟨cs.takeWhile isNameChar, p.1⟩, p.2)
    else none

def Token.text (t : Token) : Text :=
  opening ++ (t.name ++ ((t.default.elim [] fun d => dash ++ d) ++ [brace]))

theorem readDefault_text {cs rest : Text} {d : Option Text} (h : readDefault cs = some (d, rest)) :
    cs = (d.elim [] fun d => dash ++ d) ++ [brace] ++ rest := by
  unfold readDefault at h
  split at h
  · rename_i cs' hd
    obtain ⟨r, hr, e⟩ := Option.map_eq_some_iff.mp h
    cases e
    rw [expect_some hd]
    show dash ++ cs' = dash ++ cs'.takeWhile (· != brace) ++ [brace] ++ rest
    rw [List.append_assoc, List.append_assoc, ← expect_some hr, List.takeWhile_append_dropWhile]
  · obtain ⟨r, hr, e⟩ := Option.map_eq_some_iff.mp h
    cases e
    exact expect_some hr

theorem readToken_text {cs rest : Text} {t : Token} (h : readToken cs = some (t, rest)) : cs = t.text ++ rest := by
  obtain ⟨cs', hc, h⟩ := Option.bind_eq_some_iff.mp h
  split at h
  · obtain ⟨p, hp, e⟩ := Option.map_eq_some_iff.mp h
    cases e
    rw [expect_some hc, Token.text]
    simp only [List.append_assoc]
    have := readDefault_text hp
    rw [List.append_assoc] at this
    rw [← this, List.takeWhile_append_dropWhile]
  · cases h

theorem readToken_shorter (cs : Text) (t : Token) (rest : Text) (h : readToken cs = some (t, rest)) : rest.length < cs.length := by
  rw [readToken_text h, Token.text]
  simp only [List.length_append, List.length_cons, List.length_nil]
  omega

/-- A token reads the same whatever follows it. -/
theorem readDefault_again {cs rest : Text} {d : Option Text} (h : readDefault cs = some (d, rest)) (x : Text) :
    readDefault ((d.elim [] fun d => dash ++ d) ++ ([brace] ++ x)) = some (d, x) := by
  unfold readDefault at h
  split at h
  · rename_i cs' hd
    obtain ⟨r, hr, e⟩ := Option.map_eq_some_iff.mp h
    cases e
    have hall : ∀ c ∈ cs'.takeWhile (· != brace), (c != brace) = true := fun c hc =>
      List.mem_takeWhile_imp (p := (· != brace)) hc
    have hdash : expect dash (dash ++ cs'.takeWhile (· != brace) ++ ([brace] ++ x)) =
        some (cs'.takeWhile (· != brace) ++ ([brace] ++ x)) := by rw [List.append_assoc, expect_append]
    show readDefault (dash ++ cs'.takeWhile (· != brace) ++ ([brace] ++ x)) = _
    unfold readDefault
    rw [hdash]
    simp only
    rw [List.dropWhile_append_of_pos hall, List.takeWhile_append_of_pos hall]
    simp [brace, expect]
  · obtain ⟨r, hr, e⟩ := Option.map_eq_some_iff.mp h
    cases e
    have hdash : expect dash ([] ++ ([brace] ++ x)) = none := rfl
    show readDefault ([] ++ ([brace] ++ x)) = _
    unfold readDefault
    rw [hdash, List.nil_append, expect_append]
    rfl

/-- What follows the name. -/
theorem stops_name (d : Option Text) (x : Text) :
    ∃ c cs, (d.elim [] fun d => dash ++ d) ++ ([brace] ++ x) = c :: cs ∧ isNameChar c = false := by
  cases d with
  | none => exact ⟨brace, x, rfl, by decide⟩
  | some d => exact ⟨CodePoint.ofChar ':', CodePoint.ofChar '-' :: (d ++ ([brace] ++ x)), rfl, by decide⟩

theorem readToken_again {cs rest : Text} {t : Token} (h : readToken cs = some (t, rest)) (x : Text) :
    readToken (t.text ++ x) = some (t, x) := by
  obtain ⟨cs', hc, h⟩ := Option.bind_eq_some_iff.mp h
  split at h
  · rename_i hs
    obtain ⟨p, hp, e⟩ := Option.map_eq_some_iff.mp h
    cases e
    have hall : ∀ c ∈ cs'.takeWhile isNameChar, isNameChar c = true := fun c hc => List.mem_takeWhile_imp hc
    obtain ⟨a, as, htail, ha⟩ := stops_name p.1 x
    have htext : Token.text ⟨cs'.takeWhile isNameChar, p.1⟩ ++ x = opening ++ (cs'.takeWhile isNameChar ++ (a :: as)) := by
      rw [← htail]
      simp only [Token.text, List.append_assoc]
    have hhead : (cs'.takeWhile isNameChar ++ (a :: as)).head?.any isNameStart = true := by
      cases cs' with
      | nil => cases hs
      | cons c cs =>
        have hc : isNameStart c = true := hs
        have hn : isNameChar c = true := by rw [isNameChar, hc]; rfl
        rw [List.takeWhile_cons_of_pos hn]
        exact hc
    rw [htext, readToken, expect_append]
    simp only [Option.bind_some, hhead, if_true]
    rw [List.dropWhile_append_of_pos hall, List.takeWhile_append_of_pos hall,
      List.takeWhile_cons_of_neg (by simp [ha]), List.dropWhile_cons_of_neg (by simp [ha]), ← htail,
      readDefault_again hp x, List.append_nil]
    rfl
  · cases h

/-- `_ENV_PATTERN`. -/
def envPattern : Matcher CodePoint Token := ⟨readToken, readToken_shorter⟩

theorem envPattern_printed : envPattern.Printed Token.text :=
  ⟨fun _ _ _ h => readToken_text h, fun _ _ _ x h => readToken_again h x⟩

theorem readToken_none {c : CodePoint} (cs : Text) (h : c ≠ CodePoint.ofChar '$') : readToken (c :: cs) = none := by
  have : expect opening (c :: cs) = none := if_neg (Ne.symm h)
  rw [readToken, this]
  rfl

theorem found_name {cs : Text} {t : Token} (h : t ∈ envPattern.found cs) : ∀ c ∈ t.name, isNameChar c = true := by
  obtain ⟨s, rest, -, h⟩ := Matcher.found_reads envPattern_printed (Matcher.mem_found.mp h)
  obtain ⟨s', -, h⟩ := Option.bind_eq_some_iff.mp h
  split at h
  · obtain ⟨p, -, e⟩ := Option.map_eq_some_iff.mp h
    cases e
    exact fun c hc => List.mem_takeWhile_imp hc
  · cases h

/-! ## resolve_env -/

/-- `os.environ`. -/
abbrev Environ := Text → Option Text

/-- The text of a `ConfigError`. -/
abbrev ConfigError := String

/-- A name is ASCII, so `!r` puts it between single quotes. -/
def Token.unset (t : Token) : ConfigError :=
  "Environment variable '" ++ t.name.toStr ++ "' is not set and has no default value."

/-- `_replace`. -/
def Token.value (env : Environ) (t : Token) : Except ConfigError Text :=
  match env t.name, t.default with
  | some v, _ => .ok v
  | none, some d => .ok d
  | none, none => .error t.unset

def resolveEnv (env : Environ) (value : Text) : Except ConfigError Text := envPattern.tryReplaced (Token.value env) value

/-- The variables that a text refers to. -/
def names (value : Text) : List Text := (envPattern.found value).map (·.name)

theorem resolveEnv_congr {env env' : Environ} {value : Text} (h : ∀ n ∈ names value, env n = env' n) :
    resolveEnv env value = resolveEnv env' value := by
  refine Matcher.tryReplaced_congr fun t ht => ?_
  unfold Token.value
  rw [h t.name (List.mem_map_of_mem ht)]

/-! ## resolve_tree -/

/-- A parsed YAML structure; `other` are the scalars that are no strings. The keys of a
    mapping are strings here: others (`1: x`) are left out. -/
inductive Node (A : Type) where
  | other (a : A)
  | str (s : Text)
  | list (items : List (Node A))
  | dict (members : List (Text × Node A))

variable {A : Type}

mutual

def resolveTree (env : Environ) : Node A → Except ConfigError (Node A)
  | .dict members => (resolveMembers env members).map .dict
  | .list items => (resolveItems env items).map .list
  | .str s => (resolveEnv env s).map .str
  | .other a => .ok (.other a)

def resolveItems (env : Environ) : List (Node A) → Except ConfigError (List (Node A))
  | [] => .ok []
  | v :: vs => (resolveTree env v).bind fun r => (resolveItems env vs).map fun rs => r :: rs

def resolveMembers (env : Environ) : List (Text × Node A) → Except ConfigError (List (Text × Node A))
  | [] => .ok []
  | m :: ms => (resolveTree env m.2).bind fun r => (resolveMembers env ms).map fun rs => (m.1, r) :: rs

end

mutual

/-- The variables that the strings of a structure refer to. -/
def Node.names : Node A → List Text
  | .dict members => memberNames members
  | .list items => itemNames items
  | .str s => Env.names s
  | .other _ => []

def itemNames : List (Node A) → List Text
  | [] => []
  | v :: vs => v.names ++ itemNames vs

def memberNames : List (Text × Node A) → List Text
  | [] => []
  | m :: ms => m.2.names ++ memberNames ms

end

mutual

theorem resolveTree_congr {env env' : Environ} (node : Node A) (h : ∀ n ∈ node.names, env n = env' n) :
    resolveTree env node = resolveTree env' node := by
  match node with
  | .dict members => rw [resolveTree, resolveTree, resolveMembers_congr members h]
  | .list items => rw [resolveTree, resolveTree, resolveItems_congr items h]
  | .str s => rw [resolveTree, resolveTree, resolveEnv_congr h]
  | .other a => rfl

theorem resolveItems_congr {env env' : Environ} (items : List (Node A)) (h : ∀ n ∈ itemNames items, env n = env' n) :
    resolveItems env items = resolveItems env' items := by
  match items with
  | [] => rfl
  | v :: vs =>
    rw [resolveItems, resolveItems, resolveTree_congr v fun n hn => h n (List.mem_append_left _ hn),
      resolveItems_congr vs fun n hn => h n (List.mem_append_right _ hn)]

theorem resolveMembers_congr {env env' : Environ} (members : List (Text × Node A))
    (h : ∀ n ∈ memberNames members, env n = env' n) : resolveMembers env members = resolveMembers env' members := by
  match members with
  | [] => rfl
  | m :: ms =>
    rw [resolveMembers, resolveMembers, resolveTree_congr m.2 fun n hn => h n (List.mem_append_left _ hn),
      resolveMembers_congr ms fun n hn => h n (List.mem_append_right _ hn)]

end

/-- Structures that are resolved keep their keys, whatever the values are; and the members
    that do not refer to a variable do not depend on it. -/
theorem resolveTree_members {env env' : Environ} {name k : Text} (henv : ∀ n, n ≠ name → env n = env' n)
    {members rs rs' : List (Text × Node A)} (hk : ∀ m ∈ members, m.1 ≠ k → name ∉ m.2.names)
    (h : resolveMembers env members = .ok rs) (h' : resolveMembers env' members = .ok rs') :
    rs.map Prod.fst = members.map Prod.fst ∧ List.Forall₂ (fun r r' => r.1 = r'.1 ∧ (r.1 ≠ k → r.2 = r'.2)) rs rs' := by
  induction members generalizing rs rs' with
  | nil =>
    cases h
    cases h'
    exact ⟨rfl, .nil⟩
  | cons m ms ih =>
    obtain ⟨v, hv, h⟩ := bind_ok.mp h
    obtain ⟨vs, hvs, e⟩ := map_ok.mp h
    obtain ⟨v', hv', h'⟩ := bind_ok.mp h'
    obtain ⟨vs', hvs', e'⟩ := map_ok.mp h'
    subst e e'
    obtain ⟨hkeys, hrest⟩ := ih (fun m' hm => hk m' (List.mem_cons_of_mem _ hm)) hvs hvs'
    refine ⟨by rw [List.map_cons, hkeys]; rfl, .cons ⟨rfl, fun hne => ?_⟩ hrest⟩
    have hsame := resolveTree_congr m.2 fun n hn => henv n fun e => hk m List.mem_cons_self hne (e ▸ hn)
    rw [hv, hv'] at hsame
    exact Except.ok.inj hsame

end SagaAgents.Config.Env
