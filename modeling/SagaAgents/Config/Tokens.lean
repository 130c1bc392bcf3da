/-
  SagaAgents.Config.Tokens — the tokens of a text and of what it resolves to
  (`core/env.py`).

  The default of a token runs to the first closing brace, and is inserted without being
  scanned: so a default that is not closed swallows the token after it, and a token in a
  default stays.

  Proved:
  - `readToken_iff`: the texts that the pattern matches.
  - `resolveEnv_around`: unless a default before it is open, a token resolves between any
    two texts as it does alone.
  - `resolved_clean_iff`: with values without `$` and braces, what a text resolves to has no
    token iff the text frames none (`Framed`); and so for the strings of a tree.
    `nested_default_stays` is a text.
-/

import SagaAgents.Config.Env
import SagaAgents.Lib.Fill

namespace SagaAgents.Config.Env

open Lib

/-! ## The pattern -/

def IsIdentifier (n : Text) : Prop := ∃ c cs, n = c :: cs ∧ isNameStart c = true ∧ ∀ d ∈ cs, isNameChar d = true

/-- The text of the token is one that the pattern matches. -/
structure Token.WellFormed (t : Token) : Prop where
  name : IsIdentifier t.name
  default : ∀ d, t.default = some d → brace ∉ d

theorem isNameStart_char {c : CodePoint} (h : isNameStart c = true) : isNameChar c = true := by
  rw [isNameChar, h]
  rfl

theorem IsIdentifier.chars {n : Text} (h : IsIdentifier n) : ∀ c ∈ n, isNameChar c = true := by
  obtain ⟨c, cs, e, hc, hcs⟩ := h
  subst e
  intro d hd
  rcases List.mem_cons.mp hd with hd | hd
  · rw [hd]
    exact isNameStart_char hc
  · exact hcs d hd

theorem readDefault_of {d : Option Text} (hd : ∀ d', d = some d' → brace ∉ d') (x : Text) :
    readDefault ((d.elim [] fun d => dash ++ d) ++ ([brace] ++ x)) = some (d, x) := by
  cases d with
  | none => rfl
  | some d =>
    have hall : ∀ c ∈ d, (c != brace) = true := by
      intro c hc
      rw [bne_iff_ne]
      intro e
      subst e
      exact hd d rfl hc
    show readDefault (dash ++ d ++ ([brace] ++ x)) = _
    rw [List.append_assoc, readDefault, expect_append]
    simp only
    rw [List.dropWhile_append_of_pos hall, List.takeWhile_append_of_pos hall]
    simp [brace, expect]

theorem read_token {t : Token} (ht : t.WellFormed) (x : Text) : readToken (t.text ++ x) = some (t, x) := by
  have hall := ht.name.chars
  obtain ⟨c, cs, hname, hc, -⟩ := ht.name
  obtain ⟨a, as, htail, ha⟩ := stops_name t.default x
  have htext : t.text ++ x = opening ++ (t.name ++ (a :: as)) := by
    rw [← htail]
    simp only [Token.text, List.append_assoc]
  have hhead : (t.name ++ (a :: as)).head?.any isNameStart = true := by
    rw [hname]
    exact hc
  rw [htext, readToken, expect_append, Option.bind_some, if_pos hhead, List.dropWhile_append_of_pos hall,
    List.takeWhile_append_of_pos hall, List.takeWhile_cons_of_neg (by simp [ha]), List.dropWhile_cons_of_neg (by simp [ha]),
    ← htail, readDefault_of ht.default x, List.append_nil]
  rfl

/-- What the pattern matches at the head of a text. -/
theorem readToken_iff {cs rest : Text} {t : Token} : readToken cs = some (t, rest) ↔ t.WellFormed ∧ cs = t.text ++ rest := by
  constructor
  · intro h
    refine ⟨?_, readToken_text h⟩
    obtain ⟨cs₁, -, h⟩ := Option.bind_eq_some_iff.mp h
    split at h
    · rename_i hs
      obtain ⟨p, hp, e⟩ := Option.map_eq_some_iff.mp h
      cases e
      constructor
      · cases cs₁ with
        | nil => cases hs
        | cons c cs₁ =>
          have hc : isNameStart c = true := hs
          exact ⟨c, cs₁.takeWhile isNameChar, List.takeWhile_cons_of_pos (isNameStart_char hc), hc,
            fun d hd => List.mem_takeWhile_imp hd⟩
      · intro d hd
        have hd : p.1 = some d := hd
        unfold readDefault at hp
        split at hp
        · obtain ⟨r, -, e⟩ := Option.map_eq_some_iff.mp hp
          rw [← e] at hd
          cases hd
          intro hb
          have := List.mem_takeWhile_imp (p := (· != brace)) hb
          simp at this
        · obtain ⟨r, -, e⟩ := Option.map_eq_some_iff.mp hp
          rw [← e] at hd
          cases hd
    · cases h
  · rintro ⟨ht, e⟩
    subst e
    exact read_token ht rest

/-! ## A token between two texts -/

def dollar : CodePoint := CodePoint.ofChar '$'

def openBrace : CodePoint := CodePoint.ofChar '\x7b'

/-- A default that is not closed: `${N:-` and no closing brace. -/
def OpenDefault (s : Text) : Prop := ∃ n d, IsIdentifier n ∧ brace ∉ d ∧ s = opening ++ (n ++ (dash ++ d))

theorem dollar_name {n : Text} (h : IsIdentifier n) : dollar ∉ n := by
  intro hm
  have := h.chars dollar hm
  exact absurd this (by decide)

/-- Only an open default is cut from a token by a `$`. -/
theorem openDefault_of_cut {s y : Text} {t : Token} (ht : t.WellFormed) (hs : s ≠ []) (h : s ++ dollar :: y = t.text) :
    OpenDefault s := by
  have hname := dollar_name ht.name
  cases s with
  | nil => exact absurd rfl hs
  | cons c s =>
    cases hd : t.default with
    | none =>
      -- a token without a default has its only `$` at the start
      have htext : t.text = dollar :: openBrace :: (t.name ++ [brace]) := by
        rw [Token.text, hd]
        rfl
      rw [htext] at h
      have hm : dollar ∈ openBrace :: (t.name ++ [brace]) := by
        rw [← (List.cons.inj h).2]
        exact List.mem_append_right _ List.mem_cons_self
      rcases List.mem_cons.mp hm with e | hm
      · exact absurd e (by decide)
      · rcases List.mem_append.mp hm with hm | hm
        · exact absurd hm hname
        · exact absurd hm (by decide)
    | some d =>
      have hbrace := ht.default d hd
      have htext : t.text = (opening ++ (t.name ++ dash)) ++ (d ++ [brace]) := by
        simp only [Token.text, hd, Option.elim_some, List.append_assoc]
      rw [htext] at h
      rcases List.append_eq_append_iff.mp h with ⟨z, hz, hy⟩ | ⟨z, hz, hy⟩
      · cases z with
        | nil =>
          rw [List.append_nil] at hz
          exact ⟨t.name, [], ht.name, List.not_mem_nil, by rw [List.append_nil]; exact hz.symm⟩
        | cons e z =>
          -- the `$` would stand in the opening, the name or the dash
          obtain ⟨e, -⟩ := List.cons.inj hy
          subst e
          have htail : openBrace :: (t.name ++ dash) = s ++ dollar :: z := (List.cons.inj hz).2
          have hm : dollar ∈ openBrace :: (t.name ++ dash) := by
            rw [htail]
            exact List.mem_append_right _ List.mem_cons_self
          rcases List.mem_cons.mp hm with e | hm
          · exact absurd e (by decide)
          · rcases List.mem_append.mp hm with hm | hm
            · exact absurd hm hname
            · exact absurd hm (by decide)
      · refine ⟨t.name, z, ht.name, fun hm => ?_, by rw [hz]; simp only [List.append_assoc]⟩
        have hlen : z.length ≤ d.length := by
          have := congrArg List.length hy
          simp only [List.length_append, List.length_cons, List.length_nil] at this
          omega
        have hpre : z <+: d := List.prefix_of_prefix_length_le ⟨_, hy.symm⟩ (List.prefix_append d [brace]) hlen
        exact hbrace (hpre.subset hm)

theorem scan_token {a : Text} (ha : ∀ s, s <:+ a → ¬ OpenDefault s) {t : Token} (ht : t.WellFormed) (b : Text) :
    envPattern.scan (a ++ t.text ++ b) = envPattern.scan a ++ .inr t :: envPattern.scan b := by
  refine Matcher.scan_around envPattern_printed.selfDelimiting (read_token ht b) fun s y t' hs hy hsuf hpre hread => ?_
  obtain ⟨ht', e⟩ := readToken_iff.mp hread
  rw [List.append_nil] at e
  cases y with
  | nil => exact hy rfl
  | cons c y =>
    obtain ⟨z, hz⟩ := hpre
    obtain ⟨ec, -⟩ := List.cons.inj hz
    subst ec
    exact ha s hsuf (openDefault_of_cut ht' hs e)

theorem value_ok {env : Environ} {t : Token} {v : Text} : t.value env = .ok v ↔ (env t.name).or t.default = some v := by
  unfold Token.value
  cases env t.name with
  | some w => simp
  | none => cases t.default <;> simp

/-- Unless a default before it is open, a token resolves between any two texts as it does
    alone, and what is put in for it is not scanned again. -/
theorem resolveEnv_around (env : Environ) {a : Text} (ha : ∀ s, s <:+ a → ¬ OpenDefault s) {t : Token} (ht : t.WellFormed) (b : Text) :
    ((∃ r, resolveEnv env (a ++ t.text ++ b) = .ok r) ↔
        (∃ x, resolveEnv env a = .ok x) ∧ (∃ y, resolveEnv env b = .ok y) ∧ ((env t.name).isSome ∨ t.default.isSome)) ∧
      ∀ x y v, resolveEnv env a = .ok x → resolveEnv env b = .ok y → (env t.name).or t.default = some v →
        resolveEnv env (a ++ t.text ++ b) = .ok (x ++ v ++ y) := by
  have hscan := scan_token ha ht b
  have hjoin (x y v : Text) (hx : resolveEnv env a = .ok x) (hy : resolveEnv env b = .ok y) (hv : t.value env = .ok v) :
      resolveEnv env (a ++ t.text ++ b) = .ok (x ++ v ++ y) := by
    have hright : Matcher.tryPieces (Token.value env) (.inr t :: envPattern.scan b) = .ok (v ++ y) := by
      have hy : Matcher.tryPieces (Token.value env) (envPattern.scan b) = .ok y := hy
      rw [Matcher.tryPieces, hv, hy]
      rfl
    rw [resolveEnv, Matcher.tryReplaced, hscan, List.append_assoc]
    exact Matcher.tryPieces_append_ok hx hright
  refine ⟨⟨?_, ?_⟩, fun x y v hx hy hv => hjoin x y v hx hy (value_ok.mpr hv)⟩
  · rintro ⟨r, hr⟩
    rw [resolveEnv, Matcher.tryReplaced, hscan] at hr
    obtain ⟨x, q, hx, hq, -⟩ := Matcher.tryPieces_append hr
    obtain ⟨v, hv, hq⟩ := bind_ok.mp hq
    obtain ⟨y, hy, -⟩ := map_ok.mp hq
    refine ⟨⟨x, hx⟩, ⟨y, hy⟩, ?_⟩
    have h := value_ok.mp hv
    cases he : env t.name with
    | some w => exact Or.inl rfl
    | none =>
      rw [he, Option.none_or] at h
      rw [h]
      exact Or.inr rfl
  · rintro ⟨⟨x, hx⟩, ⟨y, hy⟩, hset⟩
    obtain ⟨v, hv⟩ : ∃ v, (env t.name).or t.default = some v := by
      cases he : env t.name with
      | some w => exact ⟨w, rfl⟩
      | none =>
        rw [he] at hset
        rw [Option.none_or]
        exact Option.isSome_iff_exists.mp (hset.resolve_left (by decide))
    exact ⟨_, hjoin x y v hx hy (value_ok.mpr hv)⟩

def onlyB : Environ := fun n => if n = Text.ofString "B" then some (Text.ofString "x") else none

def tokenB : Token := ⟨Text.ofString "B", none⟩

theorem tokenB_wellFormed : tokenB.WellFormed :=
  ⟨⟨CodePoint.ofChar 'B', [], rfl, rfl, fun _ h => (by cases h)⟩, fun _ h => (by cases h)⟩

/-- A `$` and an opening brace before a token. -/
theorem resolveEnv_around_demo :
    resolveEnv onlyB (Text.ofString "$\x7b" ++ tokenB.text ++ Text.ofString "\x7d") = .ok (Text.ofString "$\x7bx\x7d") := by
  have ha : ∀ s, s <:+ Text.ofString "$\x7b" → ¬ OpenDefault s := by
    rintro s hs ⟨n, d, -, -, e⟩
    have hlen := hs.length_le
    rw [e] at hlen
    simp only [List.length_append] at hlen
    have h1 : opening.length = 2 := rfl
    have h2 : dash.length = 2 := rfl
    have h3 : (Text.ofString "$\x7b").length = 2 := rfl
    omega
  exact (resolveEnv_around onlyB ha tokenB_wellFormed (Text.ofString "\x7d")).2 _ _ (Text.ofString "x") rfl rfl rfl

/-! ## Tokens that stay -/

/-- A token is somewhere in the text. -/
def HasToken (text : Text) : Prop := ∃ (x : Text) (t : Token) (y : Text), t.WellFormed ∧ text = x ++ (t.text ++ y)

/-- No value has a `$` or a brace. -/
def Plain (env : Environ) : Prop := ∀ n v, env n = some v → dollar ∉ v ∧ openBrace ∉ v ∧ brace ∉ v

/-- What is put in for a token: the value of its variable as one block, the symbols of its
    default one by one. -/
def Token.pieces (env : Environ) (t : Token) : List (CodePoint ⊕ Text) :=
  match env t.name with
  | some v => [.inr v]
  | none => (t.default.getD []).map .inl

/-- The symbols of a text that are in no token, and what is put in for each token. -/
def laid (env : Environ) (s : Text) : List (CodePoint ⊕ Text) :=
  (envPattern.scan s).flatMap (Sum.elim (fun c => [.inl c]) (Token.pieces env))

/-- What stands between the braces of a token. -/
def Inside (w : Text) : Prop := ∃ t : Token, t.WellFormed ∧ w = t.name ++ t.default.elim [] fun d => dash ++ d

/-- A `$`, an opening brace next to it but for values that are empty, and a closing brace,
    all of them outside the tokens or from a default that is put in; and with the values
    filled in, what is between the braces is the inside of a token. -/
def Framed (env : Environ) (s : Text) : Prop :=
  ∃ us gap content vs, laid env s = us ++ .inl dollar :: (gap ++ .inl openBrace :: (content ++ .inl brace :: vs)) ∧
    fill gap = [] ∧ Inside (fill content)

variable {env : Environ}

theorem fill_symbols (d : Text) : fill (d.map Sum.inl) = d := by
  induction d with
  | nil => rfl
  | cons c d ih => rw [List.map_cons, Fill.fill_symbol, ih]

theorem fill_token {t : Token} {v : Text} (h : t.value env = .ok v) : fill (t.pieces env) = v := by
  have hv := value_ok.mp h
  unfold Token.pieces
  cases he : env t.name with
  | some w =>
    rw [he] at hv
    cases hv
    exact List.append_nil _
  | none =>
    rw [he, Option.none_or] at hv
    rw [hv]
    exact fill_symbols v

theorem fill_pieces {ps : List (CodePoint ⊕ Token)} {r : Text} (h : Matcher.tryPieces (Token.value env) ps = .ok r) :
    fill (ps.flatMap (Sum.elim (fun c => [.inl c]) (Token.pieces env))) = r := by
  induction ps generalizing r with
  | nil => cases h; rfl
  | cons p ps ih =>
    cases p with
    | inl c =>
      obtain ⟨q, hq, e⟩ := map_ok.mp h
      subst e
      exact congrArg (c :: ·) (ih hq)
    | inr t =>
      obtain ⟨v, hv, h⟩ := bind_ok.mp h
      obtain ⟨q, hq, e⟩ := map_ok.mp h
      subst e
      rw [List.flatMap_cons, Fill.fill_append, ih hq]
      exact congrArg (· ++ q) (fill_token hv)

theorem fill_laid {s r : Text} (h : resolveEnv env s = .ok r) : fill (laid env s) = r := fill_pieces h

theorem laid_block {s b : Text} (h : .inr b ∈ laid env s) : ∃ n, env n = some b := by
  obtain ⟨p, -, hp⟩ := List.mem_flatMap.mp h
  cases p with
  | inl c => simp at hp
  | inr t =>
    have hp : .inr b ∈ t.pieces env := hp
    unfold Token.pieces at hp
    cases he : env t.name with
    | some v =>
      rw [he] at hp
      cases List.mem_singleton.mp hp
      exact ⟨_, he⟩
    | none =>
      rw [he] at hp
      obtain ⟨c, -, e⟩ := List.mem_map.mp hp
      cases e

theorem laid_free (henv : Plain env) (s : Text) :
    Fill.Free dollar (laid env s) ∧ Fill.Free openBrace (laid env s) ∧ Fill.Free brace (laid env s) := by
  refine ⟨fun b hb => ?_, fun b hb => ?_, fun b hb => ?_⟩
  all_goals obtain ⟨n, hn⟩ := laid_block hb
  · exact (henv n b hn).1
  · exact (henv n b hn).2.1
  · exact (henv n b hn).2.2

theorem text_inside (t : Token) (y : Text) :
    t.text ++ y = dollar :: ([] ++ openBrace :: ((t.name ++ t.default.elim [] fun d => dash ++ d) ++ brace :: y)) := by
  have h : opening = [dollar, openBrace] := rfl
  rw [Token.text, h]
  simp only [List.cons_append, List.nil_append, List.append_assoc]

/-- A token of what a text resolves to is framed in the text. -/
theorem hasToken_iff (henv : Plain env) {s r : Text} (h : resolveEnv env s = .ok r) : HasToken r ↔ Framed env s := by
  obtain ⟨hdollar, hopen, hclose⟩ := laid_free henv s
  rw [← fill_laid h]
  constructor
  · rintro ⟨x, t, y, ht, h⟩
    rw [text_inside] at h
    obtain ⟨us, vs, e, -, hvs⟩ := Fill.split_symbol hdollar h
    rw [e] at hopen hclose
    have hopen := Fill.Free.tail hopen.right
    have hclose := Fill.Free.tail hclose.right
    obtain ⟨gap, ws, e₁, hgap, hws⟩ := Fill.split_symbol hopen hvs
    rw [e₁] at hclose
    have hclose := Fill.Free.tail hclose.right
    obtain ⟨content, rest, e₂, hcontent, -⟩ := Fill.split_symbol hclose hws
    subst e₂ e₁
    exact ⟨us, gap, content, rest, e, hgap, t, ht, hcontent⟩
  · rintro ⟨us, gap, content, vs, e, hgap, t, ht, hcontent⟩
    refine ⟨fill us, t, fill vs, ht, ?_⟩
    rw [e, text_inside, ← hcontent]
    simp only [Fill.fill_append, Fill.fill_symbol, hgap]

/-- A text without tokens resolves to itself. -/
theorem resolveEnv_none {s : Text} (h : ¬ HasToken s) : resolveEnv env s = .ok s := by
  have hread : ∀ x, x ≠ [] → x <:+ s → envPattern.read (x ++ []) = none := by
    intro x _ hx
    by_contra hne
    obtain ⟨⟨t, rest⟩, hr⟩ := Option.ne_none_iff_exists'.mp hne
    rw [List.append_nil] at hr
    obtain ⟨ht, e⟩ := readToken_iff.mp hr
    obtain ⟨before, hb⟩ := hx
    exact h ⟨before, t, rest, ht, by rw [← hb, e]⟩
  have hscan := Matcher.scan_literal hread
  rw [List.append_nil] at hscan
  rw [resolveEnv, Matcher.tryReplaced, hscan, Matcher.tryPieces_literal]
  show Except.ok (s ++ []) = _
  rw [List.append_nil]

/-! ## Trees -/

variable {A : Type}

mutual

/-- The strings of a structure. -/
def Node.strings : Node A → List Text
  | .dict members => memberStrings members
  | .list items => itemStrings items
  | .str s => [s]
  | .other _ => []

def itemStrings : List (Node A) → List Text
  | [] => []
  | v :: vs => v.strings ++ itemStrings vs

def memberStrings : List (Text × Node A) → List Text
  | [] => []
  | m :: ms => m.2.strings ++ memberStrings ms

end

mutual

/-- The strings of a structure are resolved one by one. -/
theorem resolveTree_strings (node : Node A) {r : Node A} (h : resolveTree env node = .ok r) :
    List.Forall₂ (fun s s' => resolveEnv env s = .ok s') node.strings r.strings := by
  match node with
  | .dict members =>
    obtain ⟨rs, hrs, e⟩ := map_ok.mp h
    subst e
    exact resolveMembers_strings members hrs
  | .list items =>
    obtain ⟨rs, hrs, e⟩ := map_ok.mp h
    subst e
    exact resolveItems_strings items hrs
  | .str s =>
    obtain ⟨s', hs, e⟩ := map_ok.mp h
    subst e
    exact .cons hs .nil
  | .other a =>
    cases h
    exact .nil

theorem resolveItems_strings (items : List (Node A)) {rs : List (Node A)} (h : resolveItems env items = .ok rs) :
    List.Forall₂ (fun s s' => resolveEnv env s = .ok s') (itemStrings items) (itemStrings rs) := by
  match items with
  | [] =>
    cases h
    exact .nil
  | v :: vs =>
    obtain ⟨r, hr, h⟩ := bind_ok.mp h
    obtain ⟨rs', hrs, e⟩ := map_ok.mp h
    subst e
    exact List.rel_append (resolveTree_strings v hr) (resolveItems_strings vs hrs)

theorem resolveMembers_strings (members : List (Text × Node A)) {rs : List (Text × Node A)}
    (h : resolveMembers env members = .ok rs) :
    List.Forall₂ (fun s s' => resolveEnv env s = .ok s') (memberStrings members) (memberStrings rs) := by
  match members with
  | [] =>
    cases h
    exact .nil
  | m :: ms =>
    obtain ⟨r, hr, h⟩ := bind_ok.mp h
    obtain ⟨rs', hrs, e⟩ := map_ok.mp h
    subst e
    exact List.rel_append (resolveTree_strings m.2 hr) (resolveMembers_strings ms hrs)

end

theorem strings_clean (henv : Plain env) {ss rs : List Text} (h : List.Forall₂ (fun s s' => resolveEnv env s = .ok s') ss rs) :
    (∀ r ∈ rs, ¬ HasToken r) ↔ ∀ s ∈ ss, ¬ Framed env s := by
  induction h with
  | nil => simp
  | cons hs _ ih => rw [List.forall_mem_cons, List.forall_mem_cons, ih, hasToken_iff henv hs]

/-- With values without `$` and braces: what a text resolves to has no token, and resolves
    to itself, iff the text frames none; and the strings of what a tree resolves to have
    none iff no string of the tree frames one. -/
theorem resolved_clean_iff (henv : Plain env) :
    (∀ s r, resolveEnv env s = .ok r → ((¬ HasToken r ∧ resolveEnv env r = .ok r) ↔ ¬ Framed env s)) ∧
      ∀ node r : Node A, resolveTree env node = .ok r → ((∀ leaf ∈ r.strings, ¬ HasToken leaf) ↔ ∀ s ∈ node.strings, ¬ Framed env s) := by
  constructor
  · intro s r h
    rw [← hasToken_iff henv h]
    constructor
    · rintro ⟨hno, -⟩
      exact hno
    · intro hno
      exact ⟨hno, resolveEnv_none hno⟩
  · intro node r h
    exact strings_clean henv (resolveTree_strings node h)

theorem onlyB_plain : Plain onlyB := by
  intro n v h
  unfold onlyB at h
  split at h
  · cases h
    decide
  · cases h

/-- A tree with one reference, which is resolved. -/
theorem resolved_clean_iff_demo :
    (∀ leaf ∈ (Node.list [.str (Text.ofString "x"), .other ()]).strings, ¬ HasToken leaf) ↔
      ∀ s ∈ (Node.list [.str tokenB.text, .other ()]).strings, ¬ Framed onlyB s :=
  (resolved_clean_iff onlyB_plain).2 _ _ rfl

/-- A default that refers to a variable: its closing brace ends the outer token, and the
    reference stays. -/
theorem nested_default_stays :
    Plain onlyB ∧ resolveEnv onlyB (Text.ofString "$\x7bA:-$\x7bB:-c\x7d\x7d") = .ok (Text.ofString "$\x7bB:-c\x7d") ∧
      HasToken (Text.ofString "$\x7bB:-c\x7d") := by
  refine ⟨onlyB_plain, rfl, [], ⟨Text.ofString "B", some (Text.ofString "c")⟩, [], ?_, rfl⟩
  refine ⟨tokenB_wellFormed.name, fun d hd => ?_⟩
  cases hd
  decide

end SagaAgents.Config.Env
