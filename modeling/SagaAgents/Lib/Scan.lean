/-
  Lib.Scan — the leftmost matches of a token in a text, as `re.sub` and `re.findall`
  find them.

  A `Matcher` reads a token that starts at the head of a text; a token is never empty.
  `scan` cuts the text into tokens and the symbols that are in none. What a text scans to
  decides what is found in it (`found`) and what it becomes when each token is replaced
  (`replaced`).

  Proved: `scan_cons` (the equation of a scan), `scan_append`: a text scans in two parts
  where no token crosses the cut; `scan_append_sep`: so it does at a symbol that is in none
  of its tokens, if a token reads the same whatever follows it; `scan_around`: a token is
  found between any two texts that it is not cut from.
-/

import Mathlib.Data.List.Basic
import SagaAgents.Lib.Raises

namespace Lib

variable {γ α : Type*}

/-- The rest of the text after `lit`. -/
def expect [DecidableEq γ] : List γ → List γ → Option (List γ)
  | [], cs => some cs
  | _ :: _, [] => none
  | l :: ls, c :: cs => if l = c then expect ls cs else none

@[simp] theorem expect_append [DecidableEq γ] (lit cs : List γ) : expect lit (lit ++ cs) = some cs := by
  induction lit with
  | nil => rfl
  | cons l ls ih => simpa [expect] using ih

theorem expect_some [DecidableEq γ] {lit cs rest : List γ} (h : expect lit cs = some rest) : cs = lit ++ rest := by
  induction lit generalizing cs with
  | nil => cases h; rfl
  | cons l ls ih =>
    cases cs with
    | nil => cases h
    | cons c cs =>
      simp only [expect] at h
      split at h
      · rename_i e
        rw [e, ih h, List.cons_append]
      · cases h

/-- The parts before and after the first `sep` (`str.find`). -/
def breakAt [DecidableEq γ] (sep : List γ) : List γ → Option (List γ × List γ)
  | [] => (expect sep []).map fun rest => ([], rest)
  | c :: cs =>
    match expect sep (c :: cs) with
    | some rest => some ([], rest)
    | none => (breakAt sep cs).map fun p => (c :: p.1, p.2)

theorem expect_extend [DecidableEq γ] {lit cs rest : List γ} (h : expect lit cs = some rest) (x : List γ) :
    expect lit (cs ++ x) = some (rest ++ x) := by
  rw [expect_some h, List.append_assoc, expect_append]

theorem expect_none_extend [DecidableEq γ] {lit cs : List γ} (h : expect lit cs = none) (hl : lit.length ≤ cs.length)
    (x : List γ) : expect lit (cs ++ x) = none := by
  induction lit generalizing cs with
  | nil => cases h
  | cons l ls ih =>
    cases cs with
    | nil => simp at hl
    | cons c cs =>
      simp only [List.cons_append, expect] at h ⊢
      split at h
      · rename_i e
        rw [if_pos e]
        exact ih h (by simpa using hl)
      · rename_i e
        rw [if_neg e]

theorem breakAt_some [DecidableEq γ] {sep cs u v : List γ} (h : breakAt sep cs = some (u, v)) : cs = u ++ sep ++ v := by
  induction cs generalizing u with
  | nil =>
    obtain ⟨rest, hr, e⟩ := Option.map_eq_some_iff.mp h
    cases e
    exact expect_some hr
  | cons c cs ih =>
    unfold breakAt at h
    split at h
    · rename_i rest hr
      cases h
      exact expect_some hr
    · obtain ⟨p, hp, e⟩ := Option.map_eq_some_iff.mp h
      cases e
      rw [ih hp]
      rfl

/-- Where the first `sep` is does not depend on what follows it. -/
theorem breakAt_extend [DecidableEq γ] {sep cs u v : List γ} (h : breakAt sep cs = some (u, v)) (x : List γ) :
    breakAt sep (cs ++ x) = some (u, v ++ x) := by
  induction cs generalizing u with
  | nil =>
    obtain ⟨rest, hr, e⟩ := Option.map_eq_some_iff.mp h
    cases e
    have hx := expect_extend hr x
    cases x with
    | nil => simpa [breakAt] using hx
    | cons c cs =>
      rw [List.nil_append] at hx ⊢
      rw [breakAt, hx]
  | cons c cs ih =>
    unfold breakAt at h
    rw [List.cons_append, breakAt, ← List.cons_append]
    split at h
    · rename_i rest hr
      cases h
      rw [expect_extend hr x]
    · rename_i hr
      obtain ⟨p, hp, e⟩ := Option.map_eq_some_iff.mp h
      cases e
      have hlen : sep.length ≤ (c :: cs).length := by
        rw [breakAt_some hp]
        simp only [List.length_cons, List.length_append]
        omega
      rw [expect_none_extend hr hlen x, ih hp]
      rfl

structure Matcher (γ α : Type*) where
  read : List γ → Option (α × List γ)
  shorter : ∀ cs a rest, read cs = some (a, rest) → rest.length < cs.length

namespace Matcher

variable (m : Matcher γ α)

/-- The scan, with fuel. -/
def scanFrom : Nat → List γ → List (γ ⊕ α)
  | 0, _ | _ + 1, [] => []
  | n + 1, c :: cs =>
    match m.read (c :: cs) with
    | some (a, rest) => .inr a :: scanFrom n rest
    | none => .inl c :: scanFrom n cs

def scan (cs : List γ) : List (γ ⊕ α) := m.scanFrom cs.length cs

/-- The tokens of a text, in order. -/
def found (cs : List γ) : List α := (m.scan cs).filterMap Sum.getRight?

/-- The text with each token replaced. -/
def replaced (f : α → List γ) (cs : List γ) : List γ := (m.scan cs).flatMap (Sum.elim (fun c => [c]) f)

variable {m}

/-- A text's length is fuel enough. -/
theorem scanFrom_enough {n : Nat} {cs : List γ} (h : cs.length ≤ n) : m.scanFrom n cs = m.scan cs := by
  unfold scan
  induction n using Nat.strongRecOn generalizing cs with
  | ind n ih =>
    cases cs with
    | nil => cases n <;> rfl
    | cons c cs =>
      cases n with
      | zero => simp at h
      | succ n =>
        have h : cs.length ≤ n := by simpa using h
        simp only [scanFrom, List.length_cons]
        cases hr : m.read (c :: cs) with
        | none =>
          simp only
          rw [ih n (Nat.lt_succ_self n) h]
        | some p =>
          have hs : p.2.length ≤ cs.length := by
            have := m.shorter _ p.1 p.2 hr
            simp only [List.length_cons] at this
            omega
          simp only
          rw [ih n (Nat.lt_succ_self n) (Nat.le_trans hs h), ih cs.length (by omega) hs]

@[simp] theorem scan_nil : m.scan [] = [] := rfl

theorem scan_cons (c : γ) (cs : List γ) :
    m.scan (c :: cs) =
      match m.read (c :: cs) with
      | some (a, rest) => .inr a :: m.scan rest
      | none => .inl c :: m.scan cs := by
  show m.scanFrom (cs.length + 1) (c :: cs) = _
  simp only [scanFrom]
  cases hr : m.read (c :: cs) with
  | none => rfl
  | some p =>
    have := m.shorter _ p.1 p.2 hr
    simp only
    rw [scanFrom_enough (by simpa [Nat.lt_succ_iff] using this)]

theorem scan_read {cs rest : List γ} {a : α} (h : m.read cs = some (a, rest)) : m.scan cs = .inr a :: m.scan rest := by
  cases cs with
  | nil =>
    have := m.shorter _ _ _ h
    simp at this
  | cons c cs => rw [scan_cons, h]

theorem scan_skip {c : γ} {cs : List γ} (h : m.read (c :: cs) = none) : m.scan (c :: cs) = .inl c :: m.scan cs := by
  rw [scan_cons, h]

/-- No token of `a ++ b` begins in `a` and ends in `b`. -/
def NoCross (m : Matcher γ α) (a b : List γ) : Prop :=
  ∀ s, s ≠ [] → s <:+ a → m.read (s ++ b) = (m.read s).map fun p => (p.1, p.2 ++ b)

theorem NoCross.suffix {a b s : List γ} (h : NoCross m a b) (hs : s <:+ a) : NoCross m s b :=
  fun t hne ht => h t hne (ht.trans hs)

/-- What a token leaves is the end of the text. -/
def Suffixes (m : Matcher γ α) : Prop := ∀ cs a rest, m.read cs = some (a, rest) → rest <:+ cs

theorem scan_append (hm : m.Suffixes) {a b : List γ} (h : NoCross m a b) : m.scan (a ++ b) = m.scan a ++ m.scan b := by
  induction hn : a.length using Nat.strongRecOn generalizing a with
  | ind n ih =>
    subst hn
    cases a with
    | nil => rfl
    | cons c cs =>
      have hc := h (c :: cs) (by simp) (List.suffix_refl _)
      cases hr : m.read (c :: cs) with
      | none =>
        have e : m.read (c :: (cs ++ b)) = none := by rw [hr] at hc; exact hc
        rw [List.cons_append, scan_skip e, scan_skip hr, ih cs.length (by simp) (h.suffix (List.suffix_cons c cs)) rfl]
        rfl
      | some p =>
        obtain ⟨x, rest⟩ := p
        have e : m.read ((c :: cs) ++ b) = some (x, rest ++ b) := by rw [hr] at hc; exact hc
        rw [scan_read e, scan_read hr, ih rest.length (m.shorter _ _ _ hr) (h.suffix (hm _ _ _ hr)) rfl]
        rfl

/-! ## Tokens that read the same whatever follows -/

/-- `text` is the text of a token, and reads as the token. -/
structure Printed (m : Matcher γ α) (text : α → List γ) : Prop where
  reads : ∀ cs a rest, m.read cs = some (a, rest) → cs = text a ++ rest
  again : ∀ cs a rest x, m.read cs = some (a, rest) → m.read (text a ++ x) = some (a, x)

theorem scan_append_sep {text : α → List γ} (hp : m.Printed text) {a b : List γ} {sep : γ}
    (h : ∀ t ∈ m.found (a ++ sep :: b), sep ∉ text t) : m.scan (a ++ sep :: b) = m.scan a ++ m.scan (sep :: b) := by
  induction hn : a.length using Nat.strongRecOn generalizing a with
  | ind n ih =>
    subst hn
    cases a with
    | nil => rfl
    | cons c cs =>
      cases hr : m.read ((c :: cs) ++ sep :: b) with
      | none =>
        have hno : m.read (c :: cs) = none := by
          cases ha : m.read (c :: cs) with
          | none => rfl
          | some p =>
            have := hp.again _ _ _ (p.2 ++ sep :: b) ha
            rw [← List.append_assoc, ← hp.reads _ _ _ ha, hr] at this
            cases this
        have e : m.scan ((c :: cs) ++ sep :: b) = .inl c :: m.scan (cs ++ sep :: b) := scan_skip hr
        have hf : ∀ t ∈ m.found (cs ++ sep :: b), sep ∉ text t := by
          intro t ht
          refine h t ?_
          rw [found, e]
          exact ht
        rw [e, scan_skip hno, ih cs.length (by simp) hf rfl]
        rfl
      | some p =>
        obtain ⟨t, rest⟩ := p
        have e := scan_read hr
        have hin : t ∈ m.found ((c :: cs) ++ sep :: b) := by
          rw [found, e]
          exact List.mem_cons_self
        -- the token ends before the symbol
        obtain ⟨a', ha, hrest⟩ : ∃ a', c :: cs = text t ++ a' ∧ rest = a' ++ sep :: b := by
          rcases List.append_eq_append_iff.mp (hp.reads _ _ _ hr) with ⟨d, hd, hs⟩ | ⟨d, hd, hs⟩
          · cases d with
            | nil => exact ⟨[], by simpa using hd.symm, by simpa using hs.symm⟩
            | cons s ds =>
              cases (List.cons.inj hs).1
              exact absurd (hd ▸ List.mem_append_right _ List.mem_cons_self) (h t hin)
          · exact ⟨d, hd, hs⟩
        have hra : m.read (c :: cs) = some (t, a') := by
          rw [ha]
          exact hp.again _ _ _ a' hr
        have hf : ∀ u ∈ m.found (a' ++ sep :: b), sep ∉ text u := by
          intro u hu
          refine h u ?_
          rw [found, e, hrest]
          exact List.mem_cons_of_mem _ hu
        rw [e, scan_read hra, hrest, ih a'.length (m.shorter _ _ _ hra) hf rfl]
        rfl

/-! ## A token between two texts -/

/-- A token reads the same whatever follows it. -/
def SelfDelimiting (m : Matcher γ α) : Prop :=
  ∀ cs a rest, m.read cs = some (a, rest) → ∃ t, cs = t ++ rest ∧ ∀ x, m.read (t ++ x) = some (a, x)

theorem Printed.selfDelimiting {text : α → List γ} (hp : m.Printed text) : m.SelfDelimiting :=
  fun cs a rest h => ⟨text a, hp.reads cs a rest h, fun x => hp.again cs a rest x h⟩

theorem SelfDelimiting.suffixes (hm : m.SelfDelimiting) : m.Suffixes := by
  intro cs a rest h
  obtain ⟨t, e, -⟩ := hm cs a rest h
  exact ⟨t, e.symm⟩

/-- No token crosses a cut, if none is an end of the one text and a beginning of the other. -/
theorem noCross_of (hm : m.SelfDelimiting) {a b : List γ}
    (h : ∀ s y k, s ≠ [] → y ≠ [] → s <:+ a → y <+: b → m.read (s ++ y) ≠ some (k, [])) : NoCross m a b := by
  intro s hne hs
  cases hr : m.read (s ++ b) with
  | none =>
    cases hr' : m.read s with
    | none => rfl
    | some p =>
      obtain ⟨t, e, ht⟩ := hm s p.1 p.2 hr'
      rw [e, List.append_assoc, ht] at hr
      cases hr
  | some p =>
    obtain ⟨k, rest⟩ := p
    obtain ⟨t, e, ht⟩ := hm _ k rest hr
    rcases List.append_eq_append_iff.mp e with ⟨y, hy, hb⟩ | ⟨y, hy, hrest⟩
    · by_cases hnil : y = []
      · -- the token ends at the cut
        subst hnil
        have hread := ht []
        rw [hy] at hread
        rw [List.append_nil, List.append_nil] at hread
        rw [hread]
        rw [List.nil_append] at hb
        rw [hb]
        rfl
      · have hread := ht []
        rw [List.append_nil, hy] at hread
        exact absurd hread (h s y k hne hnil hs ⟨rest, hb.symm⟩)
    · rw [hy, ht, hrest]
      rfl

theorem scan_around (hm : m.SelfDelimiting) {a t b : List γ} {k : α} (ht : m.read (t ++ b) = some (k, b))
    (h : ∀ s y j, s ≠ [] → y ≠ [] → s <:+ a → y <+: t ++ b → m.read (s ++ y) ≠ some (j, [])) :
    m.scan (a ++ t ++ b) = m.scan a ++ .inr k :: m.scan b := by
  rw [List.append_assoc, scan_append hm.suffixes (noCross_of hm h), scan_read ht]

theorem mem_of_literal {text : α → List γ} (hp : m.Printed text) {c : γ} {cs : List γ} (h : Sum.inl c ∈ m.scan cs) : c ∈ cs := by
  induction hn : cs.length using Nat.strongRecOn generalizing cs with
  | ind n ih =>
    subst hn
    cases cs with
    | nil => cases h
    | cons d ds =>
      cases hr : m.read (d :: ds) with
      | none =>
        rw [scan_skip hr] at h
        rcases List.mem_cons.mp h with h | h
        · cases h
          exact List.mem_cons_self
        · exact List.mem_cons_of_mem _ (ih ds.length (by simp) h rfl)
      | some p =>
        obtain ⟨a, rest⟩ := p
        rw [scan_read hr] at h
        rcases List.mem_cons.mp h with h | h
        · cases h
        · rw [hp.reads _ _ _ hr]
          exact List.mem_append_right _ (ih rest.length (m.shorter _ _ _ hr) h rfl)

theorem found_reads {text : α → List γ} (hp : m.Printed text) {cs : List γ} {a : α} (h : Sum.inr a ∈ m.scan cs) :
    ∃ s rest, s <:+ cs ∧ m.read s = some (a, rest) := by
  induction hn : cs.length using Nat.strongRecOn generalizing cs with
  | ind n ih =>
    subst hn
    cases cs with
    | nil => cases h
    | cons d ds =>
      cases hr : m.read (d :: ds) with
      | none =>
        rw [scan_skip hr] at h
        rcases List.mem_cons.mp h with h | h
        · cases h
        · obtain ⟨s, rest, hs, hread⟩ := ih ds.length (by simp) h rfl
          exact ⟨s, rest, hs.trans (List.suffix_cons d ds), hread⟩
      | some p =>
        obtain ⟨b, rest⟩ := p
        rw [scan_read hr] at h
        rcases List.mem_cons.mp h with h | h
        · cases h
          exact ⟨_, rest, List.suffix_refl _, hr⟩
        · obtain ⟨s, rest', hs, hread⟩ := ih rest.length (m.shorter _ _ _ hr) h rfl
          exact ⟨s, rest', hs.trans ⟨text b, (hp.reads _ _ _ hr).symm⟩, hread⟩

/-- Before text that begins no token. -/
theorem scan_literal {a b : List γ} (h : ∀ s, s ≠ [] → s <:+ a → m.read (s ++ b) = none) :
    m.scan (a ++ b) = a.map Sum.inl ++ m.scan b := by
  induction a with
  | nil => rfl
  | cons c cs ih =>
    have hc : m.read (c :: (cs ++ b)) = none := h (c :: cs) (by simp) (List.suffix_refl _)
    rw [List.cons_append, scan_skip hc, ih fun s hne hs => h s hne (hs.trans (List.suffix_cons c cs))]
    rfl

/-! ## Replacements that can fail -/

variable {ε : Type*}

/-- The pieces of a text, with each token replaced. -/
def tryPieces (f : α → Except ε (List γ)) : List (γ ⊕ α) → Except ε (List γ)
  | [] => .ok []
  | .inl c :: ps => (tryPieces f ps).map fun r => c :: r
  | .inr a :: ps => (f a).bind fun v => (tryPieces f ps).map fun r => v ++ r

/-- The text with each token replaced; the first one that fails is the error. -/
def tryReplaced (m : Matcher γ α) (f : α → Except ε (List γ)) (cs : List γ) : Except ε (List γ) := tryPieces f (m.scan cs)

variable {f g : α → Except ε (List γ)}

theorem tryPieces_literal (a : List γ) (ps : List (γ ⊕ α)) :
    tryPieces f (a.map Sum.inl ++ ps) = (tryPieces f ps).map fun r => a ++ r := by
  induction a with
  | nil => cases h : tryPieces f ps <;> simp [h, Except.map]
  | cons c cs ih =>
    rw [List.map_cons, List.cons_append, tryPieces, ih]
    cases tryPieces f ps <;> rfl

theorem tryPieces_append {ps qs : List (γ ⊕ α)} {r : List γ} (h : tryPieces f (ps ++ qs) = .ok r) :
    ∃ x y, tryPieces f ps = .ok x ∧ tryPieces f qs = .ok y ∧ r = x ++ y := by
  induction ps generalizing r with
  | nil => exact ⟨[], r, rfl, h, rfl⟩
  | cons p ps ih =>
    cases p with
    | inl c =>
      obtain ⟨r', hr, e⟩ := map_ok.mp h
      obtain ⟨x, y, hx, hy, e'⟩ := ih hr
      subst e'
      exact ⟨c :: x, y, by rw [tryPieces, hx]; rfl, hy, e.symm⟩
    | inr a =>
      obtain ⟨v, hv, h⟩ := bind_ok.mp h
      obtain ⟨r', hr, e⟩ := map_ok.mp h
      obtain ⟨x, y, hx, hy, e'⟩ := ih hr
      subst e'
      exact ⟨v ++ x, y, by rw [tryPieces, hv, hx]; rfl, hy, by rw [← e, List.append_assoc]⟩

theorem tryPieces_append_ok {ps qs : List (γ ⊕ α)} {x y : List γ} (hx : tryPieces f ps = .ok x) (hy : tryPieces f qs = .ok y) :
    tryPieces f (ps ++ qs) = .ok (x ++ y) := by
  induction ps generalizing x with
  | nil => cases hx; exact hy
  | cons p ps ih =>
    cases p with
    | inl c =>
      obtain ⟨z, hz, e⟩ := map_ok.mp hx
      subst e
      rw [List.cons_append, tryPieces, ih hz]
      rfl
    | inr a =>
      obtain ⟨v, hv, hx⟩ := bind_ok.mp hx
      obtain ⟨z, hz, e⟩ := map_ok.mp hx
      subst e
      rw [List.cons_append, tryPieces, hv, ih hz, List.append_assoc]
      rfl

/-- Where nothing fails, there is a text. -/
theorem tryPieces_total (h : ∀ a, ∃ v, f a = .ok v) (ps : List (γ ⊕ α)) : ∃ r, tryPieces f ps = .ok r := by
  induction ps with
  | nil => exact ⟨[], rfl⟩
  | cons p ps ih =>
    obtain ⟨r, hr⟩ := ih
    cases p with
    | inl c => exact ⟨c :: r, by rw [tryPieces, hr]; rfl⟩
    | inr a =>
      obtain ⟨v, hv⟩ := h a
      exact ⟨v ++ r, by rw [tryPieces, hv, hr]; rfl⟩

theorem tryPieces_congr {ps : List (γ ⊕ α)} (h : ∀ a, Sum.inr a ∈ ps → f a = g a) : tryPieces f ps = tryPieces g ps := by
  induction ps with
  | nil => rfl
  | cons p ps ih =>
    have ih := ih fun a ha => h a (List.mem_cons_of_mem _ ha)
    cases p with
    | inl c => rw [tryPieces, tryPieces, ih]
    | inr a => rw [tryPieces, tryPieces, ih, h a List.mem_cons_self]

theorem mem_found {a : α} {cs : List γ} : a ∈ m.found cs ↔ Sum.inr a ∈ m.scan cs := by
  unfold found
  rw [List.mem_filterMap]
  constructor
  · rintro ⟨p, hp, h⟩
    cases p with
    | inl c => cases h
    | inr b => cases h; exact hp
  · exact fun h => ⟨_, h, rfl⟩

theorem tryReplaced_congr {cs : List γ} (h : ∀ a ∈ m.found cs, f a = g a) : m.tryReplaced f cs = m.tryReplaced g cs :=
  tryPieces_congr fun a ha => h a (mem_found.mpr ha)

/-- What holds of the symbols that are in no token, and of those that replace tokens. -/
theorem tryPieces_all {P : γ → Prop} {ps : List (γ ⊕ α)} {r : List γ} (h : tryPieces f ps = .ok r)
    (hc : ∀ c, Sum.inl c ∈ ps → P c) (hv : ∀ a, Sum.inr a ∈ ps → ∀ v, f a = .ok v → ∀ c ∈ v, P c) : ∀ c ∈ r, P c := by
  induction ps generalizing r with
  | nil => cases h; intro c hm; cases hm
  | cons p ps ih =>
    have hc' : ∀ c, Sum.inl c ∈ ps → P c := fun c hm => hc c (List.mem_cons_of_mem _ hm)
    have hv' : ∀ a, Sum.inr a ∈ ps → ∀ v, f a = .ok v → ∀ c ∈ v, P c := fun a hm => hv a (List.mem_cons_of_mem _ hm)
    cases p with
    | inl c =>
      obtain ⟨r', hr, e⟩ := map_ok.mp h
      subst e
      intro d hd
      rcases List.mem_cons.mp hd with hd | hd
      · rw [hd]
        exact hc c List.mem_cons_self
      · exact ih hr hc' hv' d hd
    | inr a =>
      obtain ⟨v, hva, h⟩ := bind_ok.mp h
      obtain ⟨r', hr, e⟩ := map_ok.mp h
      subst e
      intro d hd
      rcases List.mem_append.mp hd with hd | hd
      · exact hv a List.mem_cons_self v hva d hd
      · exact ih hr hc' hv' d hd

/-- A text without tokens stays as it is. -/
theorem replaced_none {cs : List γ} (h : m.found cs = []) (f : α → List γ) : m.replaced f cs = cs := by
  induction cs with
  | nil => rfl
  | cons c cs ih =>
    cases hr : m.read (c :: cs) with
    | some p =>
      rw [found, scan_read hr] at h
      cases h
    | none =>
      rw [found, scan_skip hr] at h
      rw [replaced, scan_skip hr]
      exact congrArg (c :: ·) (ih h)

end Matcher

end Lib
