/-
  Lib.JsonRoundTrip — `json.loads` gives back what `json.dumps` has written.

  Proved, in every style: every text that `dumps` writes is read (`loads_written`), as the
  value with the surrogate pairs of its strings joined and its mappings' keys made distinct
  (`reread`); and as the value itself when its strings are scalar values and its mappings
  have distinct keys (`loads_dumps`). A text is read one layer at a time: what `print`
  writes for a value is read, whatever follows it in a list, in a mapping or at the end
  (`Ends`).
-/

import SagaAgents.Lib.Json

namespace Lib.Json

/-! ## Numbers -/

/-- What may follow a value. -/
def Ends (rest : List Char) : Prop := ∀ c cs, rest = c :: cs → c = ',' ∨ c = ']' ∨ c = '}'

def NoDigit (rest : List Char) : Prop := ∀ c cs, rest = c :: cs → c.isDigit = false

theorem takeWhile_digits {ds rest : List Char} (hd : ∀ c ∈ ds, c.isDigit = true) (hr : NoDigit rest) :
    (ds ++ rest).takeWhile Char.isDigit = ds ∧ (ds ++ rest).dropWhile Char.isDigit = rest := by
  rw [List.takeWhile_append_of_pos hd, List.dropWhile_append_of_pos hd]
  cases rest with
  | nil => simp
  | cons c cs => simp [hr c cs rfl]

theorem Ends.noDigit {rest : List Char} (h : Ends rest) : NoDigit rest := by
  intro c cs e
  rcases h c cs e with rfl | rfl | rfl <;> rfl

theorem scanWhole_text {w rest : List Char} (hw : Whole w) (hr : NoDigit rest) :
    scanWhole (w ++ rest) = some (w, rest) := by
  obtain ⟨⟨hne, hd⟩, hz⟩ := hw
  cases w with
  | nil => exact absurd rfl hne
  | cons c cs =>
    by_cases hc : c = '0'
    · have : cs = [] := by simpa [hc] using hz (by simp [hc])
      simp [scanWhole, hc, this]
    · obtain ⟨ht, hdr⟩ := takeWhile_digits (fun x hx => hd x (List.mem_cons_of_mem _ hx)) hr
      simp only [List.cons_append, scanWhole, hc, if_false, hd c List.mem_cons_self, if_true, ht, hdr]

theorem scanFrac_text {f : Option (List Char)} {rest : List Char} (hf : ∀ ds, f = some ds → Digits ds) (hr : NoDigit rest)
    (hp : ∀ cs, rest ≠ '.' :: cs) : scanFrac (f.elim [] ('.' :: ·) ++ rest) = (f, rest) := by
  cases f with
  | none =>
    show scanFrac rest = _
    unfold scanFrac
    split
    · exact absurd rfl (hp _)
    · rfl
  | some ds =>
    obtain ⟨hne, hd⟩ := hf ds rfl
    obtain ⟨ht, hdr⟩ := takeWhile_digits hd hr
    show scanFrac ('.' :: (ds ++ rest)) = _
    simp only [scanFrac, ht, hdr, hne, if_false]

theorem scanSign_text {s : Option Char} {ds : List Char} (hs : s = none ∨ s = some '+' ∨ s = some '-') (hd : Digits ds)
    (rest : List Char) : scanSign (s.toList ++ (ds ++ rest)) = (s, ds ++ rest) := by
  rcases hs with rfl | rfl | rfl
  · obtain ⟨hne, hd⟩ := hd
    cases ds with
    | nil => exact absurd rfl hne
    | cons c cs =>
      have hc : c ≠ '+' ∧ c ≠ '-' := by
        have := hd c List.mem_cons_self
        constructor <;> (intro e; subst e; cases this)
      simp [scanSign, hc.1, hc.2]
  · rfl
  · rfl

theorem scanExp_text {x : Option Exponent} {rest : List Char} (hx : ∀ e, x = some e → e.Valid) (hr : Ends rest) :
    scanExp (x.elim [] Exponent.text ++ rest) = (x, rest) := by
  cases x with
  | none =>
    cases rest with
    | nil => rfl
    | cons c cs =>
      have hc : ¬ (c = 'e' ∨ c = 'E') := by
        rcases hr c cs rfl with rfl | rfl | rfl <;> decide
      simp [scanExp, hc]
  | some e =>
    obtain ⟨hm, hs, hd⟩ := hx e rfl
    have hsign := scanSign_text hs hd rest
    obtain ⟨ht, hdr⟩ := takeWhile_digits hd.2 hr.noDigit
    show scanExp (e.marker :: (e.sign.toList ++ e.digits) ++ rest) = _
    rw [List.cons_append, List.append_assoc]
    simp only [scanExp, hsign, ht, hdr, hm, hd.1, ne_eq, not_false_iff, and_self, if_true]

/-- After the fraction comes the exponent, or what follows the number. -/
theorem expText_head {l : Literal} (hl : l.Valid) {rest : List Char} (hr : Ends rest) :
    NoDigit (l.expText ++ rest) ∧ ∀ cs, l.expText ++ rest ≠ '.' :: cs := by
  unfold Literal.expText
  cases hx : l.exp with
  | none =>
    refine ⟨hr.noDigit, fun cs e => ?_⟩
    rcases hr '.' cs e with h | h | h <;> cases h
  | some e =>
    have hm := (hl.exp e hx).marker
    constructor
    · intro c cs h
      have : e.marker = c := (List.cons.inj h).1
      rcases hm with hm | hm <;> (rw [← this, hm]; rfl)
    · intro cs h
      have : e.marker = '.' := (List.cons.inj h).1
      rcases hm with hm | hm <;> (rw [hm] at this; cases this)

theorem fracText_head {l : Literal} (hl : l.Valid) {rest : List Char} (hr : Ends rest) :
    NoDigit (l.fracText ++ (l.expText ++ rest)) := by
  unfold Literal.fracText
  cases l.frac with
  | none => exact (expText_head hl hr).1
  | some f =>
    intro c cs h
    have : '.' = c := (List.cons.inj h).1
    rw [← this]
    rfl

/-- A literal starts with a digit, or with a minus and a digit. -/
theorem text_head {l : Literal} (hl : l.Valid) (rest : List Char) :
    ∃ c cs, c.isDigit = true ∧ l.text ++ rest = (if l.neg then ['-'] else []) ++ c :: cs := by
  obtain ⟨⟨hne, hd⟩, -⟩ := hl.whole
  cases hw : l.whole with
  | nil => exact absurd hw hne
  | cons c cs =>
    exact ⟨c, cs ++ (l.fracText ++ l.expText) ++ rest, hd c (by simp [hw]), by simp [Literal.text, hw]⟩

theorem scanNumber_text {l : Literal} (hl : l.Valid) {rest : List Char} (hr : Ends rest) :
    scanNumber (l.text ++ rest) = some (l, rest) := by
  have hbody : scanWhole (l.whole ++ (l.fracText ++ (l.expText ++ rest))) = some (l.whole, l.fracText ++ (l.expText ++ rest)) :=
    scanWhole_text hl.whole (fracText_head hl hr)
  have hfrac := scanFrac_text hl.frac (expText_head hl hr).1 (expText_head hl hr).2
  have hexp := scanExp_text hl.exp hr
  have htext : l.text ++ rest = (if l.neg then ['-'] else []) ++ (l.whole ++ (l.fracText ++ (l.expText ++ rest))) := by
    simp [Literal.text]
  have hminus : expect ['-'] (l.text ++ rest) =
      if l.neg then some (l.whole ++ (l.fracText ++ (l.expText ++ rest))) else none := by
    cases hn : l.neg with
    | true => simp [htext, hn, expect]
    | false =>
      obtain ⟨c, cs, hc, e⟩ := text_head hl rest
      have : '-' ≠ c := by
        intro h
        rw [← h] at hc
        cases hc
      rw [e, hn]
      simp [expect, this]
  have hrest : (expect ['-'] (l.text ++ rest)).getD (l.text ++ rest) = l.whole ++ (l.fracText ++ (l.expText ++ rest)) := by
    rw [hminus, htext]
    cases l.neg <;> rfl
  have hneg : (expect ['-'] (l.text ++ rest)).isSome = l.neg := by
    rw [hminus]
    cases l.neg <;> rfl
  simp only [scanNumber, hrest, hbody, Option.map_some, hneg]
  rw [show scanFrac (l.fracText ++ (l.expText ++ rest)) = (l.frac, l.expText ++ rest) from hfrac]
  simp only
  rw [show scanExp (l.expText ++ rest) = (l.exp, rest) from hexp]

/-- No constant starts like a number. -/
theorem constants_number {l : Literal} (hl : l.Valid) (rest : List Char) :
    (constants.findSome? fun c => (expect c.1 (l.text ++ rest)).map fun r => (c.2, r)) = none := by
  obtain ⟨c, cs, hc, e⟩ := text_head hl rest
  have hne : ∀ d : Char, d.isDigit = false → d ≠ c := by
    intro d hd h
    rw [h, hc] at hd
    cases hd
  rw [e]
  cases l.neg <;>
    simp [constants, expect, hne 'n' rfl, hne 't' rfl, hne 'f' rfl, hne 'N' rfl, hne 'I' rfl, hne '-' rfl]

theorem scanScalar_number {l : Literal} (hl : l.Valid) {rest : List Char} (hr : Ends rest) :
    scanScalar (l.text ++ rest) = (ofNumber l).map fun v => (v, rest) := by
  simp only [scanScalar, constants_number hl rest, scanNumber_text hl hr, Option.bind_some]

/-! ## Strings -/

theorem scanUnits_plain {c : Char} (hq : c ≠ '"') (hb : c ≠ '\\') (hc : 0x20 ≤ c.toNat) (cs : List Char) :
    scanUnits (c :: cs) = (scanUnits cs).map fun p => (CodePoint.ofChar c :: p.1, p.2) := by
  have hn : ¬ (c.toNat < 0x20 ∨ c = '\\') := by
    rintro (h | h)
    · omega
    · exact hb h
  rw [scanUnits.eq_def]
  split
  · rename_i h; cases h
  · rename_i h; exact absurd (List.cons.inj h).1 hb
  · rename_i h; exact absurd (List.cons.inj h).1 hb
  · rename_i h
    obtain ⟨rfl, rfl⟩ := List.cons.inj h
    rw [if_neg hq, if_neg hn]

theorem hexVal_digitChar : ∀ d, d < 16 → hexVal (Nat.digitChar d) = some d := by decide

theorem scanUnits_unicode {n : Nat} (hn : n < 0x10000) (cs : List Char) :
    scanUnits (unicodeEscape n ++ cs) = (scanUnits cs).map fun p => (Fin.ofNat _ n :: p.1, p.2) := by
  have hex : hex4 (Nat.digitChar (n / 4096 % 16)) (Nat.digitChar (n / 256 % 16)) (Nat.digitChar (n / 16 % 16))
      (Nat.digitChar (n % 16)) = some (Fin.ofNat _ n) := by
    have e : n / 4096 % 16 * 4096 + n / 256 % 16 * 256 + n / 16 % 16 * 16 + n % 16 = n := by omega
    simp only [hex4, hexVal_digitChar _ (Nat.mod_lt _ (by omega : 0 < 16)), e, bind, Option.bind, pure]
  show scanUnits ('\\' :: 'u' :: _ :: _ :: _ :: _ :: cs) = _
  rw [scanUnits, hex, Option.bind_some]

theorem scanUnits_short {e : Char} {n : Nat} (h : writtenEscape n = some e) (cs : List Char) :
    scanUnits ('\\' :: e :: cs) = (scanUnits cs).map fun p => (Fin.ofNat _ n :: p.1, p.2) := by
  have hread : e ≠ 'u' ∧ readEscape e = some (Fin.ofNat _ n) := by
    unfold writtenEscape at h
    split at h
    · cases h
    · obtain ⟨p, hp, rfl⟩ := Option.map_eq_some_iff.mp h
      have hn := List.find?_some hp
      have hm := List.mem_of_find?_eq_some hp
      have hn : p.2 = n := by simpa using hn
      subst hn
      have hall : ∀ p ∈ shortEscapes, p.1 ≠ 'u' ∧ readEscape p.1 = some (Fin.ofNat _ p.2) := by decide
      exact hall p hm
  rw [scanUnits.eq_def]
  split
  · rename_i h; cases h
  · rename_i h; exact absurd (List.cons.inj (List.cons.inj h).2).1 hread.1
  · rename_i h
    obtain ⟨-, h⟩ := List.cons.inj h
    obtain ⟨rfl, rfl⟩ := List.cons.inj h
    rw [hread.2, Option.bind_some]
  · rename_i h1 h2 h
    obtain ⟨rfl, rfl⟩ := List.cons.inj h
    exact absurd rfl (h2 e cs rfl)

theorem joinPairs_scalar {c : CodePoint} (hc : isScalar c = true) (us : List CodePoint) :
    joinPairs (c :: us) = c :: joinPairs us := by
  have hh : isHigh c = false := by
    simp only [isScalar, Bool.and_eq_true, Bool.not_eq_true'] at hc
    exact hc.1
  cases us with
  | nil => rfl
  | cons l us => simp [joinPairs, hh]

/-- The units of a scalar value join to it. -/
theorem joinPairs_units {c : CodePoint} (hc : isScalar c = true) (us : List CodePoint) :
    joinPairs (units c ++ us) = c :: joinPairs us := by
  unfold units
  split
  · exact joinPairs_scalar hc us
  · rename_i hlt
    have hb : c.val < 0x110000 := c.isLt
    have h1 : (Fin.ofNat 0x110000 (0xd800 + (c.val - 0x10000) / 0x400)).val = 0xd800 + (c.val - 0x10000) / 0x400 :=
      Nat.mod_eq_of_lt (by omega)
    have h2 : (Fin.ofNat 0x110000 (0xdc00 + (c.val - 0x10000) % 0x400)).val = 0xdc00 + (c.val - 0x10000) % 0x400 :=
      Nat.mod_eq_of_lt (by omega)
    have hpair : (isHigh (Fin.ofNat 0x110000 (0xd800 + (c.val - 0x10000) / 0x400)) &&
        isLow (Fin.ofNat 0x110000 (0xdc00 + (c.val - 0x10000) % 0x400))) = true := by
      simp only [isHigh, isLow, h1, h2, Bool.and_eq_true, decide_eq_true_iff]
      omega
    have e : 0x10000 + (0xd800 + (c.val - 0x10000) / 0x400 - 0xd800) * 0x400 +
        (0xdc00 + (c.val - 0x10000) % 0x400 - 0xdc00) = c.val := by omega
    simp only [List.cons_append, List.nil_append, joinPairs, hpair, if_true, h1, h2, e]
    rw [Fin.ofNat_val_eq_self]

theorem units_lt (c : CodePoint) : ∀ u ∈ units c, u.val < 0x10000 := by
  have hb : c.val < 0x110000 := c.isLt
  unfold units
  split
  · intro u hu
    rw [List.mem_singleton.mp hu]
    assumption
  · intro u hu
    rcases List.mem_cons.mp hu with rfl | hu
    · show _ % 0x110000 < _
      omega
    · rw [List.mem_singleton.mp hu]
      show _ % 0x110000 < _
      omega

theorem scanUnits_escapes {us : List CodePoint} (h : ∀ u ∈ us, u.val < 0x10000) (cs : List Char) :
    scanUnits (us.flatMap (fun u => unicodeEscape u.val) ++ cs) = (scanUnits cs).map fun p => (us ++ p.1, p.2) := by
  induction us with
  | nil => simp
  | cons u us ih =>
    rw [List.flatMap_cons, List.append_assoc, scanUnits_unicode (h u List.mem_cons_self),
      ih fun v hv => h v (List.mem_cons_of_mem _ hv), Fin.ofNat_val_eq_self, Option.map_map]
    rfl

theorem char_ofNat {c : CodePoint} (hc : isScalar c = true) : (Char.ofNat c.val).toNat = c.val := by
  have hv : c.val.isValidChar := by
    have hb : c.val < 0x110000 := c.isLt
    simp only [isScalar, isHigh, isLow, Bool.and_eq_true, Bool.not_eq_true', Bool.and_eq_false_iff,
      decide_eq_false_iff_not] at hc
    unfold Nat.isValidChar
    omega
  rw [Char.ofNat, dif_pos hv]
  rfl

theorem ofChar_ofNat {c : CodePoint} (hc : isScalar c = true) : CodePoint.ofChar (Char.ofNat c.val) = c := by
  rw [CodePoint.ofChar, char_ofNat hc, Fin.ofNat_val_eq_self]

/-- A text without surrogates is the text of its string. -/
theorem ofString_toStr {s : Text} (hs : s.all isScalar = true) : Text.ofString s.toStr = s := by
  rw [Text.ofString, Text.toStr, String.toList_ofList, List.map_map]
  have hmap : s.map (CodePoint.ofChar ∘ fun c => Char.ofNat c.val) = s.map id :=
    List.map_congr_left fun c hc => ofChar_ofNat (List.all_eq_true.mp hs c hc)
  rw [hmap, List.map_id]

/-- The units that are written for a code point. -/
def written (st : Style) (c : CodePoint) : List CodePoint := if st.ensureAscii || !isScalar c then units c else [c]

theorem units_low {c : CodePoint} (hc : c.val < 0x10000) : units c = [c] := if_pos hc

theorem written_low (st : Style) {c : CodePoint} (hc : c.val < 0x10000) : written st c = [c] := by
  unfold written
  split
  · exact units_low hc
  · rfl

theorem writtenEscape_low {n : Nat} {e : Char} (h : writtenEscape n = some e) : n < 0x80 := by
  unfold writtenEscape at h
  split at h
  · cases h
  · obtain ⟨p, hp, -⟩ := Option.map_eq_some_iff.mp h
    have hn : p.2 = n := by simpa using List.find?_some hp
    have hall : ∀ p ∈ shortEscapes, p.2 < 0x80 := by decide
    rw [← hn]
    exact hall p (List.mem_of_find?_eq_some hp)

/-- The units of a scalar value, or the value itself, join to it. -/
theorem joinPairs_written (st : Style) {c : CodePoint} (hc : isScalar c = true) (us : List CodePoint) :
    joinPairs (written st c ++ us) = c :: joinPairs us := by
  unfold written
  split
  · exact joinPairs_units hc us
  · exact joinPairs_scalar hc us

/-- What is written for a code point is read as its units. -/
theorem scanUnits_escape (st : Style) (c : CodePoint) (cs : List Char) :
    scanUnits (escape st c ++ cs) = (scanUnits cs).map fun p => (written st c ++ p.1, p.2) := by
  unfold escape
  split
  · rename_i e he
    have hlow := writtenEscape_low he
    rw [written_low st (by omega)]
    show scanUnits ('\\' :: e :: cs) = _
    rw [scanUnits_short he, Fin.ofNat_val_eq_self]
    rfl
  · rename_i he
    split
    · rename_i hp
      have hc : isScalar c = true := by
        simp only [Bool.and_eq_true, Bool.or_eq_true, decide_eq_true_iff] at hp
        rcases hp.2 with h | h
        · simp only [isScalar, isHigh, isLow, Bool.and_eq_true, Bool.not_eq_true', Bool.and_eq_false_iff, decide_eq_false_iff_not]
          omega
        · exact h.2
      have hn := char_ofNat hc
      have hlow : 0x20 ≤ c.val := by
        simp only [Bool.and_eq_true, decide_eq_true_iff] at hp
        exact hp.1
      have hne : ∀ d : Char, writtenEscape d.toNat ≠ none → Char.ofNat c.val ≠ d := by
        intro d hd e
        rw [← e, hn] at hd
        exact hd he
      have hu := ofChar_ofNat hc
      have hw : written st c = [c] := by
        by_cases hlow : c.val < 0x10000
        · exact written_low st hlow
        · simp only [Bool.and_eq_true, Bool.or_eq_true, Bool.not_eq_true', decide_eq_true_iff] at hp
          rcases hp.2 with h | h
          · omega
          · rw [written, h.1, hc]
            rfl
      show scanUnits (Char.ofNat c.val :: cs) = _
      rw [scanUnits_plain (hne '"' (by decide)) (hne '\\' (by decide)) (by omega), hu, hw]
      rfl
    · rename_i hp
      have hw : written st c = units c := by
        unfold written
        split
        · rfl
        · rename_i hraw
          -- neither escaped as a unit nor written as it is: a control character
          simp only [Bool.or_eq_true, Bool.not_eq_true', not_or, Bool.not_eq_true, Bool.not_eq_false] at hraw
          simp only [hraw.1, hraw.2, Bool.not_false, Bool.and_true, Bool.or_true, decide_eq_true_iff] at hp
          exact (units_low (by omega)).symm
      rw [hw]
      exact scanUnits_escapes (units_lt c) cs

/-- The text that a written string is read as. -/
def rereadText (st : Style) (s : Text) : Text := joinPairs (s.flatMap (written st))

theorem rereadText_scalar (st : Style) {s : Text} (hs : s.all isScalar = true) : rereadText st s = s := by
  unfold rereadText
  induction s with
  | nil => rfl
  | cons c s ih =>
    obtain ⟨hc, hs⟩ := Bool.and_eq_true_iff.mp (List.all_cons ▸ hs)
    rw [List.flatMap_cons, joinPairs_written st hc, ih hs]

theorem scanUnits_quote (st : Style) (s : Text) (rest : List Char) :
    scanUnits (s.flatMap (escape st) ++ '"' :: rest) = some (s.flatMap (written st), rest) := by
  induction s with
  | nil => rfl
  | cons c s ih =>
    rw [List.flatMap_cons, List.append_assoc, scanUnits_escape, ih]
    rfl

theorem scanString_quote (st : Style) (s : Text) (rest : List Char) :
    scanString (s.flatMap (escape st) ++ '"' :: rest) = some (rereadText st s, rest) := by
  rw [scanString, scanUnits_quote]
  rfl

/-! ## Values -/

mutual

/-- The value that the text of a value is read as. -/
def reread (st : Style) : Json → Json
  | .str s => .str (rereadText st s)
  | .list vs => .list (rereadElems st vs)
  | .obj ms => .obj (dict (rereadMembers st ms))
  | v => v

def rereadElems (st : Style) : List Json → List Json
  | [] => []
  | v :: vs => reread st v :: rereadElems st vs

def rereadMembers (st : Style) : List (Text × Json) → List (Text × Json)
  | [] => []
  | (k, v) :: ms => (rereadText st k, reread st v) :: rereadMembers st ms

end

/-- What a value has to be for its text to be read back. -/
def sound (v : Json) : Bool := scalarText v && distinctKeys v

/-- A value whose strings are scalar values and whose mappings have distinct keys is read back. -/
theorem reread_sound (st : Style) : (v : Json) → v.all sound = true → reread st v = v
  | .null, _ | .bool _, _ | .int _, _ | .float _, _ => rfl
  | .str s, h => by
    have hs : s.all isScalar = true := by simpa [all, sound, scalarText, distinctKeys] using h
    rw [reread, rereadText_scalar st hs]
  | .list vs, h => by
    simp only [all, Bool.and_eq_true] at h
    rw [reread, elems vs h.2]
  | .obj ms, h => by
    simp only [all, sound, scalarText, distinctKeys, Bool.and_eq_true, decide_eq_true_iff] at h
    have hdict : dict ms = ms := Keyed.ofList_rows h.1.2
    rw [reread, members ms h.1.1 h.2, hdict]
where
  elems : (vs : List Json) → allElems sound vs = true → rereadElems st vs = vs
    | [], _ => rfl
    | v :: vs, h => by
      have h := Bool.and_eq_true_iff.mp h
      rw [rereadElems, reread_sound st v h.1, elems vs h.2]
  members : (ms : List (Text × Json)) → ms.all (fun m => m.1.all isScalar) = true → allMembers sound ms = true →
      rereadMembers st ms = ms
    | [], _, _ => rfl
    | (k, v) :: ms, hk, h => by
      rw [List.all_cons, Bool.and_eq_true] at hk
      have h := Bool.and_eq_true_iff.mp h
      rw [rereadMembers, rereadText_scalar st hk.1, reread_sound st v h.1, members ms hk.2 h.2]

theorem all_and (p q : Json → Bool) : (v : Json) → v.all (fun x => p x && q x) = (v.all p && v.all q)
  | .null | .bool _ | .int _ | .float _ | .str _ => rfl
  | .list vs => by
    simp only [all, elems vs]
    ac_rfl
  | .obj ms => by
    simp only [all, members ms]
    ac_rfl
where
  elems : (vs : List Json) → allElems (fun x => p x && q x) vs = (allElems p vs && allElems q vs)
    | [] => rfl
    | v :: vs => by
      simp only [allElems, all_and p q v, elems vs]
      ac_rfl
  members : (ms : List (Text × Json)) → allMembers (fun x => p x && q x) ms = (allMembers p ms && allMembers q ms)
    | [] => rfl
    | (_, v) :: ms => by
      simp only [allMembers, all_and p q v, members ms]
      ac_rfl

theorem skipWs_skip {c : Char} (hc : isWs c = false) (cs : List Char) : skipWs (c :: cs) = c :: cs := by
  simp [skipWs, hc]

theorem skipWs_gap (st : Style) (cs : List Char) : skipWs (st.gap ++ cs) = skipWs cs :=
  List.dropWhile_append_of_pos st.blank

/-- A value's text starts with no blank and no closing bracket. -/
def Starts (cs : List Char) : Prop := ∃ c rest, cs = c :: rest ∧ isWs c = false ∧ c ≠ ']'

theorem Starts.append {cs : List Char} (h : Starts cs) (rest : List Char) : Starts (cs ++ rest) := by
  obtain ⟨c, r, rfl, hw, hb⟩ := h
  exact ⟨c, r ++ rest, rfl, hw, hb⟩

theorem Starts.skipWs {cs : List Char} (h : Starts cs) : skipWs cs = cs := by
  obtain ⟨c, r, rfl, hw, -⟩ := h
  exact skipWs_skip hw r

theorem starts_digit {c : Char} (hc : c.isDigit = true) (cs : List Char) : Starts (c :: cs) := by
  refine ⟨c, cs, rfl, ?_, fun e => ?_⟩
  · have hne : ∀ d : Char, d.isDigit = false → c ≠ d := by
      intro d hd e
      rw [← e, hc] at hd
      cases hd
    simp [isWs, hne ' ' rfl, hne '\t' rfl, hne '\n' rfl, hne '\r' rfl]
  · rw [e] at hc
    cases hc

theorem starts_literal {l : Literal} (hl : l.Valid) : Starts l.text := by
  obtain ⟨c, cs, hc, e⟩ := text_head hl []
  rw [List.append_nil] at e
  rw [e]
  cases l.neg with
  | true => exact ⟨'-', c :: cs, rfl, rfl, by decide⟩
  | false => exact starts_digit hc cs

def intLiteral (i : Int) : Literal := { neg := decide (i < 0), whole := Nat.toDigits 10 i.natAbs }

theorem intLiteral_valid (i : Int) : (intLiteral i).Valid :=
  ⟨whole_toDigits _, fun _ h => (by cases h), fun _ h => (by cases h)⟩

theorem printInt_text (i : Int) : printInt i = (intLiteral i).text := by
  simp [printInt, intLiteral, Literal.text, Literal.fracText, Literal.expText]

theorem ofNumber_int {i : Int} (h : shortInt (.int i) = true) : ofNumber (intLiteral i) = some (.int i) := by
  have hs : shortDigits (intLiteral i).whole = true := h
  have hf : (intLiteral i).isFloat = false := rfl
  have hv : (if (intLiteral i).neg then -(digitsVal (intLiteral i).whole : Int) else digitsVal (intLiteral i).whole) = i := by
    simp only [intLiteral, digitsVal_toDigits, decide_eq_true_iff]
    split <;> omega
  simp only [ofNumber, hf, Bool.false_eq_true, if_false]
  rw [if_pos hs, hv]

theorem ofNumber_float (x : Finite64) : ofNumber x.repr = some (.float (.finite x)) := by
  rw [ofNumber, if_pos (repr_isFloat x), ofLiteral_repr]

theorem starts_print (st : Style) (v : Json) : Starts (print st v) := by
  have hc : ∀ c rest, isWs c = false → c ≠ ']' → Starts (c :: rest) := fun c rest hw hb => ⟨c, rest, rfl, hw, hb⟩
  cases v with
  | null => exact hc 'n' _ rfl (by decide)
  | bool b =>
    cases b with
    | true => exact hc 't' _ rfl (by decide)
    | false => exact hc 'f' _ rfl (by decide)
  | int i =>
    simp only [print, printInt_text]
    exact starts_literal (intLiteral_valid i)
  | float x =>
    cases x with
    | finite x => exact starts_literal (repr_valid x)
    | inf neg =>
      cases neg with
      | true => exact hc '-' _ rfl (by decide)
      | false => exact hc 'I' _ rfl (by decide)
    | nan => exact hc 'N' _ rfl (by decide)
  | str s => exact hc '"' _ rfl (by decide)
  | list vs => exact hc '[' _ rfl (by decide)
  | obj ms => exact hc '\x7b' _ rfl (by decide)

theorem parseValue_scalar {c : Char} {cs : List Char} (hq : c ≠ '"') (hl : c ≠ '[') (ho : c ≠ '{') (n : Nat) :
    parseValue (n + 1) (c :: cs) = scanScalar (c :: cs) := by
  simp only [parseValue, hq, hl, ho, if_false]

theorem parseValue_literal {l : Literal} (hl : l.Valid) {rest : List Char} (hr : Ends rest) (n : Nat) :
    parseValue (n + 1) (l.text ++ rest) = (ofNumber l).map fun v => (v, rest) := by
  rw [← scanScalar_number hl hr]
  obtain ⟨c, cs, hc, e⟩ := text_head hl rest
  have hne : ∀ d : Char, d.isDigit = false → c ≠ d := by
    intro d hd e
    rw [← e, hc] at hd
    cases hd
  rw [e]
  cases l.neg with
  | true => exact parseValue_scalar (by decide) (by decide) (by decide) n
  | false => exact parseValue_scalar (hne '"' rfl) (hne '[' rfl) (hne '{' rfl) n

theorem fuel_succ {n : Nat} {cs : List Char} (hs : Starts cs) (hn : cs.length ≤ n) : ∃ m, n = m + 1 := by
  obtain ⟨c, r, rfl, -, -⟩ := hs
  exact ⟨n - 1, by simp only [List.length_cons] at hn; omega⟩

theorem expect_bracket {cs : List Char} (h : Starts cs) : expect [']'] cs = none := by
  obtain ⟨c, r, rfl, -, hb⟩ := h
  simp [expect, Ne.symm hb]

theorem skipWs_comma (cs : List Char) : skipWs (',' :: cs) = ',' :: cs := skipWs_skip rfl cs

theorem skipWs_colon (cs : List Char) : skipWs (':' :: cs) = ':' :: cs := skipWs_skip rfl cs

theorem skipWs_bracket (cs : List Char) : skipWs (']' :: cs) = ']' :: cs := skipWs_skip rfl cs

theorem skipWs_brace (cs : List Char) : skipWs ('}' :: cs) = '}' :: cs := skipWs_skip rfl cs

mutual

/-- A value's text is read, whatever follows it. The fuel is its length. -/
theorem parseValue_print (st : Style) : (v : Json) → (n : Nat) → (rest : List Char) → v.all shortInt = true →
    (print st v).length ≤ n → Ends rest → parseValue n (print st v ++ rest) = some (reread st v, rest)
  | v, n, rest, hv, hn, hr => by
    obtain ⟨n, rfl⟩ := fuel_succ (starts_print st v) hn
    match v with
    | .null => simp [print, reread, parseValue, scanScalar, constants, expect]
    | .bool true => simp [print, reread, parseValue, scanScalar, constants, expect]
    | .bool false => simp [print, reread, parseValue, scanScalar, constants, expect]
    | .int i =>
      simp only [print, reread, printInt_text, parseValue_literal (intLiteral_valid i) hr, ofNumber_int hv, Option.map_some]
    | .float (.finite x) =>
      simp only [print, reread, printFloat, parseValue_literal (repr_valid x) hr, ofNumber_float, Option.map_some]
    | .float (.inf true) => simp [print, reread, printFloat, parseValue, scanScalar, constants, expect]
    | .float (.inf false) => simp [print, reread, printFloat, parseValue, scanScalar, constants, expect]
    | .float .nan => simp [print, reread, printFloat, parseValue, scanScalar, constants, expect]
    | .str s =>
      simp only [print, reread, quote, List.cons_append, List.append_assoc, List.nil_append, parseValue, if_true,
        scanString_quote, Option.map_some]
    | .list [] => simp [print, reread, rereadElems, printElems, parseValue, skipWs, isWs, expect]
    | .list (w :: ws) =>
      simp only [all, Bool.and_eq_true] at hv
      have hlen : (printElems st (w :: ws)).length ≤ n := by simpa [print] using hn
      have hstart : Starts (printElems st (w :: ws) ++ rest) := by
        rw [printElems, List.append_assoc]
        exact (starts_print st w).append _
      simp only [print, reread, List.cons_append, parseValue, Char.reduceEq, if_false, if_true, hstart.skipWs,
        expect_bracket hstart, parseElems_print st w ws n rest hv.2 hlen, Option.map_some]
    | .obj [] => simp [print, reread, rereadMembers, dict, Keyed.ofList, Keyed.empty, printMembers, parseValue, skipWs, isWs, expect]
    | .obj ((k, w) :: ms) =>
      simp only [all, Bool.and_eq_true] at hv
      have hlen : (printMembers st ((k, w) :: ms)).length ≤ n := by simpa [print] using hn
      have hskip : skipWs (printMembers st ((k, w) :: ms) ++ rest) = printMembers st ((k, w) :: ms) ++ rest := skipWs_skip rfl _
      have hbrace : expect ['}'] (printMembers st ((k, w) :: ms) ++ rest) = none := rfl
      simp only [print, reread, List.cons_append, parseValue, Char.reduceEq, if_false, if_true, hskip, hbrace,
        parseMembers_print st k w ms n rest hv.2 hlen, Option.map_some]
termination_by _ n => n

theorem parseElems_print (st : Style) : (v : Json) → (vs : List Json) → (n : Nat) → (rest : List Char) →
    allElems shortInt (v :: vs) = true → (printElems st (v :: vs)).length ≤ n →
    parseElems n (printElems st (v :: vs) ++ rest) = some (rereadElems st (v :: vs), rest)
  | v, vs, n, rest, hall, hn => by
    obtain ⟨n, rfl⟩ : ∃ m, n = m + 1 := fuel_succ (by rw [printElems]; exact (starts_print st v).append _) hn
    rw [printElems, List.length_append] at hn
    rw [printElems, List.append_assoc, parseElems]
    match vs with
    | [] =>
      simp only [allElems, Bool.and_eq_true] at hall
      have h := parseValue_print st v n (']' :: rest) hall.1 (by simp at hn; omega)
        (fun c cs e => Or.inr (Or.inl (List.cons.inj e).1.symm))
      simp only [List.isEmpty_nil, if_true, List.cons_append, List.nil_append, h, Option.bind_some, skipWs_bracket, rereadElems]
    | w :: ws =>
      rw [allElems, Bool.and_eq_true] at hall
      have hlen : (printElems st (w :: ws)).length ≤ n := by simp at hn; omega
      have h := parseValue_print st v n (',' :: (st.gap ++ (printElems st (w :: ws) ++ rest))) hall.1 (by simp at hn; omega)
        (fun c cs e => Or.inl (List.cons.inj e).1.symm)
      have hstart : Starts (printElems st (w :: ws) ++ rest) := by
        rw [printElems, List.append_assoc]
        exact (starts_print st w).append _
      simp only [List.isEmpty_cons, Bool.false_eq_true, if_false, List.cons_append, List.append_assoc, h, Option.bind_some,
        skipWs_comma, skipWs_gap, hstart.skipWs, parseElems_print st w ws n rest hall.2 hlen, Option.map_some, rereadElems]
termination_by _ _ n => n

theorem parseMembers_print (st : Style) : (k : Text) → (v : Json) → (ms : List (Text × Json)) → (n : Nat) → (rest : List Char) →
    allMembers shortInt ((k, v) :: ms) = true → (printMembers st ((k, v) :: ms)).length ≤ n →
    parseMembers n (printMembers st ((k, v) :: ms) ++ rest) = some (rereadMembers st ((k, v) :: ms), rest)
  | k, v, ms, n, rest, hall, hn => by
    rw [allMembers, Bool.and_eq_true] at hall
    obtain ⟨n, rfl⟩ : ∃ m, n = m + 1 := ⟨n - 1, by simp [printMembers, quote] at hn; omega⟩
    match ms with
    | [] =>
      have h := parseValue_print st v n ('}' :: rest) hall.1 (by simp [printMembers, quote] at hn; omega)
        (fun c cs e => Or.inr (Or.inr (List.cons.inj e).1.symm))
      simp only [printMembers, quote, List.isEmpty_nil, if_true, List.cons_append, List.append_assoc, List.nil_append,
        parseMembers, expect, Option.bind_some, scanString_quote, skipWs_colon, skipWs_gap,
        ((starts_print st v).append _).skipWs, h, skipWs_brace, rereadMembers]
    | (l, w) :: ms =>
      have hlen : (printMembers st ((l, w) :: ms)).length ≤ n := by
        rw [printMembers] at hn
        simp only [quote, List.isEmpty_cons, Bool.false_eq_true, if_false, List.length_append, List.length_cons] at hn
        omega
      have h := parseValue_print st v n (',' :: (st.gap ++ (printMembers st ((l, w) :: ms) ++ rest))) hall.1
        (by simp [printMembers, quote] at hn; omega) (fun c cs e => Or.inl (List.cons.inj e).1.symm)
      have hskip : skipWs (printMembers st ((l, w) :: ms) ++ rest) = printMembers st ((l, w) :: ms) ++ rest := skipWs_skip rfl _
      rw [printMembers]
      simp only [quote, List.isEmpty_cons, Bool.false_eq_true, if_false, List.cons_append, List.append_assoc,
        List.nil_append, parseMembers, expect, if_true, Option.bind_some, scanString_quote, skipWs_colon, skipWs_gap,
        ((starts_print st v).append _).skipWs, h, skipWs_comma, hskip, parseMembers_print st l w ms n rest hall.2 hlen,
        Option.map_some, rereadMembers]
termination_by _ _ _ n => n

end

/-- Every text that `dumps` writes is read. -/
theorem loads_written {st : Style} {v : Json} {text : List Char} (h : dumps st v = some text) :
    loads text = some (reread st v) := by
  unfold dumps at h
  split at h
  · rename_i hd
    cases h
    have hp := parseValue_print st v ((print st v).length + 1) [] (Bool.and_eq_true_iff.mp hd).1 (by omega) (fun c cs e => by cases e)
    rw [List.append_nil] at hp
    simp only [loads, (starts_print st v).skipWs, hp, Option.bind_some]
    rfl
  · cases h

/-- What `dumps` has written, `loads` reads as the same value. -/
theorem loads_dumps {st : Style} {v : Json} {text : List Char} (hs : v.all scalarText = true) (hk : v.all distinctKeys = true)
    (h : dumps st v = some text) : loads text = some v := by
  have hsound : v.all sound = true := by
    show v.all (fun x => scalarText x && distinctKeys x) = true
    rw [all_and, hs, hk]
    rfl
  rw [loads_written h, reread_sound st v hsound]

end Lib.Json
