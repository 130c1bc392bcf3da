/-
  Lib.Binary64 — double precision numbers, and their texts.

  A finite number is a sign and `m * 2 ^ e` in canonical form. `ofRat` rounds to the
  nearest one, ties to even. A decimal literal is read by rounding its exact value
  (`ofLiteral`); a number is written with the fewest digits that round back to it, the
  closest of these (`Finite.shortest`), positional or with an exponent (`Finite.repr`).

  Proved: `ofRat_abs` (rounding gives a number back), `ofLiteral_repr` (what is written
  is read back), `repr_valid` (what is written is a literal with a point or an exponent).
-/

import Mathlib.Data.Int.Log
import Mathlib.Data.Rat.Floor
import Mathlib.Tactic.FieldSimp
import Mathlib.Tactic.NormNum
import Mathlib.Tactic.Positivity
import Mathlib.Tactic.Ring

namespace Lib

/-! ## Numbers -/

def Canonical (m : Nat) (e : Int) : Prop := m < 2 ^ 53 ∧ -1074 ≤ e ∧ e ≤ 971 ∧ (2 ^ 52 ≤ m ∨ e = -1074)

instance (m : Nat) (e : Int) : Decidable (Canonical m e) := inferInstanceAs (Decidable (_ ∧ _))

structure Finite64 where
  neg : Bool
  mant : Nat
  exp : Int
  canonical : Canonical mant exp
  deriving DecidableEq

inductive Binary64 where
  | finite (x : Finite64)
  | inf (neg : Bool)
  | nan
  deriving DecidableEq

def Binary64.isFinite : Binary64 → Bool
  | .finite _ => true
  | _ => false

def Finite64.abs (x : Finite64) : Rat := x.mant * 2 ^ x.exp

/-! ## Rounding -/

def halfEven (q : Rat) : Nat :=
  let f := ⌊q⌋₊
  if q - f < 1 / 2 ∨ (q - f = 1 / 2 ∧ f % 2 = 0) then f else f + 1

/-- The significand and the exponent nearest to `q`, of any size. -/
def rounded (q : Rat) : Nat × Int :=
  if q = 0 then (0, -1074)
  else
    let e := max (Int.log 2 q - 52) (-1074)
    let m := halfEven (q / 2 ^ e)
    if m = 2 ^ 53 then (2 ^ 52, e + 1) else (m, e)

/-- The number nearest to `q` in magnitude; past the largest one it is an infinity. -/
def ofRat (neg : Bool) (q : Rat) : Binary64 :=
  if h : Canonical (rounded q).1 (rounded q).2 then .finite ⟨neg, (rounded q).1, (rounded q).2, h⟩ else .inf neg

theorem halfEven_natCast (n : Nat) : halfEven (n : Rat) = n := by
  simp [halfEven]

theorem zpow_two_pos (e : Int) : (0 : Rat) < 2 ^ e := zpow_pos (by norm_num) e

theorem mul_zpow_lt {m k : Nat} (h : m < 2 ^ k) (e : Int) : (m : Rat) * 2 ^ e < 2 ^ ((k : Int) + e) := by
  rw [zpow_add₀ (by norm_num), zpow_natCast]
  exact mul_lt_mul_of_pos_right (by exact_mod_cast h) (zpow_two_pos e)

theorem zpow_le_mul {m k : Nat} (h : 2 ^ k ≤ m) (e : Int) : (2 : Rat) ^ ((k : Int) + e) ≤ m * 2 ^ e := by
  rw [zpow_add₀ (by norm_num), zpow_natCast]
  exact mul_le_mul_of_nonneg_right (by exact_mod_cast h) (zpow_two_pos e).le

/-- The exponent `rounded` picks for a canonical magnitude is its own. -/
theorem log_canonical {m : Nat} {e : Int} (h : Canonical m e) (hm : m ≠ 0) :
    max (Int.log 2 ((m : Rat) * 2 ^ e) - 52) (-1074) = e := by
  obtain ⟨hlt, hlo, -, hor⟩ := h
  have hpos : (0 : Rat) < m * 2 ^ e := mul_pos (by exact_mod_cast Nat.pos_of_ne_zero hm) (zpow_two_pos e)
  rcases hor with hge | rfl
  · have h1 : 52 + e ≤ Int.log 2 ((m : Rat) * 2 ^ e) :=
      (Int.zpow_le_iff_le_log (by norm_num) hpos).mp (by exact_mod_cast zpow_le_mul hge e)
    have h2 : Int.log 2 ((m : Rat) * 2 ^ e) < 53 + e :=
      (Int.lt_zpow_iff_log_lt (by norm_num) hpos).mp (by exact_mod_cast mul_zpow_lt hlt e)
    omega
  · by_cases hge : 2 ^ 52 ≤ m
    · have h2 : Int.log 2 ((m : Rat) * 2 ^ (-1074 : Int)) < 53 + -1074 :=
        (Int.lt_zpow_iff_log_lt (by norm_num) hpos).mp (by exact_mod_cast mul_zpow_lt hlt (-1074))
      omega
    · have h2 : Int.log 2 ((m : Rat) * 2 ^ (-1074 : Int)) < 52 + -1074 :=
        (Int.lt_zpow_iff_log_lt (by norm_num) hpos).mp (by exact_mod_cast mul_zpow_lt (Nat.lt_of_not_le hge) (-1074))
      omega

theorem rounded_canonical {m : Nat} {e : Int} (h : Canonical m e) : rounded ((m : Rat) * 2 ^ e) = (m, e) := by
  by_cases hm : m = 0
  · subst hm
    have he : e = -1074 := by
      rcases h.2.2.2 with h' | h'
      · omega
      · exact h'
    simp [rounded, he]
  · have hne : (m : Rat) * 2 ^ e ≠ 0 := mul_ne_zero (by exact_mod_cast hm) (zpow_two_pos e).ne'
    have hd : (m : Rat) * 2 ^ e / 2 ^ e = m := by
      rw [mul_div_assoc, div_self (zpow_two_pos e).ne', mul_one]
    have hlt : m ≠ 2 ^ 53 := h.1.ne
    simp only [rounded, hne, if_false, log_canonical h hm, hd, halfEven_natCast, hlt]

/-- A number's magnitude rounds to the number. -/
theorem ofRat_abs (x : Finite64) : ofRat x.neg x.abs = .finite x := by
  have h : rounded x.abs = (x.mant, x.exp) := rounded_canonical x.canonical
  unfold ofRat
  simp only [h]
  rw [dif_pos x.canonical]

/-! ## Literals -/

structure Exponent where
  marker : Char
  sign : Option Char
  digits : List Char
  deriving DecidableEq, Repr

structure Literal where
  neg : Bool
  whole : List Char
  frac : Option (List Char) := none
  exp : Option Exponent := none
  deriving DecidableEq, Repr

def digitsVal (cs : List Char) : Nat := Nat.ofDigitChars 10 cs 0

def Exponent.value (e : Exponent) : Int := if e.sign = some '-' then -(digitsVal e.digits) else digitsVal e.digits

def Exponent.text (e : Exponent) : List Char := e.marker :: e.sign.toList ++ e.digits

/-- The magnitude. -/
def Literal.value (l : Literal) : Rat :=
  digitsVal (l.whole ++ l.frac.getD []) * 10 ^ ((l.exp.elim 0 Exponent.value) - (l.frac.getD []).length)

def Literal.fracText (l : Literal) : List Char := l.frac.elim [] ('.' :: ·)

def Literal.expText (l : Literal) : List Char := l.exp.elim [] Exponent.text

def Literal.text (l : Literal) : List Char :=
  (if l.neg then ['-'] else []) ++ (l.whole ++ (l.fracText ++ l.expText))

/-- A run of digits. -/
def Digits (cs : List Char) : Prop := cs ≠ [] ∧ ∀ c ∈ cs, c.isDigit = true

/-- No digit before the point but for the number 0 is a leading zero. -/
def Whole (cs : List Char) : Prop := Digits cs ∧ (cs.head? = some '0' → cs = ['0'])

structure Exponent.Valid (e : Exponent) : Prop where
  marker : e.marker = 'e' ∨ e.marker = 'E'
  sign : e.sign = none ∨ e.sign = some '+' ∨ e.sign = some '-'
  digits : Digits e.digits

structure Literal.Valid (l : Literal) : Prop where
  whole : Whole l.whole
  frac : ∀ f, l.frac = some f → Digits f
  exp : ∀ e, l.exp = some e → e.Valid

def Literal.isFloat (l : Literal) : Bool := l.frac.isSome || l.exp.isSome

/-- `float(text)` of a literal. -/
def ofLiteral (l : Literal) : Binary64 := ofRat l.neg l.value

/-! ## The shortest digits -/

/-- A multiple of `10 ^ p` next to the number that rounds to it, the nearer one first. -/
def Finite64.nearby (x : Finite64) (p : Int) : Option Nat :=
  let q := x.abs / 10 ^ p
  let nearest := halfEven q
  let other := if nearest = ⌊q⌋₊ then ⌊q⌋₊ + 1 else ⌊q⌋₊
  [nearest, other].find? fun d => ofRat x.neg (d * 10 ^ p) = .finite x

/-- The search from `10 ^ p` down; where the fuel ends the digits are exact. -/
def Finite64.shortestFrom (x : Finite64) : Nat → Int → Nat × Int
  | 0, p => (⌊x.abs / 10 ^ p⌋₊, p)
  | n + 1, p =>
    match x.nearby p with
    | some d => (d, p)
    | none => x.shortestFrom n (p - 1)

def Finite64.shortest (x : Finite64) : Nat × Int :=
  if x.mant = 0 then (0, 0)
  else
    let p := Int.log 10 x.abs + 1
    x.shortestFrom (p - min x.exp 0).toNat p

theorem zpow_ten_pos (p : Int) : (0 : Rat) < 10 ^ p := zpow_pos (by norm_num) p

/-- From `10 ^ min e 0` down the digits are exact. -/
theorem abs_exact (x : Finite64) {p : Int} (h : p ≤ min x.exp 0) : ((⌊x.abs / 10 ^ p⌋₊ : Nat) : Rat) * 10 ^ p = x.abs := by
  obtain ⟨a, ha⟩ := Int.eq_ofNat_of_zero_le (show 0 ≤ x.exp - p by omega)
  obtain ⟨b, hb⟩ := Int.eq_ofNat_of_zero_le (show 0 ≤ -p by omega)
  have hq : x.abs / 10 ^ p = ((x.mant * 2 ^ a * 5 ^ b : Nat) : Rat) := by
    have h2 : (2 : Rat) ^ x.exp = 2 ^ a * 2 ^ p := by
      rw [show x.exp = a + p by omega, zpow_add₀ (by norm_num), zpow_natCast]
    have h10 : (10 : Rat) ^ p = 2 ^ p * 5 ^ p := by
      rw [← mul_zpow]
      norm_num
    have h5 : (5 : Rat) ^ b * 5 ^ p = 1 := by
      rw [← zpow_natCast, ← zpow_add₀ (by norm_num), show (b : Int) + p = 0 by omega, zpow_zero]
    have hne : (5 : Rat) ^ p ≠ 0 := (zpow_pos (by norm_num) p).ne'
    rw [div_eq_iff (zpow_ten_pos p).ne', Finite64.abs, h2, h10]
    push_cast
    calc (x.mant : Rat) * (2 ^ a * 2 ^ p) = x.mant * 2 ^ a * 2 ^ p * 1 := by ring
      _ = x.mant * 2 ^ a * 2 ^ p * (5 ^ b * 5 ^ p) := by rw [h5]
      _ = x.mant * 2 ^ a * 5 ^ b * (2 ^ p * 5 ^ p) := by ring
  rw [hq, Nat.floor_natCast, ← hq, div_mul_cancel₀ _ (zpow_ten_pos p).ne']

theorem nearby_rounds {x : Finite64} {p : Int} {d : Nat} (h : x.nearby p = some d) :
    ofRat x.neg (d * 10 ^ p) = .finite x := by
  have := List.find?_some h
  simpa using this

theorem shortestFrom_rounds (x : Finite64) (n : Nat) (p : Int) (h : p - n ≤ min x.exp 0) :
    ofRat x.neg ((x.shortestFrom n p).1 * 10 ^ (x.shortestFrom n p).2) = .finite x := by
  induction n generalizing p with
  | zero =>
    have hp : p ≤ min x.exp 0 := by simpa using h
    show ofRat x.neg ((⌊x.abs / 10 ^ p⌋₊ : Nat) * 10 ^ p) = _
    rw [abs_exact x hp, ofRat_abs]
  | succ n ih =>
    simp only [Finite64.shortestFrom]
    cases hn : x.nearby p with
    | some d => exact nearby_rounds hn
    | none => exact ih (p - 1) (by push_cast at h; omega)

/-- The shortest digits round to the number. -/
theorem shortest_rounds (x : Finite64) : ofRat x.neg (x.shortest.1 * 10 ^ x.shortest.2) = .finite x := by
  unfold Finite64.shortest
  split
  · rename_i hm
    have : x.abs = ((0 : Nat) : Rat) * 10 ^ (0 : Int) := by simp [Finite64.abs, hm]
    rw [← this, ofRat_abs]
  · exact shortestFrom_rounds x _ _ (by omega)

theorem shortest_zero {x : Finite64} (h : x.shortest.1 = 0) : x.shortest = (0, 0) := by
  by_cases hm : x.mant = 0
  · simp [Finite64.shortest, hm]
  · have hr := shortest_rounds x
    rw [h, Nat.cast_zero, zero_mul] at hr
    simp only [ofRat, rounded, if_true] at hr
    rw [dif_pos (by decide)] at hr
    injection hr with hr
    exact absurd (by rw [← hr]) hm

/-! ## Texts -/

def twoDigits (n : Nat) : List Char := if n < 10 then '0' :: Nat.toDigits 10 n else Nat.toDigits 10 n

/-- `repr`: positional where the point is within 16 digits and 4 zeros of the first
    digit, else with an exponent. -/
def Finite64.repr (x : Finite64) : Literal :=
  let ds := Nat.toDigits 10 x.shortest.1
  let decpt := x.shortest.2 + ds.length
  if -4 < decpt ∧ decpt ≤ 16 then
    if decpt ≤ 0 then { neg := x.neg, whole := ['0'], frac := some (List.replicate (-decpt).toNat '0' ++ ds) }
    else if decpt < ds.length then { neg := x.neg, whole := ds.take decpt.toNat, frac := some (ds.drop decpt.toNat) }
    else { neg := x.neg, whole := ds ++ List.replicate (decpt - ds.length).toNat '0', frac := some ['0'] }
  else
    { neg := x.neg, whole := ds.take 1, frac := if ds.drop 1 = [] then none else some (ds.drop 1),
      exp := some ⟨'e', some (if decpt - 1 < 0 then '-' else '+'), twoDigits (decpt - 1).natAbs⟩ }

theorem digitsVal_toDigits (n : Nat) : digitsVal (Nat.toDigits 10 n) = n := Nat.ofDigitChars_ten_toDigits

theorem digitsVal_append (a b : List Char) : digitsVal (a ++ b) = 10 ^ b.length * digitsVal a + digitsVal b := by
  rw [digitsVal, Nat.ofDigitChars_append, Nat.ofDigitChars_eq_ofDigitChars_zero]
  rfl

theorem digitsVal_zeros (n : Nat) : digitsVal (List.replicate n '0') = 0 := by simp [digitsVal]

theorem digitsVal_twoDigits (n : Nat) : digitsVal (twoDigits n) = n := by
  unfold twoDigits
  split
  · show digitsVal (['0'] ++ Nat.toDigits 10 n) = n
    rw [digitsVal_append, digitsVal_toDigits]
    simp [digitsVal, Nat.ofDigitChars]
  · exact digitsVal_toDigits n

theorem toDigits_digits (n : Nat) : Digits (Nat.toDigits 10 n) :=
  ⟨Nat.toDigits_ne_nil, fun _ hc => Nat.isDigit_of_mem_toDigits (by omega) (by omega) hc⟩

theorem twoDigits_digits (n : Nat) : Digits (twoDigits n) := by
  unfold twoDigits
  split
  · refine ⟨by simp, fun c hc => ?_⟩
    rcases List.mem_cons.mp hc with rfl | hc
    · rfl
    · exact (toDigits_digits n).2 c hc
  · exact toDigits_digits n

theorem digitChar_ne_zero {d : Nat} (h0 : 0 < d) (h : d < 10) : d.digitChar ≠ '0' := by
  have : ∀ d, d < 10 → 0 < d → Nat.digitChar d ≠ '0' := by decide
  exact this d h h0

theorem head_toDigits {n : Nat} (hn : 0 < n) : (Nat.toDigits 10 n).head? ≠ some '0' := by
  induction n using Nat.strongRecOn with
  | ind n ih =>
    by_cases h : n < 10
    · rw [Nat.toDigits_of_lt_base h]
      simpa using digitChar_ne_zero hn h
    · rw [Nat.toDigits_of_base_le (by omega) (by omega), List.head?_append_of_ne_nil _ Nat.toDigits_ne_nil]
      exact ih (n / 10) (by omega) (by omega)

/-- A number in decimal is written without leading zeros. -/
theorem whole_toDigits (n : Nat) : Whole (Nat.toDigits 10 n) := by
  refine ⟨toDigits_digits n, fun h => ?_⟩
  rcases Nat.eq_zero_or_pos n with rfl | hn
  · rfl
  · exact absurd h (head_toDigits hn)

theorem Digits.append {a b : List Char} (ha : Digits a) (hb : ∀ c ∈ b, c.isDigit = true) : Digits (a ++ b) :=
  ⟨by simp [ha.1], fun c hc => (List.mem_append.mp hc).elim (ha.2 c) (hb c)⟩

theorem zeros_digits (n : Nat) : ∀ c ∈ List.replicate n '0', c.isDigit = true := by
  intro c hc
  rw [List.eq_of_mem_replicate hc]
  rfl

/-- Digits at the front of a number in decimal. -/
theorem whole_take {n k : Nat} (hk : 0 < k) : Whole ((Nat.toDigits 10 n).take k) := by
  obtain ⟨⟨hne, hd⟩, hz⟩ := whole_toDigits n
  have hhead : ((Nat.toDigits 10 n).take k).head? = (Nat.toDigits 10 n).head? := by
    rw [List.head?_take, if_neg (by omega)]
  refine ⟨⟨?_, fun c hc => hd c (List.mem_of_mem_take hc)⟩, fun h => ?_⟩
  · simp [hne, Nat.pos_iff_ne_zero.mp hk]
  · rw [hhead] at h
    rw [hz h]
    cases k with
    | zero => omega
    | succ k => simp

theorem exponent_value (n : Int) :
    Exponent.value ⟨'e', some (if n < 0 then '-' else '+'), twoDigits n.natAbs⟩ = n := by
  simp only [Exponent.value, digitsVal_twoDigits]
  split
  · rw [if_pos rfl]
    omega
  · rw [if_neg (by decide)]
    omega

/-- The text stands for the shortest digits. -/
theorem repr_value (x : Finite64) : x.repr.value = x.shortest.1 * 10 ^ x.shortest.2 := by
  obtain ⟨d, p, hs⟩ : ∃ d p, x.shortest = (d, p) := ⟨_, _, rfl⟩
  have hv := digitsVal_toDigits d
  have hlen : 0 < (Nat.toDigits 10 d).length := List.length_pos_iff.mpr Nat.toDigits_ne_nil
  simp only [Finite64.repr, hs]
  generalize Nat.toDigits 10 d = ds at hv hlen ⊢
  split
  · split
    · rename_i hle
      have hd : digitsVal (['0'] ++ (List.replicate (-(p + ds.length)).toNat '0' ++ ds)) = d := by
        rw [digitsVal_append, digitsVal_append, digitsVal_zeros, hv]
        simp [digitsVal, Nat.ofDigitChars]
      simp only [Literal.value, Option.getD_some, hd, Option.elim_none, List.length_append, List.length_replicate]
      congr 2
      push_cast
      omega
    · split
      · rename_i hlt
        simp only [Literal.value, Option.getD_some, List.take_append_drop, hv, Option.elim_none, List.length_drop]
        congr 2
        omega
      · rename_i hpos hge
        obtain ⟨j, hj⟩ := Int.eq_ofNat_of_zero_le (show 0 ≤ p by omega)
        subst hj
        have hj : ((j : Int) + ds.length - ds.length).toNat = j := by omega
        have hd : digitsVal (ds ++ List.replicate j '0' ++ ['0']) = d * 10 ^ j * 10 := by
          rw [digitsVal_append, digitsVal_append, digitsVal_zeros, hv]
          simp only [List.length_replicate, List.length_singleton]
          show 10 ^ 1 * (10 ^ j * d + 0) + 0 = _
          ring
        simp only [Literal.value, hj, Option.getD_some, hd, Option.elim_none, List.length_singleton]
        rw [zpow_natCast, show (0 : Int) - ((1 : Nat) : Int) = -1 by omega, zpow_neg_one]
        push_cast
        ring
  · have hfrac : (if ds.drop 1 = [] then none else some (ds.drop 1) : Option (List Char)).getD [] = ds.drop 1 := by
      split
      · rename_i h
        rw [h]
        rfl
      · rfl
    simp only [Literal.value, hfrac, List.take_append_drop, hv, Option.elim_some, exponent_value, List.length_drop]
    congr 2
    omega

/-- What is written is read back. -/
theorem ofLiteral_repr (x : Finite64) : ofLiteral x.repr = .finite x := by
  have hneg : x.repr.neg = x.neg := by
    simp only [Finite64.repr]
    split
    · split
      · rfl
      · split <;> rfl
    · rfl
  rw [ofLiteral, hneg, repr_value, shortest_rounds]

theorem repr_isFloat (x : Finite64) : x.repr.isFloat = true := by
  simp only [Finite64.repr]
  split
  · split
    · rfl
    · split <;> rfl
  · simp [Literal.isFloat]

theorem repr_valid (x : Finite64) : x.repr.Valid := by
  have hds := toDigits_digits x.shortest.1
  have hzero : Whole ['0'] := whole_toDigits 0
  simp only [Finite64.repr]
  split
  · split
    · refine ⟨hzero, fun f hf => ?_, fun e he => (by cases he)⟩
      cases hf
      exact ⟨by simp [hds.1], fun c hc => (List.mem_append.mp hc).elim (zeros_digits _ c) (hds.2 c)⟩
    · split
      · rename_i hpos hlt
        refine ⟨whole_take (by omega), fun f hf => ?_, fun e he => (by cases he)⟩
        cases hf
        refine ⟨fun h => ?_, fun c hc => hds.2 c (List.mem_of_mem_drop hc)⟩
        have := List.drop_eq_nil_iff.mp h
        omega
      · rename_i hpos hge
        refine ⟨⟨hds.append (zeros_digits _), fun h => ?_⟩, fun f hf => ?_, fun e he => (by cases he)⟩
        · rw [List.head?_append_of_ne_nil _ hds.1] at h
          have h1 := (whole_toDigits x.shortest.1).2 h
          have h0 : x.shortest.1 = 0 := by
            rw [← digitsVal_toDigits x.shortest.1, h1]
            rfl
          rw [shortest_zero h0]
          rfl
        · cases hf
          exact hzero.1
  · refine ⟨whole_take (by omega), fun f hf => ?_, fun e he => ?_⟩
    · split at hf
      · cases hf
      · rename_i hne
        cases hf
        exact ⟨hne, fun c hc => hds.2 c (List.mem_of_mem_drop hc)⟩
    · cases he
      refine ⟨Or.inl rfl, ?_, twoDigits_digits _⟩
      split
      · exact Or.inr (Or.inr rfl)
      · exact Or.inr (Or.inl rfl)

end Lib
