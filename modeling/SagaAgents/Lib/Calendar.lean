/-
  Lib.Calendar — UTC datetimes of the years 1 to 9999, and their ISO texts.

  An instant is the number of microseconds since the start of year 1. Years, and the
  months of a year, are blocks of days that follow one another: `locate` finds the block
  of a day, and `before` counts the days in front of a block. `isoformat` is Python's
  `datetime.isoformat` of a UTC datetime, which leaves the fraction out when it is zero;
  `fromisoformat` reads texts of that form.

  Proved: `before_locate` (a position is the start of its block and the place in it),
  `toInstant_ofInstant`, `fromisoformat_isoformat`, for every instant up to `limit`; and
  the texts of instants are in the order of the instants (`isoformat_lt_iff`), although a
  text without a fraction is shorter.
-/

import Mathlib.Data.List.GetD
import SagaAgents.Lib.Binary64
import SagaAgents.Lib.Scan
import SagaAgents.Lib.TextOrder

namespace Lib.Calendar

/-! ## Blocks -/

/-- The block that position `n` is in, and the place in it. -/
def locate : List Nat → Nat → Option (Nat × Nat)
  | [], _ => none
  | s :: ss, n => if n < s then some (0, n) else (locate ss (n - s)).map fun p => (p.1 + 1, p.2)

/-- The positions in front of block `i`. -/
def before (sizes : List Nat) (i : Nat) : Nat := (sizes.take i).sum

theorem before_succ (s : Nat) (ss : List Nat) (i : Nat) : before (s :: ss) (i + 1) = s + before ss i := by
  simp [before]

theorem before_locate {sizes : List Nat} {n i r : Nat} (h : locate sizes n = some (i, r)) :
    before sizes i + r = n ∧ ∃ s, sizes[i]? = some s ∧ r < s := by
  induction sizes generalizing n i with
  | nil => cases h
  | cons s ss ih =>
    simp only [locate] at h
    split at h
    · rename_i hn
      cases h
      exact ⟨by simp [before], s, rfl, hn⟩
    · rename_i hn
      obtain ⟨⟨j, r'⟩, hl, e⟩ := Option.map_eq_some_iff.mp h
      cases e
      obtain ⟨hb, hs⟩ := ih hl
      refine ⟨?_, hs⟩
      show before (s :: ss) (j + 1) + r' = n
      rw [before_succ]
      omega

theorem locate_isSome {sizes : List Nat} {n : Nat} (h : n < sizes.sum) : ∃ p, locate sizes n = some p := by
  induction sizes generalizing n with
  | nil => cases h
  | cons s ss ih =>
    rw [List.sum_cons] at h
    simp only [locate]
    split
    · exact ⟨_, rfl⟩
    · obtain ⟨p, hp⟩ := ih (n := n - s) (by omega)
      exact ⟨_, by rw [hp]; rfl⟩

/-! ## The calendar -/

def isLeap (year : Nat) : Bool := year % 4 == 0 && (year % 100 != 0 || year % 400 == 0)

def monthLengths (year : Nat) : List Nat :=
  [31, if isLeap year then 29 else 28, 31, 30, 31, 30, 31, 31, 30, 31, 30, 31]

def yearLength (year : Nat) : Nat := if isLeap year then 366 else 365

def maxYear : Nat := 9999

/-- The lengths of the years from year 1 on. -/
def yearLengths : List Nat := (List.range maxYear).map fun k => yearLength (k + 1)

def microsPerDay : Nat := 86400000000

/-- The first instant past the last year. -/
def limit : Nat := 315537897600000000

structure DateTime where
  year : Nat
  month : Nat
  day : Nat
  hour : Nat
  minute : Nat
  second : Nat
  microsecond : Nat
  deriving DecidableEq, Repr

/-- The length of the month; a month past the twelfth has no days. -/
def daysInMonth (year month : Nat) : Nat := (monthLengths year).getD (month - 1) 0

/-- What the `datetime` constructor checks. -/
structure DateTime.Valid (d : DateTime) : Prop where
  year : 1 ≤ d.year ∧ d.year ≤ maxYear
  month : 1 ≤ d.month
  day : 1 ≤ d.day ∧ d.day ≤ daysInMonth d.year d.month
  hour : d.hour < 24
  minute : d.minute < 60
  second : d.second < 60
  microsecond : d.microsecond < 1000000

instance (d : DateTime) : Decidable d.Valid :=
  decidable_of_iff ((1 ≤ d.year ∧ d.year ≤ maxYear) ∧ 1 ≤ d.month ∧ (1 ≤ d.day ∧ d.day ≤ daysInMonth d.year d.month) ∧
      d.hour < 24 ∧ d.minute < 60 ∧ d.second < 60 ∧ d.microsecond < 1000000)
    ⟨fun ⟨a, b, c, d, e, f, g⟩ => ⟨a, b, c, d, e, f, g⟩, fun ⟨a, b, c, d, e, f, g⟩ => ⟨a, b, c, d, e, f, g⟩⟩

def timeOfDay (d : DateTime) : Nat := ((d.hour * 60 + d.minute) * 60 + d.second) * 1000000 + d.microsecond

def toInstant (d : DateTime) : Option Nat :=
  if d.Valid then
    some ((before yearLengths (d.year - 1) + before (monthLengths d.year) (d.month - 1) + (d.day - 1)) * microsPerDay + timeOfDay d)
  else none

def ofInstant (t : Nat) : Option DateTime :=
  (locate yearLengths (t / microsPerDay)).bind fun y =>
    (locate (monthLengths (y.1 + 1)) y.2).map fun m =>
      let r := t % microsPerDay
      { year := y.1 + 1, month := m.1 + 1, day := m.2 + 1, hour := r / 3600000000, minute := r / 60000000 % 60,
        second := r / 1000000 % 60, microsecond := r % 1000000 }

theorem limit_eq : yearLengths.sum * microsPerDay = limit := by decide +kernel

theorem monthLengths_sum (year : Nat) : (monthLengths year).sum = yearLength year := by
  unfold monthLengths yearLength
  split <;> rfl

theorem yearLengths_get {i s : Nat} (h : yearLengths[i]? = some s) : i < maxYear ∧ s = yearLength (i + 1) := by
  have hi : i < yearLengths.length := (List.getElem?_eq_some_iff.mp h).1
  have hlt : i < maxYear := by simpa [yearLengths] using hi
  refine ⟨hlt, ?_⟩
  simp [yearLengths, List.getElem?_range hlt] at h
  exact h.symm

theorem ofInstant_isSome {t : Nat} (h : t < limit) : ∃ d, ofInstant t = some d := by
  have hdays : t / microsPerDay < yearLengths.sum := by
    rw [← limit_eq] at h
    exact Nat.div_lt_of_lt_mul (by rw [Nat.mul_comm]; exact h)
  obtain ⟨⟨y, r⟩, hy⟩ := locate_isSome hdays
  obtain ⟨-, s, hs, hr⟩ := before_locate hy
  have hday : r < (monthLengths (y + 1)).sum := by
    rw [monthLengths_sum, ← (yearLengths_get hs).2]
    exact hr
  obtain ⟨m, hm⟩ := locate_isSome hday
  exact Option.isSome_iff_exists.mp (by rw [ofInstant, hy, Option.bind_some, hm]; rfl)

theorem ofInstant_valid {t : Nat} {d : DateTime} (h : ofInstant t = some d) : d.Valid := by
  obtain ⟨⟨y, r⟩, hy, h⟩ := Option.bind_eq_some_iff.mp h
  obtain ⟨⟨m, k⟩, hm, e⟩ := Option.map_eq_some_iff.mp h
  subst e
  obtain ⟨-, s, hs, -⟩ := before_locate hy
  obtain ⟨-, s', hs', hk⟩ := before_locate hm
  have hyear := (yearLengths_get hs).1
  have hmonth : daysInMonth (y + 1) (m + 1) = s' := by
    simp only at hs'
    simp [daysInMonth, hs']
  have hday : t % microsPerDay < 86400000000 := Nat.mod_lt _ (by decide)
  refine ⟨⟨?_, ?_⟩, ?_, ⟨?_, ?_⟩, ?_, ?_, ?_, ?_⟩
  · exact Nat.le_add_left 1 y
  · exact hyear
  · exact Nat.le_add_left 1 m
  · exact Nat.le_add_left 1 k
  · show k + 1 ≤ daysInMonth (y + 1) (m + 1)
    rw [hmonth]
    exact hk
  · show t % microsPerDay / 3600000000 < 24
    omega
  all_goals exact Nat.mod_lt _ (by decide)

/-- A datetime of an instant is at that instant. -/
theorem toInstant_ofInstant {t : Nat} {d : DateTime} (h : ofInstant t = some d) : toInstant d = some t := by
  have hv := ofInstant_valid h
  obtain ⟨⟨y, r⟩, hy, h⟩ := Option.bind_eq_some_iff.mp h
  obtain ⟨⟨m, k⟩, hm, e⟩ := Option.map_eq_some_iff.mp h
  have hyear := (before_locate hy).1
  have hmonth := (before_locate hm).1
  rw [toInstant, if_pos hv]
  subst e
  simp only [Nat.add_sub_cancel, timeOfDay] at hyear hmonth ⊢
  have hdays : before yearLengths y + before (monthLengths (y + 1)) m + k = t / microsPerDay := by omega
  rw [hdays, Option.some.injEq]
  have ht := Nat.div_add_mod t microsPerDay
  have hlt : t % microsPerDay < 86400000000 := Nat.mod_lt _ (by decide)
  generalize t % microsPerDay = q at ht hlt ⊢
  generalize t / microsPerDay = days at ht ⊢
  simp only [microsPerDay] at ht ⊢
  omega

/-! ## Texts -/

/-- A number with zeros in front, `w` digits at least. -/
def padded (w n : Nat) : List Char := (Nat.toDigits 10 n).leftpad w '0'

def DateTime.isoformat (d : DateTime) : List Char :=
  padded 4 d.year ++ '-' :: (padded 2 d.month ++ '-' :: (padded 2 d.day ++ 'T' :: (padded 2 d.hour ++ ':' :: (padded 2 d.minute ++
    ':' :: (padded 2 d.second ++ ((if d.microsecond = 0 then [] else '.' :: padded 6 d.microsecond) ++ "+00:00".toList))))))

/-- A number of exactly `w` digits. -/
def readPadded (w : Nat) (cs : List Char) : Option (Nat × List Char) :=
  if w ≤ cs.length && (cs.take w).all Char.isDigit then some (digitsVal (cs.take w), cs.drop w) else none

def readFraction : List Char → Option (Nat × List Char)
  | '.' :: cs => readPadded 6 cs
  | cs => some (0, cs)

def DateTime.fromisoformat (cs : List Char) : Option DateTime :=
  (readPadded 4 cs).bind fun year => (expect ['-'] year.2).bind fun cs =>
  (readPadded 2 cs).bind fun month => (expect ['-'] month.2).bind fun cs =>
  (readPadded 2 cs).bind fun day => (expect ['T'] day.2).bind fun cs =>
  (readPadded 2 cs).bind fun hour => (expect [':'] hour.2).bind fun cs =>
  (readPadded 2 cs).bind fun minute => (expect [':'] minute.2).bind fun cs =>
  (readPadded 2 cs).bind fun second => (readFraction second.2).bind fun microsecond =>
    if microsecond.2 = "+00:00".toList then
      some ⟨year.1, month.1, day.1, hour.1, minute.1, second.1, microsecond.1⟩
    else none

/-- The text of an instant; one past the last year has none. -/
def isoformat (t : Nat) : List Char := ((ofInstant t).map DateTime.isoformat).getD []

def fromisoformat (cs : List Char) : Option Nat := (DateTime.fromisoformat cs).bind toInstant

theorem padded_length {w n : Nat} (h : n < 10 ^ w) (hw : 0 < w) : (padded w n).length = w := by
  have hlen := (Nat.length_toDigits_le_iff (b := 10) (by decide) hw).mpr h
  rw [padded, List.length_leftpad]
  omega

theorem padded_digits (w n : Nat) : (padded w n).all Char.isDigit = true := by
  rw [List.all_eq_true]
  intro c hc
  rcases List.mem_append.mp hc with hc | hc
  · exact zeros_digits _ c hc
  · exact (toDigits_digits n).2 c hc

theorem digitsVal_padded (w n : Nat) : digitsVal (padded w n) = n := by
  rw [padded, List.leftpad, digitsVal_append, digitsVal_zeros, Nat.mul_zero, Nat.zero_add, digitsVal_toDigits]

/-- A padded number is read back, whatever follows it. -/
theorem readPadded_padded {w n : Nat} (h : n < 10 ^ w) (hw : 0 < w) (rest : List Char) :
    readPadded w (padded w n ++ rest) = some (n, rest) := by
  have hlen := padded_length h hw
  have htake : (padded w n ++ rest).take w = padded w n := by rw [List.take_append_of_le_length hlen.ge, List.take_of_length_le hlen.le]
  have hdrop : (padded w n ++ rest).drop w = rest := by simp [hlen]
  have hle : w ≤ (padded w n ++ rest).length := by simp [hlen]
  simp only [readPadded, htake, hdrop, padded_digits, digitsVal_padded, hle, decide_true, Bool.and_self, if_true]

theorem readFraction_text {n : Nat} (h : n < 1000000) :
    readFraction ((if n = 0 then [] else '.' :: padded 6 n) ++ "+00:00".toList) = some (n, "+00:00".toList) := by
  by_cases hn : n = 0
  · subst hn
    rfl
  · rw [if_neg hn]
    exact readPadded_padded h (by decide) _

/-- A month that has days is one of twelve, and has at most 31. -/
theorem daysInMonth_pos {year month : Nat} (h : 1 ≤ daysInMonth year month) : month ≤ 12 ∧ daysInMonth year month ≤ 31 := by
  unfold daysInMonth at h ⊢
  by_cases hm : month - 1 < (monthLengths year).length
  · have hmem : ∀ s ∈ monthLengths year, s ≤ 31 := by
      unfold monthLengths
      split <;> decide
    refine ⟨?_, ?_⟩
    · have : (monthLengths year).length = 12 := rfl
      omega
    · rw [List.getD_eq_getElem _ _ hm]
      exact hmem _ (List.getElem_mem hm)
  · rw [List.getD_eq_default _ _ (by omega)] at h
    omega

/-- What the fields of a datetime are less than. -/
structure DateTime.Short (d : DateTime) : Prop where
  year : d.year < 10 ^ 4
  month : d.month < 10 ^ 2
  day : d.day < 10 ^ 2
  hour : d.hour < 10 ^ 2
  minute : d.minute < 10 ^ 2
  second : d.second < 10 ^ 2
  microsecond : d.microsecond < 1000000

theorem DateTime.Valid.short {d : DateTime} (h : d.Valid) : d.Short := by
  have hdays := daysInMonth_pos (h.day.1.trans h.day.2)
  have hyear := h.year.2
  have hday := h.day.2
  have hhour := h.hour
  have hminute := h.minute
  have hsecond := h.second
  unfold maxYear at hyear
  refine ⟨?_, ?_, ?_, ?_, ?_, ?_, h.microsecond⟩ <;> omega

/-- A padded field is read up to its separator. -/
theorem read_field {β : Type} {w n : Nat} (h : n < 10 ^ w) (hw : 0 < w) (c : Char) (rest : List Char)
    (k : Nat × List Char → List Char → Option β) :
    ((readPadded w (padded w n ++ c :: rest)).bind fun p => (expect [c] p.2).bind fun cs => k p cs) = k (n, c :: rest) rest := by
  rw [readPadded_padded h hw, Option.bind_some]
  have hexpect : expect [c] (c :: rest) = some rest := expect_append [c] rest
  simp only [hexpect, Option.bind_some]

theorem read_isoformat {d : DateTime} (h : d.Valid) : DateTime.fromisoformat d.isoformat = some d := by
  have hs := h.short
  unfold DateTime.isoformat DateTime.fromisoformat
  refine (read_field hs.year (by decide) '-' _ _).trans ?_
  refine (read_field hs.month (by decide) '-' _ _).trans ?_
  refine (read_field hs.day (by decide) 'T' _ _).trans ?_
  refine (read_field hs.hour (by decide) ':' _ _).trans ?_
  refine (read_field hs.minute (by decide) ':' _ _).trans ?_
  rw [readPadded_padded hs.second (by decide), Option.bind_some]
  simp only
  rw [readFraction_text hs.microsecond, Option.bind_some]
  exact if_pos rfl

/-- An instant's text is read as the instant. -/
theorem fromisoformat_isoformat {t : Nat} (h : t < limit) : fromisoformat (isoformat t) = some t := by
  obtain ⟨d, hd⟩ := ofInstant_isSome h
  rw [isoformat, hd, Option.map_some, Option.getD_some, fromisoformat, read_isoformat (ofInstant_valid hd), Option.bind_some,
    toInstant_ofInstant hd]

/-! ## Order -/

/-- A later position is in a later block, or further on in the same block. -/
theorem locate_lt {sizes : List Nat} {m n : Nat} {p q : Nat × Nat} (h : m < n) (hp : locate sizes m = some p)
    (hq : locate sizes n = some q) : p.1 < q.1 ∨ p.1 = q.1 ∧ p.2 < q.2 := by
  induction sizes generalizing m n p q with
  | nil => cases hp
  | cons s ss ih =>
    simp only [locate] at hp hq
    by_cases hm : m < s
    · rw [if_pos hm] at hp
      cases hp
      by_cases hn : n < s
      · rw [if_pos hn] at hq
        cases hq
        exact Or.inr ⟨rfl, h⟩
      · rw [if_neg hn] at hq
        obtain ⟨q', -, e⟩ := Option.map_eq_some_iff.mp hq
        subst e
        exact Or.inl (Nat.succ_pos _)
    · rw [if_neg hm] at hp
      rw [if_neg (by omega)] at hq
      obtain ⟨p', hp', e⟩ := Option.map_eq_some_iff.mp hp
      obtain ⟨q', hq', e'⟩ := Option.map_eq_some_iff.mp hq
      subst e e'
      rcases ih (by omega) hp' hq' with hlt | ⟨heq, hlt⟩
      · exact Or.inl (Nat.succ_lt_succ hlt)
      · exact Or.inr ⟨congrArg Nat.succ heq, hlt⟩

/-- The fields, the largest unit first. -/
def DateTime.fields (d : DateTime) : List Nat := [d.year, d.month, d.day, d.hour, d.minute, d.second, d.microsecond]

theorem fields_cons_lt {a b : Nat} {as bs : List Nat} (h : a < b ∨ a = b ∧ as < bs) : a :: as < b :: bs :=
  List.cons_lt_cons_iff.mpr h

/-- Later instants have later fields. -/
theorem fields_lt {t u : Nat} {d e : DateTime} (h : t < u) (hd : ofInstant t = some d) (he : ofInstant u = some e) :
    d.fields < e.fields := by
  obtain ⟨y, hy, hd⟩ := Option.bind_eq_some_iff.mp hd
  obtain ⟨m, hm, hd⟩ := Option.map_eq_some_iff.mp hd
  obtain ⟨y', hy', he⟩ := Option.bind_eq_some_iff.mp he
  obtain ⟨m', hm', he⟩ := Option.map_eq_some_iff.mp he
  subst hd he
  unfold DateTime.fields
  have ht := Nat.div_add_mod t microsPerDay
  have hu := Nat.div_add_mod u microsPerDay
  by_cases hdays : t / microsPerDay < u / microsPerDay
  · rcases locate_lt hdays hy hy' with hyear | ⟨hyear, hday⟩
    · exact fields_cons_lt (Or.inl (Nat.succ_lt_succ hyear))
    · refine fields_cons_lt (Or.inr ⟨congrArg Nat.succ hyear, ?_⟩)
      rw [hyear] at hm
      rcases locate_lt hday hm hm' with hmonth | ⟨hmonth, hday⟩
      · exact fields_cons_lt (Or.inl (Nat.succ_lt_succ hmonth))
      · refine fields_cons_lt (Or.inr ⟨congrArg Nat.succ hmonth, ?_⟩)
        exact fields_cons_lt (Or.inl (Nat.succ_lt_succ hday))
  · -- the same day, so the time of day decides
    have hle : t / microsPerDay ≤ u / microsPerDay := Nat.div_le_div_right (Nat.le_of_lt h)
    have hsame : t / microsPerDay = u / microsPerDay := by omega
    rw [hsame] at ht hy
    cases hy.symm.trans hy'
    cases hm.symm.trans hm'
    have hlt : t % microsPerDay < u % microsPerDay := by omega
    have hmax : u % microsPerDay < 86400000000 := Nat.mod_lt _ (by decide)
    generalize t % microsPerDay = r at hlt ⊢
    generalize u % microsPerDay = s at hlt hmax ⊢
    refine fields_cons_lt (Or.inr ⟨rfl, ?_⟩)
    refine fields_cons_lt (Or.inr ⟨rfl, ?_⟩)
    refine fields_cons_lt (Or.inr ⟨rfl, ?_⟩)
    simp only [List.cons_lt_cons_iff]
    omega

theorem digitsVal_cons (c : Char) (cs : List Char) : digitsVal (c :: cs) = 10 ^ cs.length * (c.toNat - 48) + digitsVal cs := by
  have h := digitsVal_append [c] cs
  have hc : digitsVal [c] = c.toNat - 48 := by simp [digitsVal, Nat.ofDigitChars]
  rw [hc] at h
  exact h

theorem isDigit_bounds {c : Char} (h : c.isDigit = true) : 48 ≤ c.toNat ∧ c.toNat ≤ 57 := by
  simp only [Char.isDigit, Bool.and_eq_true, decide_eq_true_iff] at h
  exact ⟨UInt32.le_iff_toNat_le.mp h.1, UInt32.le_iff_toNat_le.mp h.2⟩

theorem digitsVal_lt {cs : List Char} (h : ∀ c ∈ cs, c.isDigit = true) : digitsVal cs < 10 ^ cs.length := by
  induction cs with
  | nil => decide
  | cons c cs ih =>
    have hc := isDigit_bounds (h c List.mem_cons_self)
    have hcs := ih fun d hd => h d (List.mem_cons_of_mem _ hd)
    have hle : 10 ^ cs.length * (c.toNat - 48) ≤ 10 ^ cs.length * 9 := Nat.mul_le_mul_left _ (by omega)
    rw [digitsVal_cons, List.length_cons, Nat.pow_succ]
    omega

/-- Numbers of one length are in the order of their digits. -/
theorem digits_lt {xs ys : List Char} (hx : ∀ c ∈ xs, c.isDigit = true) (hy : ∀ c ∈ ys, c.isDigit = true)
    (hl : xs.length = ys.length) (h : digitsVal xs < digitsVal ys) : xs < ys := by
  induction xs generalizing ys with
  | nil =>
    rw [List.length_eq_zero_iff.mp hl.symm] at h
    omega
  | cons c cs ih =>
    cases ys with
    | nil => cases hl
    | cons d ds =>
      have hlen : cs.length = ds.length := Nat.succ.inj hl
      have hx' : ∀ c ∈ cs, c.isDigit = true := fun e he => hx e (List.mem_cons_of_mem _ he)
      have hy' : ∀ c ∈ ds, c.isDigit = true := fun e he => hy e (List.mem_cons_of_mem _ he)
      rw [digitsVal_cons, digitsVal_cons, hlen] at h
      rw [List.cons_lt_cons_iff]
      rcases lt_trichotomy c d with hlt | e | hgt
      · exact Or.inl hlt
      · subst e
        exact Or.inr ⟨rfl, ih hx' hy' hlen (by omega)⟩
      · -- a larger first digit outweighs all the digits behind it
        have hgt : d.toNat < c.toNat := hgt
        have hd := isDigit_bounds (hy d List.mem_cons_self)
        have hlast := digitsVal_lt hy'
        have hmul : 10 ^ ds.length * (d.toNat - 48 + 1) ≤ 10 ^ ds.length * (c.toNat - 48) := Nat.mul_le_mul_left _ (by omega)
        rw [Nat.mul_succ] at hmul
        omega

theorem padded_lt {w m n : Nat} (h : m < n) (hn : n < 10 ^ w) (hw : 0 < w) : padded w m < padded w n := by
  apply digits_lt
  · exact List.all_eq_true.mp (padded_digits w m)
  · exact List.all_eq_true.mp (padded_digits w n)
  · rw [padded_length (h.trans hn) hw, padded_length hn hw]
  · rw [digitsVal_padded, digitsVal_padded]
    exact h

/-- A padded field decides, or what follows it. -/
theorem padded_field_lt {w m n : Nat} {as bs : List Char} (hm : m < 10 ^ w) (hn : n < 10 ^ w) (hw : 0 < w)
    (h : m < n ∨ m = n ∧ as < bs) : padded w m ++ as < padded w n ++ bs := by
  apply TextOrder.field_lt
  · rw [padded_length hm hw, padded_length hn hw]
  · rcases h with h | ⟨e, h⟩
    · exact Or.inl (padded_lt h hn hw)
    · exact Or.inr ⟨congrArg _ e, h⟩

/-- A field and the separator after it. -/
theorem separated_lt {w m n : Nat} {c : Char} {as bs : List Char} (hm : m < 10 ^ w) (hn : n < 10 ^ w) (hw : 0 < w)
    (h : m < n ∨ m = n ∧ as < bs) : padded w m ++ c :: as < padded w n ++ c :: bs := by
  apply padded_field_lt hm hn hw
  rcases h with h | ⟨e, h⟩
  · exact Or.inl h
  · exact Or.inr ⟨e, List.cons_lt_cons_iff.mpr (Or.inr ⟨rfl, h⟩)⟩

/-- No fraction comes before every fraction: `+` is before `.`. -/
theorem fraction_lt {m n : Nat} (h : m < n) (hn : n < 1000000) :
    (if m = 0 then [] else '.' :: padded 6 m) ++ "+00:00".toList < (if n = 0 then [] else '.' :: padded 6 n) ++ "+00:00".toList := by
  rw [if_neg (by omega : n ≠ 0)]
  by_cases hm : m = 0
  · rw [if_pos hm]
    exact List.cons_lt_cons_iff.mpr (Or.inl (by decide))
  · rw [if_neg hm]
    exact List.cons_lt_cons_iff.mpr (Or.inr ⟨rfl, padded_field_lt (h.trans hn) hn (by decide) (Or.inl h)⟩)

theorem text_lt {d e : DateTime} (hd : d.Short) (he : e.Short) (h : d.fields < e.fields) : d.isoformat < e.isoformat := by
  simp only [DateTime.fields, List.cons_lt_cons_iff, List.not_lt_nil, and_false, or_false] at h
  unfold DateTime.isoformat
  refine separated_lt hd.year he.year (by decide) (h.imp_right (And.imp_right fun h => ?_))
  refine separated_lt hd.month he.month (by decide) (h.imp_right (And.imp_right fun h => ?_))
  refine separated_lt hd.day he.day (by decide) (h.imp_right (And.imp_right fun h => ?_))
  refine separated_lt hd.hour he.hour (by decide) (h.imp_right (And.imp_right fun h => ?_))
  refine separated_lt hd.minute he.minute (by decide) (h.imp_right (And.imp_right fun h => ?_))
  exact padded_field_lt hd.second he.second (by decide) (h.imp_right (And.imp_right fun h => fraction_lt h he.microsecond))

theorem isoformat_lt {t u : Nat} (h : t < u) (hu : u < limit) : isoformat t < isoformat u := by
  obtain ⟨d, hd⟩ := ofInstant_isSome (h.trans hu)
  obtain ⟨e, he⟩ := ofInstant_isSome hu
  rw [isoformat, isoformat, hd, he]
  exact text_lt (ofInstant_valid hd).short (ofInstant_valid he).short (fields_lt h hd he)

/-- The texts of instants are in the order of the instants. -/
theorem isoformat_lt_iff {t u : Nat} (ht : t < limit) (hu : u < limit) : isoformat t < isoformat u ↔ t < u := by
  constructor
  · intro h
    rcases Nat.lt_trichotomy t u with hlt | e | hgt
    · exact hlt
    · subst e
      exact absurd h (List.lt_irrefl _)
    · exact absurd h (List.lt_asymm (isoformat_lt hgt ht))
  · intro h
    exact isoformat_lt h hu

end Lib.Calendar
