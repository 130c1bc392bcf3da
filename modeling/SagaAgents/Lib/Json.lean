/-
  Lib.Json — JSON values, `json.dumps` and `json.loads`.

  A string is a list of code points, lone surrogates included. A mapping keeps its keys in
  order; read from a text, the last member with a key counts, at the place of the first.
  `dumps` raises (`none`) on an integer of more than 4300 digits, and without `allowNan` on
  NaN and the infinities. `loads` reads any text; it takes the constants NaN and
  Infinity, and raises on an integer of more than 4300 digits.
-/

import SagaAgents.Lib.Binary64
import SagaAgents.Lib.Keyed
import SagaAgents.Lib.Scan

namespace Lib

/-! ## Values -/

abbrev CodePoint := Fin 0x110000

abbrev Text := List CodePoint

inductive Json where
  | null
  | bool (b : Bool)
  | int (i : Int)
  | float (x : Binary64)
  | str (s : Text)
  | list (vs : List Json)
  | obj (members : List (Text × Json))

def CodePoint.ofChar (c : Char) : CodePoint := Fin.ofNat _ c.toNat

def Text.ofString (s : String) : Text := s.toList.map CodePoint.ofChar

/-- The string of a text without surrogates. -/
def Text.toStr (t : Text) : String := String.ofList (t.map fun c => Char.ofNat c.val)

def isHigh (c : CodePoint) : Bool := 0xd800 ≤ c.val && c.val < 0xdc00

def isLow (c : CodePoint) : Bool := 0xdc00 ≤ c.val && c.val < 0xe000

/-- The code point is a Unicode scalar value. -/
def isScalar (c : CodePoint) : Bool := !isHigh c && !isLow c

namespace Json

mutual

/-- Every value in the tree satisfies `p`. -/
def all (p : Json → Bool) : Json → Bool
  | .list vs => p (.list vs) && allElems p vs
  | .obj ms => p (.obj ms) && allMembers p ms
  | v => p v

def allElems (p : Json → Bool) : List Json → Bool
  | [] => true
  | v :: vs => all p v && allElems p vs

def allMembers (p : Json → Bool) : List (Text × Json) → Bool
  | [] => true
  | (_, v) :: ms => all p v && allMembers p ms

end

def maxStrDigits : Nat := 4300

/-- The digits of an integer, within the limit for conversions to and from text. -/
def shortDigits (ds : List Char) : Bool := decide (ds.length ≤ maxStrDigits)

def shortInt : Json → Bool
  | .int i => shortDigits (Nat.toDigits 10 i.natAbs)
  | _ => true

def finiteFloat : Json → Bool
  | .float x => x.isFinite
  | _ => true

def scalarText : Json → Bool
  | .str s => s.all isScalar
  | .obj ms => ms.all fun m => m.1.all isScalar
  | _ => true

def distinctKeys : Json → Bool
  | .obj ms => decide (ms.map Prod.fst).Nodup
  | _ => true

/-! ## Writing -/

def isWs (c : Char) : Bool := [' ', '\t', '\n', '\r'].contains c

/-- The options of `json.dumps`: the blank after a comma or a colon, whether characters
    past ASCII are escaped, and whether NaN and the infinities are written. -/
structure Style where
  gap : List Char
  ensureAscii : Bool
  allowNan : Bool
  blank : ∀ c ∈ gap, isWs c = true

theorem isWs_space : ∀ c ∈ [' '], isWs c = true := by
  intro c hc
  rw [List.mem_singleton.mp hc]
  rfl

/-- The style of `json.dumps` without options. -/
def Style.plain : Style := ⟨[' '], true, true, isWs_space⟩

def hexDigits (n : Nat) : List Char :=
  [n / 4096 % 16, n / 256 % 16, n / 16 % 16, n % 16].map Nat.digitChar

def unicodeEscape (n : Nat) : List Char := '\\' :: 'u' :: hexDigits n

/-- The UTF-16 code units of a code point. -/
def units (c : CodePoint) : List CodePoint :=
  if c.val < 0x10000 then [c]
  else [Fin.ofNat _ (0xd800 + (c.val - 0x10000) / 0x400), Fin.ofNat _ (0xdc00 + (c.val - 0x10000) % 0x400)]

/-- The letter that escapes a character after a backslash. -/
def shortEscapes : List (Char × Nat) :=
  [('"', 0x22), ('\\', 0x5c), ('/', 0x2f), ('b', 0x08), ('f', 0x0c), ('n', 0x0a), ('r', 0x0d), ('t', 0x09)]

/-- The short escapes that are written; a slash is not escaped. -/
def writtenEscape (n : Nat) : Option Char :=
  if n = 0x2f then none else (shortEscapes.find? fun e => e.2 == n).map Prod.fst

def escape (st : Style) (c : CodePoint) : List Char :=
  match writtenEscape c.val with
  | some e => ['\\', e]
  | none =>
    if 0x20 ≤ c.val && (c.val ≤ 0x7e || (!st.ensureAscii && isScalar c)) then [Char.ofNat c.val]
    else (units c).flatMap fun u => unicodeEscape u.val

def quote (st : Style) (s : Text) : List Char := '"' :: (s.flatMap (escape st) ++ ['"'])

def printInt (i : Int) : List Char := (if i < 0 then ['-'] else []) ++ Nat.toDigits 10 i.natAbs

def printFloat : Binary64 → List Char
  | .finite x => x.repr.text
  | .inf neg => (if neg then ['-'] else []) ++ "Infinity".toList
  | .nan => "NaN".toList

mutual

def print (st : Style) : Json → List Char
  | .null => "null".toList
  | .bool b => if b then "true".toList else "false".toList
  | .int i => printInt i
  | .float x => printFloat x
  | .str s => quote st s
  | .list vs => '[' :: printElems st vs
  | .obj ms => '{' :: printMembers st ms

def printElems (st : Style) : List Json → List Char
  | [] => [']']
  | v :: vs => print st v ++ (if vs.isEmpty then [']'] else ',' :: (st.gap ++ printElems st vs))

def printMembers (st : Style) : List (Text × Json) → List Char
  | [] => ['}']
  | (k, v) :: ms =>
    quote st k ++ (':' :: (st.gap ++ (print st v ++ (if ms.isEmpty then ['}'] else ',' :: (st.gap ++ printMembers st ms)))))

end

def dumps (st : Style) (v : Json) : Option (List Char) :=
  if v.all shortInt && (st.allowNan || v.all finiteFloat) then some (print st v) else none

/-! ## Reading -/

def skipWs (cs : List Char) : List Char := cs.dropWhile isWs

def scanWhole : List Char → Option (List Char × List Char)
  | [] => none
  | c :: cs =>
    if c = '0' then some (['0'], cs)
    else if c.isDigit then some (c :: cs.takeWhile Char.isDigit, cs.dropWhile Char.isDigit)
    else none

/-- A point and digits, or nothing. -/
def scanFrac : List Char → Option (List Char) × List Char
  | '.' :: cs => if cs.takeWhile Char.isDigit = [] then (none, '.' :: cs) else (some (cs.takeWhile Char.isDigit), cs.dropWhile Char.isDigit)
  | cs => (none, cs)

def scanSign : List Char → Option Char × List Char
  | [] => (none, [])
  | c :: cs => if c = '+' ∨ c = '-' then (some c, cs) else (none, c :: cs)

/-- A marker, a sign or none, and digits; or nothing. -/
def scanExp : List Char → Option Exponent × List Char
  | [] => (none, [])
  | c :: cs =>
    if (c = 'e' ∨ c = 'E') ∧ (scanSign cs).2.takeWhile Char.isDigit ≠ [] then
      (some ⟨c, (scanSign cs).1, (scanSign cs).2.takeWhile Char.isDigit⟩, (scanSign cs).2.dropWhile Char.isDigit)
    else (none, c :: cs)

def scanNumber (cs : List Char) : Option (Literal × List Char) :=
  let cs' := (expect ['-'] cs).getD cs
  (scanWhole cs').map fun w =>
    let f := scanFrac w.2
    let e := scanExp f.2
    ({ neg := (expect ['-'] cs).isSome, whole := w.1, frac := f.1, exp := e.1 }, e.2)

def ofNumber (l : Literal) : Option Json :=
  if l.isFloat then some (.float (ofLiteral l))
  else if shortDigits l.whole then some (.int (if l.neg then -(digitsVal l.whole) else digitsVal l.whole))
  else none

def hexVal (c : Char) : Option Nat :=
  let n := c.toNat
  if 0x30 ≤ n ∧ n ≤ 0x39 then some (n - 0x30)
  else if 0x61 ≤ n ∧ n ≤ 0x66 then some (n - 0x61 + 10)
  else if 0x41 ≤ n ∧ n ≤ 0x46 then some (n - 0x41 + 10)
  else none

def hex4 (a b c d : Char) : Option CodePoint := do
  let a ← hexVal a
  let b ← hexVal b
  let c ← hexVal c
  let d ← hexVal d
  pure (Fin.ofNat _ (a * 4096 + b * 256 + c * 16 + d))

def readEscape (e : Char) : Option CodePoint := (shortEscapes.find? fun p => p.1 == e).map fun p => Fin.ofNat _ p.2

/-- The code units of a string, up to its closing quote. -/
def scanUnits : List Char → Option (List CodePoint × List Char)
  | [] => none
  | '\\' :: 'u' :: a :: b :: c :: d :: cs =>
    (hex4 a b c d).bind fun u => (scanUnits cs).map fun p => (u :: p.1, p.2)
  | '\\' :: e :: cs => (readEscape e).bind fun u => (scanUnits cs).map fun p => (u :: p.1, p.2)
  | c :: cs =>
    if c = '"' then some ([], cs)
    else if c.toNat < 0x20 ∨ c = '\\' then none
    else (scanUnits cs).map fun p => (CodePoint.ofChar c :: p.1, p.2)

/-- A high surrogate takes the low one that follows it. -/
def joinPairs : List CodePoint → Text
  | h :: l :: us =>
    if isHigh h && isLow l then Fin.ofNat _ (0x10000 + (h.val - 0xd800) * 0x400 + (l.val - 0xdc00)) :: joinPairs us
    else h :: joinPairs (l :: us)
  | us => us

def scanString (cs : List Char) : Option (Text × List Char) := (scanUnits cs).map fun p => (joinPairs p.1, p.2)

def constants : List (List Char × Json) :=
  [("null".toList, .null), ("true".toList, .bool true), ("false".toList, .bool false), ("NaN".toList, .float .nan),
   ("Infinity".toList, .float (.inf false)), ("-Infinity".toList, .float (.inf true))]

/-- A constant or a number. -/
def scanScalar (cs : List Char) : Option (Json × List Char) :=
  match constants.findSome? fun c => (expect c.1 cs).map fun rest => (c.2, rest) with
  | some p => some p
  | none => (scanNumber cs).bind fun p => (ofNumber p.1).map fun v => (v, p.2)

/-- Members with the same key are one member. -/
def dict (ms : List (Text × Json)) : List (Text × Json) := (Keyed.ofList Prod.fst ms).rows

mutual

/-- The value at the head of the text, with fuel. -/
def parseValue : Nat → List Char → Option (Json × List Char)
  | 0, _ | _, [] => none
  | n + 1, c :: cs =>
    if c = '"' then (scanString cs).map fun p => (.str p.1, p.2)
    else if c = '[' then
      match expect [']'] (skipWs cs) with
      | some rest => some (.list [], rest)
      | none => (parseElems n (skipWs cs)).map fun p => (.list p.1, p.2)
    else if c = '{' then
      match expect ['}'] (skipWs cs) with
      | some rest => some (.obj [], rest)
      | none => (parseMembers n (skipWs cs)).map fun p => (.obj (dict p.1), p.2)
    else scanScalar (c :: cs)

/-- The elements of a list up to its closing bracket. -/
def parseElems : Nat → List Char → Option (List Json × List Char)
  | 0, _ => none
  | n + 1, cs =>
    (parseValue n cs).bind fun p =>
      match skipWs p.2 with
      | ',' :: rest => (parseElems n (skipWs rest)).map fun q => (p.1 :: q.1, q.2)
      | ']' :: rest => some ([p.1], rest)
      | _ => none

/-- The members of a mapping up to its closing brace. -/
def parseMembers : Nat → List Char → Option (List (Text × Json) × List Char)
  | 0, _ => none
  | n + 1, cs =>
    (expect ['"'] cs).bind fun cs => (scanString cs).bind fun k => (expect [':'] (skipWs k.2)).bind fun cs =>
      (parseValue n (skipWs cs)).bind fun p =>
        match skipWs p.2 with
        | ',' :: rest => (parseMembers n (skipWs rest)).map fun q => ((k.1, p.1) :: q.1, q.2)
        | '}' :: rest => some ([(k.1, p.1)], rest)
        | _ => none

end

/-- `json.loads`. Each value in a text takes at least one character of it. -/
def loads (cs : List Char) : Option Json :=
  (parseValue (cs.length + 1) (skipWs cs)).bind fun p => if skipWs p.2 = [] then some p.1 else none

end Json

end Lib
