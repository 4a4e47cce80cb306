import UpdateSeal.Bytes
import UpdateSeal.Json.Token
import UpdateSeal.Text.Lines

/-!
# PEM blocks

A block stands between a `BEGIN` and an `END` line of one label and holds bytes in base 64, behind
header lines if there are any. Text around blocks is skipped.
-/

namespace UpdateSeal.Pem

structure Block where
  label : String
  headers : List String
  content : Bytes
deriving DecidableEq, Repr

/-! ### Base 64 -/

def sextet? (c : Char) : Option Nat :=
  if 'A' ≤ c ∧ c ≤ 'Z' then some (c.toNat - 65)
  else if 'a' ≤ c ∧ c ≤ 'z' then some (c.toNat - 71)
  else if Json.isDigit c then some (c.toNat + 4)
  else if c == '+' then some 62
  else if c == '/' then some 63
  else none

/-- Reads base 64 with its fillers. Bits that spell no byte must be zero. -/
def unbase64 : List Char → Option Bytes
  | [] => some []
  | [a, b, '=', '='] => do
    let n := (← sextet? a) * 64 + (← sextet? b)
    if n % 16 = 0 then return [UInt8.ofNat (n / 16)] else failure
  | [a, b, c, '='] => do
    let n := ((← sextet? a) * 64 + (← sextet? b)) * 64 + (← sextet? c)
    if n % 4 = 0 then return Bytes.ofNat 2 (n / 4) else failure
  | a :: b :: c :: d :: rest => do
    let n := (((← sextet? a) * 64 + (← sextet? b)) * 64 + (← sextet? c)) * 64 + (← sextet? d)
    return Bytes.ofNat 3 n ++ (← unbase64 rest)
  | _ => none

/-! ### Blocks -/

/-- What stands before and behind the first `mark`. -/
def splitAt? (mark : Bytes) : Bytes → Option (Bytes × Bytes)
  | [] => none
  | c :: rest =>
    if mark.isPrefixOf (c :: rest) then some ([], (c :: rest).drop mark.length)
    else (splitAt? mark rest).map fun (before, behind) => (c :: before, behind)

def beginMark : Bytes := Bytes.ofText "-----BEGIN "
def endMark : Bytes := Bytes.ofText "-----END "
def dashes : Bytes := Bytes.ofText "-----"

def isBlankByte (c : UInt8) : Bool := c == 32 || c == 9 || c == 10 || c == 13

structure Raw where
  label : Bytes
  body : Bytes
  endLabel : Bytes

/-- Cuts out the first block, and what follows it. -/
def cut? (b : Bytes) : Option (Raw × Bytes) := do
  let (_, b) ← splitAt? beginMark b
  let (label, b) ← splitAt? dashes b
  let (body, b) ← splitAt? endMark (b.dropWhile isBlankByte)
  let (endLabel, b) ← splitAt? dashes b
  return (⟨label, body, endLabel⟩, b)

/-- The lines of a text, without line feeds and the carriage returns before them. -/
def linesOf (cs : List Char) : List (List Char) :=
  (cs.splitOn '\n').map fun line =>
    match line.reverse with
    | '\r' :: rest => rest.reverse
    | _ => line

def trimEnd (cs : List Char) : List Char := (cs.reverse.dropWhile Text.isBlank).reverse

/-- Headers end with the first empty line. -/
def splitHeaders (body : Bytes) : Bytes × Bytes :=
  match splitAt? [10, 10] body with
  | some r => r
  | none => (splitAt? [13, 10, 13, 10] body).getD ([], body)

def headerName? (line : List Char) : Option String :=
  if line.contains ':' then some (String.ofList (line.takeWhile (· ≠ ':'))) else none

def ofRaw? (raw : Raw) : Option Block := do
  let label ← Bytes.text? raw.label
  if label.isEmpty ∨ raw.label ≠ raw.endLabel then failure
  let (headers, data) := splitHeaders raw.body
  let content ← unbase64 ((linesOf (← Bytes.text? data).toList).flatMap trimEnd)
  let lines := (linesOf (← Bytes.text? headers).toList).filter fun line => !line.isEmpty
  return ⟨label, ← lines.mapM headerName?, content⟩

def first? (b : Bytes) : Option Block := (cut? b).bind fun r => ofRaw? r.1

/-- The blocks of a file, each before its parts are read. At most `count` are looked for. -/
def cutAll : Nat → Bytes → List Raw
  | 0, _ => []
  | count + 1, b =>
    match cut? b with
    | none => []
    | some (raw, rest) => raw :: cutAll count rest

/-- All blocks of a file, if all can be read. -/
def all? (b : Bytes) : Option (List Block) := (cutAll b.length b).mapM ofRaw?

end UpdateSeal.Pem
