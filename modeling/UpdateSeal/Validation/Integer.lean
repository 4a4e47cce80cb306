import UpdateSeal.Json.Token
import UpdateSeal.Text.Lines
import UpdateSeal.Validation.Issue

/-!
# Integers, leniently

An integer field takes an integer of any size, a truth value, a binary number without a fraction
below 2^63, or a text. A text is read as it is first, and if it spells no integer once more in its
cleaned form: without blanks around it, a plus sign, leading zeros, a point with nothing but zeros
behind it, and single underscores between digits.
-/

namespace UpdateSeal.Validation

/-- The integer that the whole text spells as it would in a stored record. -/
def plainInteger (cs : List Char) : Except Kind Int :=
  let (negative, digits) := match cs with
    | '-' :: digits => (true, digits)
    | digits => (false, digits)
  match Json.lexNumber Json.strict negative digits with
  | (.int n, count) => if count = digits.length then .ok n else .error .intParsing
  | (.longInt _, _) => .error .intParsingSize
  | _ => .error .intParsing

/-- Drops a plus sign, which no minus sign may follow. -/
def dropPlus : List Char → Option (List Char)
  | '+' :: '-' :: _ => none
  | '+' :: cs => some cs
  | cs => some cs

def startsNumber (c : Char) : Bool := Json.isDigit c || c == '-'

/-- Drops zeros, and underscores among them, up to another digit or a minus sign. The last of them
stays where nothing else would be left before a point or the end. -/
def skipZeros (last : Char) : List Char → Option (List Char)
  | [] => some [last]
  | '.' :: rest => some (last :: '.' :: rest)
  | c :: rest =>
    if c == '0' || c == '_' then skipZeros c rest
    else if startsNumber c then some (c :: rest)
    else none

def dropLeadingZeros : List Char → Option (List Char)
  | [] => none
  | '0' :: rest => skipZeros '0' rest
  | c :: rest => if startsNumber c then some (c :: rest) else none

/-- Drops a point with one or more zeros behind it and nothing else. -/
def dropZeroFraction (cs : List Char) : List Char :=
  match cs.dropWhile (· != '.') with
  | '.' :: z :: rest => if (z :: rest).all (· == '0') then cs.takeWhile (· != '.') else cs
  | _ => cs

/-- Drops the underscores, if each stands between other characters. -/
def dropUnderscores (cs : List Char) : List Char :=
  let groups := cs.splitOn '_'
  if groups.any List.isEmpty then cs else groups.flatten

def cleaned? (cs : List Char) : Option (List Char) :=
  ((dropPlus (Text.trim Text.isBlank cs)).bind dropLeadingZeros).map fun cs =>
    dropUnderscores (dropZeroFraction cs)

def integerOfText (s : String) : Except Kind Int :=
  match plainInteger s.toList with
  | .error .intParsing =>
    match cleaned? s.toList with
    | none => .error .intParsing
    | some cs => plainInteger cs
  | r => r

def integerOfFloat (x : Decimal.Binary64) : Except Kind Int :=
  match x with
  | .finite .. =>
    match x.toInt? with
    | none => .error .intFromFloat
    | some n => if n.natAbs < 0x8000000000000000 then .ok n else .error .intParsingSize
  | _ => .error .finiteNumber

def integer : Json.Value → Except Kind Int
  | .int n => .ok n
  | .bool b => .ok (if b then 1 else 0)
  | .float x => integerOfFloat x
  | .str s => integerOfText s
  | .null | .arr _ | .obj _ => .error .intType

def integerAbove (bound : Int) (v : Json.Value) : Except Kind Int := do
  let n ← integer v
  if bound < n then return n else throw .greaterThan

def integerFrom (bound : Int) (v : Json.Value) : Except Kind Int := do
  let n ← integer v
  if bound ≤ n then return n else throw .greaterThanEqual

def nullable {α : Type} (check : Json.Value → Except Kind α) : Json.Value → Except Kind (Option α)
  | .null => .ok none
  | v => (check v).map some

end UpdateSeal.Validation
