import UpdateSeal.Json.Token
import UpdateSeal.Decimal.Shortest
import UpdateSeal.Bytes

/-!
# Writing JSON

Values are written without blanks. A style says whether members are sorted by name, how strings are
escaped, and how numbers are laid out. Special numbers have no JSON form and are written as `null`.
-/

namespace UpdateSeal.Json

structure Style where
  /-- Members are written in the order of their names. -/
  sorted : Bool
  /-- Characters outside printable ASCII are written as escapes of 16-bit units. -/
  ascii : Bool
  numbers : Decimal.Form
deriving DecidableEq, Repr

/-- The form that is hashed: sorted names, ASCII only, and small or great numbers with an exponent
of two digits. -/
def canonical : Style where
  sorted := true
  ascii := true
  numbers := { plainFrom := -3, plainUpTo := 16, exponentWidth := 2 }

/-- The form of a stored line: members in their own order and text as it is. -/
def plain : Style where
  sorted := false
  ascii := false
  numbers := { plainFrom := -4, plainUpTo := 16, exponentWidth := 1 }

def unitEscape (n : Nat) : List Char :=
  '\\' :: 'u' :: Bytes.hexChars (Bytes.ofNat 2 n)

/-- The escape of a character that may not stand for itself in any string. -/
def shortEscape? : Char → Option Char
  | '"' => some '"'
  | '\\' => some '\\'
  | '\x08' => some 'b'
  | '\x0c' => some 'f'
  | '\n' => some 'n'
  | '\r' => some 'r'
  | '\t' => some 't'
  | _ => none

def escapeChar (ascii : Bool) (c : Char) : List Char :=
  match shortEscape? c with
  | some e => ['\\', e]
  | none =>
    let n := c.toNat
    if n < 32 then unitEscape n
    else if !ascii || n < 127 then [c]
    else if n < 0x10000 then unitEscape n
    else
      unitEscape (0xd800 + (n - 0x10000) / 0x400) ++ unitEscape (0xdc00 + (n - 0x10000) % 0x400)

def writeString (ascii : Bool) (s : String) : List Char :=
  '"' :: s.toList.flatMap (escapeChar ascii) ++ ['"']

def writeInt (n : Int) : List Char := (toString n).toList

def writeFloat (numbers : Decimal.Form) : Decimal.Binary64 → List Char
  | .finite negative code => numbers.writeFinite negative code
  | _ => "null".toList

def commaSeparated : List (List Char) → List Char
  | [] => []
  | [t] => t
  | t :: ts => t ++ ',' :: commaSeparated ts

def bracketed (ts : List (List Char)) : List Char := '[' :: commaSeparated ts ++ [']']

def braced (ts : List (List Char)) : List Char := '\x7b' :: commaSeparated ts ++ ['\x7d']

/-- Puts a named text before the first one whose name is greater. -/
def insertByName {α : Type} (p : String × α) : List (String × α) → List (String × α)
  | [] => [p]
  | q :: qs => if p.1 < q.1 then p :: q :: qs else q :: insertByName p qs

/-- Sorts by name; equal names keep their order. -/
def sortByName {α : Type} (ps : List (String × α)) : List (String × α) :=
  ps.foldl (fun sorted p => insertByName p sorted) []

def joinMembers (style : Style) (ms : List (String × List Char)) : List Char :=
  let ms := if style.sorted then sortByName ms else ms
  braced (ms.map fun m => writeString style.ascii m.1 ++ ':' :: m.2)

mutual

def write (style : Style) : Value → List Char
  | .null => "null".toList
  | .bool true => "true".toList
  | .bool false => "false".toList
  | .int n => writeInt n
  | .float x => writeFloat style.numbers x
  | .str s => writeString style.ascii s
  | .arr items => bracketed (writeItems style items)
  | .obj members => joinMembers style (writeMembers style members)

def writeItems (style : Style) : List Value → List (List Char)
  | [] => []
  | v :: vs => write style v :: writeItems style vs

def writeMembers (style : Style) : List (String × Value) → List (String × List Char)
  | [] => []
  | (name, v) :: ms => (name, write style v) :: writeMembers style ms

end

end UpdateSeal.Json
