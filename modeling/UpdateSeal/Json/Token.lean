import UpdateSeal.Decimal.Binary64

/-!
# JSON values and tokens

Numbers written without fraction and exponent are integers of any size; all others are binary
numbers. The members of an object keep the order in which their names first came, and a name that
comes again replaces the value.

A text is cut into tokens from the front. Where no token starts the list ends with `invalid`, so
the reader meets the fault at its place. Numbers keep the numeral that they spell. There is a
greatest length of them, beyond which only the length is kept; rules differ in what counts for it.
-/

namespace UpdateSeal.Json

inductive Value where
  | null
  | bool (b : Bool)
  | int (n : Int)
  | float (x : Decimal.Binary64)
  | str (s : String)
  | arr (items : List Value)
  | obj (members : List (String × Value))
deriving Inhabited, Repr

abbrev Members := List (String × Value)

/-- Gives `name` the value `v`, in place if the name is there and at the end otherwise. -/
def Members.insert (name : String) (v : Value) : Members → Members
  | [] => [(name, v)]
  | (other, w) :: ms => if other = name then (name, v) :: ms else (other, w) :: insert name v ms

/-- The members in the order of their first names, each with its last value. -/
def Members.ofPairs (pairs : List (String × Value)) : Members :=
  pairs.foldl (fun ms p => insert p.1 p.2 ms) []

def Members.get? (ms : Members) (name : String) : Option Value := List.lookup name ms

/-! ### Tokens -/

/-- What a text may hold beside standard JSON, and its limits. -/
structure Rules where
  /-- What an unpaired surrogate escape stands for, if it is accepted. -/
  unpaired : Option Char
  /-- The greatest depth of arrays and objects that hold something, if there is one. -/
  nesting : Option Nat
  /-- Whether `maxDigits` is for the sign as well, and for the whole part of any number. Otherwise
  it is for the digits of integers alone. -/
  countsSign : Bool
deriving DecidableEq, Repr

/-- The rules of stored records: standard JSON and the names of the special numbers, nested at most
200 deep. -/
def strict : Rules := ⟨none, some 200, true⟩

/-- The rules of documents that come from elsewhere: unpaired surrogates and any depth are accepted. -/
def lenient : Rules := ⟨some (Char.ofNat 0xfffd), none, false⟩

/-- The greatest length of a whole number. -/
def maxDigits : Nat := 4300

inductive Token where
  | openArray
  | closeArray
  | openObject
  | closeObject
  | comma
  | colon
  | null
  | bool (b : Bool)
  | int (n : Int)
  | float (x : Decimal.Binary64)
  | str (s : String)
  /-- A number longer than `maxDigits`, with so many digits before any point. -/
  | longInt (digits : Nat)
  | invalid
deriving DecidableEq, Repr

def isBlank (c : Char) : Bool := c == ' ' || c == '\t' || c == '\n' || c == '\r'

def isDigit (c : Char) : Bool := '0' ≤ c && c ≤ '9'

def digitValue (c : Char) : Nat := c.toNat - 48

def numeral (ds : List Char) : Nat := ds.foldl (fun n c => 10 * n + digitValue c) 0

def hexValue? (c : Char) : Option Nat :=
  if isDigit c then some (digitValue c)
  else if 'a' ≤ c ∧ c ≤ 'f' then some (c.toNat - 87)
  else if 'A' ≤ c ∧ c ≤ 'F' then some (c.toNat - 55)
  else none

def hexUnit? (a b c d : Char) : Option Nat := do
  return (((← hexValue? a) * 16 + (← hexValue? b)) * 16 + (← hexValue? c)) * 16 + (← hexValue? d)

/-! ### Strings -/

/-- A character of a string, or the 16-bit unit that an escape gives. -/
inductive Piece where
  | char (c : Char)
  | unit (n : Nat)
deriving DecidableEq, Repr

def escaped? : Char → Option Char
  | '"' => some '"'
  | '\\' => some '\\'
  | '/' => some '/'
  | 'b' => some '\x08'
  | 'f' => some '\x0c'
  | 'n' => some '\n'
  | 'r' => some '\r'
  | 't' => some '\t'
  | _ => none

/-- Reads the pieces of a string behind its opening quote, and counts the characters up to and with
the closing one. `done` and `count` hold what was read before, newest first. -/
def pieces (done : List Piece) (count : Nat) : List Char → Option (List Piece × Nat)
  | [] => none
  | '"' :: _ => some (done.reverse, count + 1)
  | '\\' :: 'u' :: a :: b :: c :: d :: rest =>
    match hexUnit? a b c d with
    | some n => pieces (.unit n :: done) (count + 6) rest
    | none => none
  | '\\' :: e :: rest =>
    match escaped? e with
    | some c => pieces (.char c :: done) (count + 2) rest
    | none => none
  | c :: rest => if c < ' ' ∨ c = '\\' then none else pieces (.char c :: done) (count + 1) rest

def isHighUnit (n : Nat) : Bool := 0xd800 ≤ n && n < 0xdc00

def isLowUnit (n : Nat) : Bool := 0xdc00 ≤ n && n < 0xe000

/-- The text of a string: a high unit followed by a low one is one character, and a unit left alone
stands for `unpaired`. -/
def joinPieces (unpaired : Option Char) : List Piece → Option (List Char)
  | [] => some []
  | .char c :: rest => (joinPieces unpaired rest).map (c :: ·)
  | .unit high :: .unit low :: rest =>
    if isHighUnit high && isLowUnit low then
      (joinPieces unpaired rest).map
        (Char.ofNat (0x10000 + (high - 0xd800) * 0x400 + (low - 0xdc00)) :: ·)
    else if isHighUnit high || isLowUnit high then do
      let c ← unpaired
      let cs ← joinPieces unpaired (.unit low :: rest)
      return c :: cs
    else (joinPieces unpaired (.unit low :: rest)).map (Char.ofNat high :: ·)
  | .unit n :: rest =>
    if isHighUnit n || isLowUnit n then do
      let c ← unpaired
      let cs ← joinPieces unpaired rest
      return c :: cs
    else (joinPieces unpaired rest).map (Char.ofNat n :: ·)

/-! ### Numbers -/

/-- A number as it is written: whole digits, digits behind the point, and the exponent. -/
structure Numeral where
  negative : Bool
  whole : List Char
  fraction : Option (List Char)
  exponent : Option Int
deriving DecidableEq, Repr

/-- The longest unsigned whole part at the front: a single zero, or digits that start otherwise. -/
def wholeDigits : List Char → List Char
  | '0' :: _ => ['0']
  | cs => cs.takeWhile isDigit

/-- A point and the digits behind it, with the number of characters they take. -/
def fractionDigits : List Char → Option (List Char) × Nat
  | '.' :: cs =>
    match cs.takeWhile isDigit with
    | [] => (none, 0)
    | ds => (some ds, ds.length + 1)
  | _ => (none, 0)

/-- An exponent, with the number of characters it takes. -/
def exponentPart : List Char → Option Int × Nat
  | e :: cs =>
    if e == 'e' || e == 'E' then
      match cs with
      | '+' :: cs =>
        match cs.takeWhile isDigit with
        | [] => (none, 0)
        | ds => (some (numeral ds), ds.length + 2)
      | '-' :: cs =>
        match cs.takeWhile isDigit with
        | [] => (none, 0)
        | ds => (some (-(numeral ds : Int)), ds.length + 2)
      | cs =>
        match cs.takeWhile isDigit with
        | [] => (none, 0)
        | ds => (some (numeral ds), ds.length + 1)
    else (none, 0)
  | [] => (none, 0)

/-- How many characters of a number count towards `maxDigits`. -/
def Numeral.counted (rules : Rules) (n : Numeral) : Nat :=
  if rules.countsSign then n.negative.toNat + n.whole.length
  else if n.fraction.isNone && n.exponent.isNone then n.whole.length
  else 0

def Numeral.token (rules : Rules) (n : Numeral) : Token :=
  if maxDigits < n.counted rules then .longInt n.whole.length
  else
    match n.fraction, n.exponent with
    | none, none => .int (if n.negative then -(numeral n.whole : Int) else numeral n.whole)
    | fraction, exponent =>
      let tail := fraction.getD []
      .float (.ofDecimal n.negative (numeral (n.whole ++ tail)) (exponent.getD 0 - tail.length))

/-- The number at the front of `cs` behind its sign, and how many characters it takes. -/
def lexNumber (rules : Rules) (negative : Bool) (cs : List Char) : Token × Nat :=
  match wholeDigits cs with
  | [] => (.invalid, 0)
  | whole =>
    let rest := cs.drop whole.length
    let (fraction, f) := fractionDigits rest
    let (exponent, e) := exponentPart (rest.drop f)
    (Numeral.token rules ⟨negative, whole, fraction, exponent⟩, whole.length + f + e)

/-! ### Texts -/

def words : List (List Char × Token) :=
  [("null".toList, .null), ("true".toList, .bool true), ("false".toList, .bool false),
   ("NaN".toList, .float .nan), ("Infinity".toList, .float (.infinite false)),
   ("-Infinity".toList, .float (.infinite true))]

/-- The token that starts with `c`, and how many of the characters behind `c` belong to it. -/
def lex (rules : Rules) (c : Char) (rest : List Char) : Token × Nat :=
  match c with
  | '[' => (.openArray, 0)
  | ']' => (.closeArray, 0)
  | '\x7b' => (.openObject, 0)
  | '\x7d' => (.closeObject, 0)
  | ',' => (.comma, 0)
  | ':' => (.colon, 0)
  | '"' =>
    match pieces [] 0 rest with
    | none => (.invalid, 0)
    | some (ps, n) =>
      match joinPieces rules.unpaired ps with
      | none => (.invalid, n)
      | some cs => (.str (String.ofList cs), n)
  | c =>
    match words.find? fun w => w.1.isPrefixOf (c :: rest) with
    | some w => (w.2, w.1.length - 1)
    | none =>
      if c == '-' then lexNumber rules true rest
      else
        let (t, n) := lexNumber rules false (c :: rest)
        (t, n - 1)

def tokens (rules : Rules) : List Char → List Token
  | [] => []
  | c :: rest =>
    if isBlank c then tokens rules rest
    else
      let (t, n) := lex rules c rest
      if t = .invalid then [.invalid] else t :: tokens rules (rest.drop n)
termination_by cs => cs.length

end UpdateSeal.Json
