import UpdateSeal.Text.Lines

/-!
# Files of variables

A file of variables gives each a value in a statement `NAME=value`, with blank lines and comments
between them. A value may be quoted and then run over several lines; inside double quotes escapes
stand for control characters. A reference `${NAME}` or `${NAME:-default}` in a value stands for
what the variable holds by then. Statements that do not follow these rules are passed over.
-/

namespace UpdateSeal

/-- Variables and what they hold, in the order in which they were first named. One that is named
without a value holds nothing. -/
abbrev Variables := List (String × Option String)

namespace Variables

/-- Gives `name` a value, in place if the name is there and at the end otherwise. -/
def assign (name : String) (value : Option String) : Variables → Variables
  | [] => [(name, value)]
  | v :: vs => if v.1 = name then (name, value) :: vs else v :: assign name value vs

/-- What the last variable holds whose name is `name` in lower case. -/
def find? (vs : Variables) (name : String) : Option String :=
  (vs.reverse.find? fun v => v.1.toLower == name).bind (·.2)

end Variables

namespace EnvFile

open Text

/-- A part of the text and what follows it, or what follows a fault. -/
abbrev Step (α : Type) := Except (List Char) (α × List Char)

def isInline (c : Char) : Bool := isSpace c && c != '\n'

def skipInline (cs : List Char) : List Char := cs.dropWhile isInline

def isNameChar (c : Char) : Bool := !(c == '=' || c == '#' || isSpace c)

/-- The name of a statement; a comment has none. -/
def name (cs : List Char) : Step (Option String) :=
  match cs with
  | '#' :: _ => .ok (none, cs)
  | '\'' :: rest =>
    match rest.takeWhile (· != '\''), rest.dropWhile (· != '\'') with
    | [], _ | _, [] => .error cs
    | quoted, _ :: rest => .ok (some (String.ofList quoted), rest)
  | cs =>
    match cs.takeWhile isNameChar with
    | [] => .error cs
    | plain => .ok (some (String.ofList plain), cs.dropWhile isNameChar)

/-- Splits at the quote that closes a value: the first without a backslash before it, or else the
last one. -/
def closeQuote (mark : Char) : List Char → Option (List Char × List Char)
  | [] => none
  | '\\' :: c :: rest =>
    if c == mark then
      match closeQuote mark rest with
      | some (value, rest) => some ('\\' :: c :: value, rest)
      | none => some (['\\'], rest)
    else (closeQuote mark (c :: rest)).map fun (value, rest) => ('\\' :: value, rest)
  | c :: rest =>
    if c == mark then some ([], rest)
    else (closeQuote mark rest).map fun (value, rest) => (c :: value, rest)

/-- Replaces a backslash and the character behind it where they are an escape. -/
def unescape (escape? : Char → Option Char) : List Char → List Char
  | [] => []
  | '\\' :: c :: rest =>
    match escape? c with
    | some e => e :: unescape escape? rest
    | none => '\\' :: unescape escape? (c :: rest)
  | c :: rest => c :: unescape escape? rest

def singleEscape? (c : Char) : Option Char := if c == '\\' || c == '\'' then some c else none

def doubleEscape? : Char → Option Char
  | '"' => some '"'
  | 'a' => some '\x07'
  | 'b' => some '\x08'
  | 'f' => some '\x0c'
  | 'n' => some '\n'
  | 'r' => some '\r'
  | 't' => some '\t'
  | 'v' => some '\x0b'
  | c => singleEscape? c

/-- What stands before a comment that has a blank before it. -/
def beforeComment : List Char → List Char
  | [] => []
  | c :: '#' :: rest => if isSpace c then [] else c :: beforeComment ('#' :: rest)
  | c :: rest => c :: beforeComment rest

def quotedValue (mark : Char) (escape? : Char → Option Char) (cs : List Char) : Step String :=
  match closeQuote mark (cs.drop 1) with
  | some (value, rest) => .ok (String.ofList (unescape escape? value), rest)
  | none => .error cs

def value (cs : List Char) : Step String :=
  match cs with
  | '\'' :: _ => quotedValue '\'' singleEscape? cs
  | '"' :: _ => quotedValue '"' doubleEscape? cs
  | cs =>
    let line := cs.takeWhile (· != '\n')
    .ok (String.ofList (trimRight isSpace (beforeComment line)), cs.dropWhile (· != '\n'))

def valueBehind (cs : List Char) : Step (Option String) :=
  match skipInline cs with
  | '=' :: rest => (value (skipInline rest)).map fun (v, rest) => (some v, rest)
  | rest => .ok (none, rest)

/-- Skips a comment and the end of the line, behind which nothing else may stand. -/
def endLine (cs : List Char) : Step Unit :=
  match skipInline cs with
  | [] => .ok ((), [])
  | '\n' :: rest => .ok ((), rest)
  | '#' :: rest => .ok ((), (rest.dropWhile (· != '\n')).drop 1)
  | _ => .error cs

/-- Skips the word `export` before a name. -/
def skipExport (cs : List Char) : List Char :=
  match cs with
  | 'e' :: 'x' :: 'p' :: 'o' :: 'r' :: 't' :: c :: rest => if isInline c then skipInline rest else cs
  | cs => cs

def statement (cs : List Char) :
    Except (List Char) (Option (String × Option String) × List Char) := do
  let (name, rest) ← name (skipExport cs)
  let (value, rest) ← valueBehind rest
  let ((), rest) ← endLine rest
  return (name.map fun name => (name, value), rest)

/-- The statements of a text, at most `n` of them. -/
def statements : Nat → List Char → List (String × Option String)
  | 0, _ => []
  | n + 1, cs =>
    match cs.dropWhile isSpace with
    | [] => []
    | cs =>
      match statement cs with
      | .ok (s, rest) => s.toList ++ statements n rest
      | .error rest => statements n ((rest.dropWhile (· != '\n')).drop 1)

/-- A reference to a variable behind `${`, with its default, and what follows it. -/
def reference? (cs : List Char) : Option (String × String × List Char) :=
  let name := String.ofList (cs.takeWhile fun c => c != '\x7d' && c != ':')
  match cs.dropWhile fun c => c != '\x7d' && c != ':' with
  | '\x7d' :: rest => some (name, "", rest)
  | ':' :: '-' :: rest =>
    match rest.dropWhile (· != '\x7d') with
    | '\x7d' :: after => some (name, String.ofList (rest.takeWhile (· != '\x7d')), after)
    | _ => none
  | _ => none

/-- Puts what variables hold in place of the references to them, at most `n` of them. -/
def expand (lookup : String → Option (Option String)) : Nat → List Char → List Char
  | 0, cs => cs
  | _, [] => []
  | n + 1, '$' :: '\x7b' :: rest =>
    match reference? rest with
    | some (name, default, rest) =>
      (((lookup name).getD (some default)).getD "").toList ++ expand lookup n rest
    | none => '$' :: expand lookup n ('\x7b' :: rest)
  | n + 1, c :: rest => c :: expand lookup n rest

/-- The variables that statements give values to, seeing those given before and `outer`. -/
def evaluate (outer : Variables) (found : Variables) : List (String × Option String) → Variables
  | [] => found
  | (name, value) :: rest =>
    let lookup (name : String) := (List.lookup name found).or (List.lookup name outer)
    let value := value.map fun v => String.ofList (expand lookup v.toList.length v.toList)
    evaluate outer (found.assign name value) rest

/-- Reads a file of variables, in which those of `outer` may be referred to. -/
def read (outer : Variables) (text : String) : Variables :=
  let cs := unifyBreaks text.toList
  evaluate outer [] (statements cs.length cs)

end EnvFile

end UpdateSeal
