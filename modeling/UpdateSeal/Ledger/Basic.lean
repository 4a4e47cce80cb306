import UpdateSeal.Host
import UpdateSeal.Ledger.Entry
import UpdateSeal.Text.Lines

/-!
# The ledger

Entries are appended to a file, one a line. Each carries the hash of the one before it, and a seal:
the HMAC of its place in the chain and of the seal before it. An open ledger remembers the end of
the chain as it was when it was opened or last written through it.
-/

namespace UpdateSeal

/-- The end of a chain: the hash, number and seal of its last entry. -/
structure Tail where
  hash : String := genesis
  sequence : Int := 0
  signature : String := genesis
deriving DecidableEq, Repr

structure Ledger where
  path : Path
  key : Bytes
  tail : Tail := {}
deriving DecidableEq, Repr

namespace Ledger

/-- The tool that entries are made with, and its version. -/
def toolVersions : List (String × String) := [("payloadsign", "0.1.0")]

/-- The entries of the numbered lines of a ledger. Blank lines are passed over. -/
def entriesOfLines (path : Path) (number : Nat) : List (List Char) → Except Failure (List Entry)
  | [] => .ok []
  | line :: rest =>
    match Text.trim Text.isSpace line with
    | [] => entriesOfLines path (number + 1) rest
    | cs =>
      match Entry.ofLine cs with
      | .error issues => .error (.value (.ledgerEntry number path issues))
      | .ok e => (entriesOfLines path (number + 1) rest).map (e :: ·)

/-- The entries that the content of a ledger file holds. A line that is no entry counts before a
later fault in the encoding. -/
def entriesOf (path : Path) (content : Bytes) : Except Failure (List Entry) :=
  match Bytes.text? content with
  | none => do
    let _ ← entriesOfLines path 1 (Text.linesBeforeFault content)
    throw .encoding
  | some s => entriesOfLines path 1 (Text.lines s.toList)

/-- The entries of a ledger file, none if there is no file. -/
def entriesAt (path : Path) : Action (List Entry) := do
  if ← Action.fileExists path then
    Action.liftExcept id (entriesOf path (← Action.read path))
  else return []

def readEntries (l : Ledger) : Action (List Entry) := entriesAt l.path

/-- The end of the chain of `entries`. What the last entry lacks is filled in. -/
def tailOf (entries : List Entry) : Tail :=
  match entries.getLast? with
  | none => {}
  | some e =>
    { hash := if e.entryHash.getD "" = "" then genesis else e.entryHash.getD ""
      sequence := e.sequence.getD entries.length
      signature := if e.signature.getD "" = "" then genesis else e.signature.getD "" }

/-- Opens a ledger. Without a key the one in the file beside the ledger is used. -/
def openAt (path : Path) (key : Option Bytes) : Action Ledger := do
  Action.makeParents path
  let key ← match key with
    | some key => pure key
    | none => Action.loadOrCreateKey (path.withSuffix ".key") 32
  return ⟨path, key, tailOf (← entriesAt path)⟩

def sealText (e : Entry) (previousSeal : String) : String :=
  "|".intercalate
    [toString (e.sequence.getD 0), e.previousHash, e.entryHash.getD "", previousSeal]

def sealOf (key : Bytes) (e : Entry) (previousSeal : String) : String :=
  Bytes.hex (hmac key (Bytes.ofText (sealText e previousSeal)))

/-- The entry that follows `tail`, with its hash and seal. -/
def nextEntry (key : Bytes) (tail : Tail) (timestamp operation : String)
    (inputs outputs : List String) (args : Json.Members) : Entry :=
  let e : Entry :=
    { timestamp, operation, inputs, outputs, args, versions := toolVersions
      previousHash := tail.hash, sequence := some (tail.sequence + 1) }
  let e := { e with entryHash := some e.contentHash }
  { e with signature := some (sealOf key e tail.signature) }

/-- Appends an entry. The answer is the ledger that knows of it, and the entry. -/
def log (l : Ledger) (operation : String) (inputs outputs : List String) (args : Json.Members) :
    Action (Ledger × Entry) := do
  let timestamp := Timestamp.text (← Action.readClock)
  let e := nextEntry l.key l.tail timestamp operation inputs outputs args
  Action.append l.path (Bytes.ofText (String.ofList (e.line ++ ['\n'])))
  return ({ l with tail := tailOf [e] }, e)

/-- Appends an entry with these texts. One that is no string shows when the entry is to be written,
which is after the file was opened. -/
def logTexts (l : Ledger) (operation : LooseText) (inputs outputs : List LooseText)
    (args : Json.Members) : Action (Ledger × Entry) :=
  match operation.string?, inputs.mapM LooseText.string?, outputs.mapM LooseText.string? with
  | some operation, some inputs, some outputs => l.log operation inputs outputs args
  | _, _, _ => do
    let _ ← Action.readClock
    Action.append l.path []
    throw .surrogate

inductive ChainFault where
  | incomplete (index : Nat)
  | hash (index : Nat)
  | link (index : Nat)
  | signature (index : Nat)
  | sequence (index : Nat) (found : Option Int)
deriving DecidableEq, Repr

def ChainFault.message : ChainFault → String
  | .incomplete index => s!"Entry {index} is missing its hash or signature."
  | .hash index => s!"Entry {index} has invalid hash; ledger corrupted or tampered."
  | .link index => s!"Entry {index} breaks hash chain."
  | .signature index => s!"Entry {index} has invalid signature; ledger may have been tampered."
  | .sequence index found =>
    let text := match found with
      | some n => toString n
      | none => "None"
    s!"Entry {index} sequence mismatch (got {text})."

/-- Compares two texts in constant time, which only texts of ASCII allow. -/
def compareDigests (a b : String) : Except Failure Bool :=
  if isAscii a && isAscii b then .ok (a == b) else .error .nonAscii
where
  isAscii (s : String) : Bool := s.toList.all fun c => c.toNat < 128

/-- Checks the entries of a chain from number `index` on, behind the given hash and seal. -/
def checkChain (key : Bytes) (index : Nat) (hash signature : String) :
    List Entry → Except Failure (Option ChainFault)
  | [] => .ok none
  | e :: rest =>
    match e.entryHash, e.signature with
    | some h, some s => do
      if !(← compareDigests h e.contentHash) then return some (.hash index)
      if e.previousHash ≠ hash then return some (.link index)
      if !(← compareDigests s (sealOf key e signature)) then return some (.signature index)
      if e.sequence ≠ some (index : Int) then return some (.sequence index e.sequence)
      checkChain key (index + 1) h s rest
    | _, _ => .ok (some (.incomplete index))

inductive Verdict where
  | valid
  | broken (fault : ChainFault)
  /-- A line is no entry. -/
  | unreadable (line : Nat) (path : Path)
  /-- The file is no text. -/
  | notText
deriving DecidableEq, Repr

def Verdict.isValid (v : Verdict) : Bool := v == .valid

def Verdict.message : Verdict → Option String
  | .valid => none
  | .broken fault => some fault.message
  | .unreadable line path => some (ValueFault.ledgerEntry line path []).message
  | .notText => some "'utf-8' codec can't decode"

/-- Checks the hashes, links, seals and numbers of all entries. -/
def verify (l : Ledger) : Action Verdict :=
  tryCatch
    (do
      let entries ← l.readEntries
      match ← Action.liftExcept id (checkChain l.key 1 genesis genesis entries) with
      | none => return .valid
      | some fault => return .broken fault)
    fun e =>
      match e with
      | .value (.ledgerEntry line path _) => return .unreadable line path
      | .encoding => return .notText
      | e => throw e

def ofOperation (l : Ledger) (operation : String) : Action (List Entry) := do
  return (← l.readEntries).filter (·.operation == operation)

end Ledger

/-- Where operations are recorded: in a ledger or nowhere. -/
inductive Sink where
  | silent
  | audit (l : Ledger)
deriving DecidableEq, Repr

/-- Actions that may record what they did. -/
abbrev Auditing := StateT Sink Action

def Sink.log (operation : String) (inputs outputs : List LooseText) (args : Json.Members) :
    Auditing (Option Entry) := do
  match ← get with
  | .silent => return none
  | .audit l =>
    let (l, e) ← (l.logTexts operation inputs outputs args : Action _)
    set (Sink.audit l)
    return some e

end UpdateSeal
