import UpdateSeal.Json.Reader
import UpdateSeal.Json.Writer
import UpdateSeal.Validation.Field
import UpdateSeal.Digest.Sha256

/-!
# Ledger entries

An entry records one operation. It names the hash of the entry before it, and carries its own hash
and seal. It is stored as one line of JSON with its fields in order; what is hashed is the
canonical JSON of its content, without hash and seal and without fields that are absent. Its time is
a number of microseconds since 1970 in universal time: year, month and day of the calendar that is
extended to all years, and a fraction only where there is one.
-/

namespace UpdateSeal

namespace Timestamp

/-- The date of a day, counted from 1 March of the year 0, as year, month and day. -/
def civil (day : Int) : Int × Int × Int :=
  let era := day.fdiv 146097
  let doe := day.fmod 146097
  let yoe := (doe - doe / 1460 + doe / 36524 - doe / 146096) / 365
  let doy := doe - (365 * yoe + yoe / 4 - yoe / 100)
  let mp := (5 * doy + 2) / 153
  let month := if mp < 10 then mp + 3 else mp - 9
  (yoe + era * 400 + (if month ≤ 2 then 1 else 0), month, doy - (153 * mp + 2) / 5 + 1)

/-- The digits of `n`, filled up with zeros to `width`. -/
def padded (width : Nat) (n : Int) : String :=
  let ds := toString n.natAbs
  String.ofList (List.replicate (width - ds.length) '0') ++ ds

def text (micros : Int) : String :=
  let seconds := micros.fdiv 1000000
  let fraction := micros.fmod 1000000
  let (year, month, day) := civil (seconds.fdiv 86400 + 719468)
  let second := seconds.fmod 86400
  let date := s!"{padded 4 year}-{padded 2 month}-{padded 2 day}"
  let time := s!"{padded 2 (second / 3600)}:{padded 2 (second / 60 % 60)}:{padded 2 (second % 60)}"
  let tail := if fraction = 0 then "" else "." ++ padded 6 fraction
  date ++ "T" ++ time ++ tail ++ "+00:00"

end Timestamp

open Validation

/-- Stands for the hash and the seal before the first entry. -/
def genesis : String := String.ofList (List.replicate 64 '0')

structure Entry where
  timestamp : String
  operation : String
  inputs : List String := []
  outputs : List String := []
  args : Json.Members := []
  versions : List (String × String) := []
  previousHash : String := genesis
  sequence : Option Int := none
  entryHash : Option String := none
  signature : Option String := none

namespace Entry

/-! ### Writing -/

def textOrNull : Option String → Json.Value
  | some s => .str s
  | none => .null

def numberOrNull : Option Int → Json.Value
  | some n => .int n
  | none => .null

/-- The fields that are always hashed, in order. -/
def body (e : Entry) : Json.Members :=
  [("timestamp", .str e.timestamp), ("operation", .str e.operation),
   ("inputs", .arr (e.inputs.map .str)), ("outputs", .arr (e.outputs.map .str)),
   ("args", .obj e.args), ("versions", .obj (e.versions.map fun v => (v.1, .str v.2))),
   ("previous_hash", .str e.previousHash)]

def content (e : Entry) : List Char :=
  let sequence := match e.sequence with
    | some n => [("sequence", .int n)]
    | none => []
  Json.write Json.canonical (.obj (e.body ++ sequence))

def contentHash (e : Entry) : String := Bytes.hex (sha256 (Bytes.ofText (String.ofList e.content)))

def line (e : Entry) : List Char :=
  Json.write Json.plain
    (.obj (e.body ++
      [("sequence", numberOrNull e.sequence), ("entry_hash", textOrNull e.entryHash),
       ("signature", textOrNull e.signature)]))

/-! ### Reading -/

def object (name : String) : Json.Value → Checked Json.Members
  | .obj ms => .ok ms
  | _ => .error [⟨[name], .dictType⟩]

/-- An object of texts. Issues name the member. -/
def textMembers (name : String) : Json.Value → Checked (List (String × String))
  | .obj ms =>
    Checked.all (ms.map fun (key, v) => (Checked.at [name, key] (text v)).map fun s => (key, s))
  | _ => .error [⟨[name], .dictType⟩]

/-- The entry with the given members. Members with other names are passed over. -/
def ofMembers (ms : Json.Members) : Checked Entry :=
  let head := Checked.and (required ms "timestamp" (single "timestamp" text))
    (required ms "operation" (single "operation" text))
  let lists := Checked.and (optional ms "inputs" [] (list "inputs" text))
    (optional ms "outputs" [] (list "outputs" text))
  let objects := Checked.and (optional ms "args" [] (object "args"))
    (optional ms "versions" [] (textMembers "versions"))
  let chain := Checked.and (optional ms "previous_hash" genesis (single "previous_hash" text))
    (optional ms "sequence" none (single "sequence" (nullable (integerFrom 1))))
  let ends := Checked.and (optional ms "entry_hash" none (single "entry_hash" (nullable text)))
    (optional ms "signature" none (single "signature" (nullable text)))
  (Checked.and (Checked.and head lists) (Checked.and objects (Checked.and chain ends))).map
    fun (((timestamp, operation), inputs, outputs), (args, versions), (previousHash, sequence),
        entryHash, signature) =>
      { timestamp, operation, inputs, outputs, args, versions, previousHash, sequence, entryHash,
        signature }

def ofLine (cs : List Char) : Checked Entry :=
  match Json.read Json.strict cs with
  | .error _ => .error [⟨[], .jsonInvalid⟩]
  | .ok (.obj ms) => ofMembers ms
  | .ok _ => .error [⟨[], .modelType⟩]

end Entry

end UpdateSeal
