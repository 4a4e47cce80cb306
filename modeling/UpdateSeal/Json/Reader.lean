import UpdateSeal.Json.Token
import UpdateSeal.Bytes

/-!
# Reading JSON

Tokens are taken one at a time by a machine whose state says what may come next and which arrays
and objects are still open, innermost first. The text is accepted when one value is complete and
nothing is open. An array or object counts as nested from its first item or name on: an empty one may
stand at any depth.
-/

namespace UpdateSeal.Json

inductive Fault where
  | malformed
  | longInt (digits : Nat)
deriving DecidableEq, Repr

/-- An array or object that is not closed yet, with what it holds so far, newest first. -/
inductive Pending where
  | items (done : List Value)
  /-- The value of `name` comes next. -/
  | member (done : List (String × Value)) (name : String)

inductive State where
  | value (outer : List Pending)
  /-- A value or the end of an array that was just opened. -/
  | firstItem (outer : List Pending)
  /-- A name or the end of an object that was just opened. -/
  | firstName (outer : List Pending)
  | nextName (done : List (String × Value)) (outer : List Pending)
  | nameColon (done : List (String × Value)) (name : String) (outer : List Pending)
  /-- Behind a complete value: a comma, a closing bracket, or the end of the text. -/
  | after (v : Value) (outer : List Pending)

def mayNest (rules : Rules) (outer : List Pending) : Bool :=
  match rules.nesting with
  | some limit => outer.length < limit
  | none => true

/-- Takes the first token of a value. -/
def State.startValue (outer : List Pending) : Token → Except Fault State
  | .null => .ok (.after .null outer)
  | .bool b => .ok (.after (.bool b) outer)
  | .int n => .ok (.after (.int n) outer)
  | .float x => .ok (.after (.float x) outer)
  | .str s => .ok (.after (.str s) outer)
  | .openArray => .ok (.firstItem outer)
  | .openObject => .ok (.firstName outer)
  | .longInt n => .error (.longInt n)
  | _ => .error .malformed

def State.step (rules : Rules) : State → Token → Except Fault State
  | .value outer, t => startValue outer t
  | .firstItem outer, .closeArray => .ok (.after (.arr []) outer)
  | .firstItem outer, t =>
    if mayNest rules outer then startValue (.items [] :: outer) t else .error .malformed
  | .firstName outer, .closeObject => .ok (.after (.obj []) outer)
  | .firstName outer, .str s =>
    if mayNest rules outer then .ok (.nameColon [] s outer) else .error .malformed
  | .nextName done outer, .str s => .ok (.nameColon done s outer)
  | .nameColon done name outer, .colon => .ok (.value (.member done name :: outer))
  | .after v (.items done :: outer), .comma => .ok (.value (.items (v :: done) :: outer))
  | .after v (.items done :: outer), .closeArray => .ok (.after (.arr (v :: done).reverse) outer)
  | .after v (.member done name :: outer), .comma => .ok (.nextName ((name, v) :: done) outer)
  | .after v (.member done name :: outer), .closeObject =>
    .ok (.after (.obj (Members.ofPairs ((name, v) :: done).reverse)) outer)
  | _, _ => .error .malformed

def read (rules : Rules) (text : List Char) : Except Fault Value := do
  match ← (tokens rules text).foldlM (State.step rules) (.value []) with
  | .after v [] => return v
  | _ => throw .malformed

/-- Reads a stored record. Its bytes must be UTF-8. -/
def readRecord (b : Bytes) : Option Value :=
  match Bytes.text? b with
  | none => none
  | some s => (read strict s.toList).toOption

end UpdateSeal.Json
