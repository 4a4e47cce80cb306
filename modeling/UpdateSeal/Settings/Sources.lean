import UpdateSeal.Host
import UpdateSeal.Settings.Basic
import UpdateSeal.Settings.EnvFile

/-!
# Where settings come from

A setting is taken from the first of these that gives it: the caller, the environment, the file of
variables `.env` in the working directory. Only the value that was taken is checked.
-/

namespace UpdateSeal

namespace Settings

/-- The variable that gives a setting, in lower case. -/
def variableName (name : String) : String := "payloadsign_" ++ name

/-- The value of a setting from its text. A list is written as JSON, in which null gives none. -/
def valueOfText (name text : String) : Except Failure (Option Json.Value) :=
  if name = listName then
    match Json.read Json.lenient text.toList with
    | .ok .null => .ok none
    | .ok v => .ok (some v)
    | .error _ => .error (.settingSyntax name)
  else .ok (some (.str text))

def ofVariables (vs : Variables) : Except Failure Json.Members := do
  let given ← names.mapM fun name =>
    match vs.find? (variableName name) with
    | none => .ok []
    | some text => (valueOfText name text).map fun v => v.toList.map fun v => (name, v)
  return given.flatten

/-- The values in `given`, and of those that are not there the ones in `others`. -/
def override (given others : Json.Members) : Json.Members := given ++ others

def fileName : Path := Path.ofText ".env"

def readVariables : Action Variables := do
  if (← Action.fileExists fileName) && !(← Action.isDirectory fileName) then
    match Bytes.text? (← Action.read fileName) with
    | some text => return EnvFile.read ((← get).environment.map fun v => (v.1, some v.2)) text
    | none => throw .encoding
  else return []

/-- The settings that apply when the caller gives the values `given`. -/
def load (given : Json.Members) : Action Settings := do
  let inFile ← readVariables
  let environment := (← get).environment.map fun v => (v.1, some v.2)
  let fromEnvironment ← Action.liftExcept id (ofVariables environment)
  let fromFile ← Action.liftExcept id (ofVariables inFile)
  Action.liftExcept .invalid (ofMembers (override given (override fromEnvironment fromFile)))

end Settings

end UpdateSeal
