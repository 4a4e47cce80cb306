import UpdateSeal.Validation.Integer

/-!
# Fields of records

Checks of the members of an object by name, and of the kinds of values that several records have.
-/

namespace UpdateSeal.Validation

/-- Makes a check of a value the check of the field `name`. -/
def single {α : Type} (name : String) (check : Json.Value → Except Kind α) (v : Json.Value) :
    Checked α :=
  Checked.at [name] (check v)

/-- The items of a list, each checked. Issues name the position. -/
def list {α : Type} (name : String) (check : Json.Value → Except Kind α) :
    Json.Value → Checked (List α)
  | .arr items =>
    Checked.all (items.zipIdx.map fun (v, i) => Checked.at [name, toString i] (check v))
  | _ => .error [⟨[name], .listType⟩]

def required {α : Type} (ms : Json.Members) (name : String) (check : Json.Value → Checked α) :
    Checked α :=
  match ms.get? name with
  | none => .error [⟨[name], .missing⟩]
  | some v => check v

def optional {α : Type} (ms : Json.Members) (name : String) (default : α)
    (check : Json.Value → Checked α) : Checked α :=
  match ms.get? name with
  | none => .ok default
  | some v => check v

def text : Json.Value → Except Kind String
  | .str s => .ok s
  | _ => .error .stringType

/-- The truth value that a word stands for, in any case. -/
def truthOfWord? (s : String) : Option Bool :=
  let word := s.toLower
  if ["true", "t", "yes", "y", "on", "1"].contains word then some true
  else if ["false", "f", "no", "n", "off", "0"].contains word then some false
  else none

def truthOfInt? (n : Int) : Option Bool :=
  if n = 0 then some false else if n = 1 then some true else none

def orParsing : Option Bool → Except Kind Bool
  | some b => .ok b
  | none => .error .boolParsing

def truth : Json.Value → Except Kind Bool
  | .bool b => .ok b
  | .str s => orParsing (truthOfWord? s)
  | .int n => orParsing (truthOfInt? n)
  | .float x =>
    match integerOfFloat x with
    | .ok n => orParsing (truthOfInt? n)
    | .error _ => .error .boolType
  | .null | .arr _ | .obj _ => .error .boolType

end UpdateSeal.Validation
