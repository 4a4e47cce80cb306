/-!
# Issues

What is wrong with a record or a setting: where it is and of what kind. A record with several
faults is refused with all of them, in the order of its fields.
-/

namespace UpdateSeal.Validation

inductive Kind where
  | jsonInvalid
  | modelType
  | missing
  | extraForbidden
  | intType
  | intParsing
  | intParsingSize
  | intFromFloat
  | finiteNumber
  | greaterThan
  | greaterThanEqual
  | stringType
  | listType
  | dictType
  | boolType
  | boolParsing
  | pathType
  /-- A rule of this library, with the text that states it. -/
  | rule (text : String)
deriving DecidableEq, Repr

structure Issue where
  loc : List String
  kind : Kind
deriving DecidableEq, Repr

abbrev Checked (α : Type) := Except (List Issue) α

/-- Both values, or all issues of both. -/
def Checked.and {α β : Type} : Checked α → Checked β → Checked (α × β)
  | .ok a, .ok b => .ok (a, b)
  | .ok _, .error is => .error is
  | .error is, .ok _ => .error is
  | .error is, .error js => .error (is ++ js)

/-- The value, unless there are further issues. -/
def Checked.unless {α : Type} (x : Checked α) (extra : List Issue) : Checked α :=
  match x, extra with
  | .ok a, [] => .ok a
  | .ok _, is => .error is
  | .error is, js => .error (is ++ js)

/-- All values, or all issues, in order. -/
def Checked.all {α : Type} : List (Checked α) → Checked (List α)
  | [] => .ok []
  | x :: xs => (Checked.and x (all xs)).map fun p => p.1 :: p.2

/-- A check of a single value, placed at `loc`. -/
def Checked.at {α : Type} (loc : List String) : Except Kind α → Checked α
  | .ok a => .ok a
  | .error k => .error [⟨loc, k⟩]

end UpdateSeal.Validation
