import UpdateSeal.Text.Loose

/-!
# Paths

A path is a list of names, from the root or from the working directory. Empty names and `.` are
dropped when a path is read; `..` stays, since only the files can tell where it leads. Names are
spelled as a directory shows them. A text with a NUL character is no path, nor is one with a surrogate
that stands for no byte.
-/

namespace UpdateSeal

structure Path where
  absolute : Bool := false
  parts : List LooseText := []
deriving DecidableEq, Repr

namespace Path

def ofText (s : String) : Path where
  absolute := s.toList.head? == some '/'
  parts :=
    let names := (s.toList.splitOn '/').map String.ofList
    (names.filter fun part => part ≠ "" ∧ part ≠ ".").map LooseText.string

def spelling (p : Path) : LooseText :=
  let names := LooseText.join "/" p.parts
  if p.absolute then "/" ++ names else if p.parts.isEmpty then "." else names

/-- The path as a message shows it. -/
def text (p : Path) : String := p.spelling.shown

instance : ToString Path := ⟨text⟩

def parent (p : Path) : Path := { p with parts := p.parts.dropLast }

/-- The last name, empty if there is none. -/
def name (p : Path) : LooseText := p.parts.getLast?.getD ""

def join (p : Path) (name : LooseText) : Path := { p with parts := p.parts ++ [name] }

/-- A file in the directory of `p`, with a name that is made from that of `p`. -/
def beside (p : Path) (random : String) : Path := p.parent.join (p.name ++ random ++ ".tmp")

/-- The last part is a name, and there is one. -/
def endsInName (p : Path) : Bool := p.parts.getLast?.any (· ≠ LooseText.string "..")

/-- The name without its suffix: a point that is neither first nor last, and what follows it. -/
def stem (name : LooseText) : LooseText :=
  let back := name.points.reverse
  let suffix := back.takeWhile (· ≠ .inl '.')
  match back.drop suffix.length with
  | _ :: c :: rest => if suffix.isEmpty then name else LooseText.ofPoints (c :: rest).reverse
  | _ => name

def withSuffix (p : Path) (suffix : String) : Path := p.parent.join (stem p.name ++ suffix)

end Path

end UpdateSeal
