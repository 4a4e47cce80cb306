import UpdateSeal.Bytes
import UpdateSeal.Storage.Path

/-!
# Files

Directories and files by their place, a list of names from the root. A path is followed name by
name: every name but the last must be a directory. Operations fail with the reason a file system
gives.
-/

namespace UpdateSeal

inductive StorageReason where
  | notFound
  | alreadyExists
  | isDirectory
  | notDirectory
  | denied
  | busy
  | invalidArgument
deriving DecidableEq, Repr

/-- A failed file operation, and the path it was given. -/
structure StorageFault where
  reason : StorageReason
  path : Option Path := none
deriving DecidableEq, Repr

def StorageReason.text : StorageReason → String
  | .notFound => "[Errno 2] No such file or directory"
  | .alreadyExists => "[Errno 17] File exists"
  | .isDirectory => "[Errno 21] Is a directory"
  | .notDirectory => "[Errno 20] Not a directory"
  | .denied => "[Errno 13] Permission denied"
  | .busy => "[Errno 16] Device or resource busy"
  | .invalidArgument => "[Errno 22] Invalid argument"

def StorageFault.message (e : StorageFault) : String :=
  match e.path with
  | some p => e.reason.text ++ ": " ++ Text.quote p.spelling
  | none => e.reason.text

/-- What stands at a place. A file has its permission bits. -/
inductive Node where
  | directory
  | file (content : Bytes) (mode : Nat)
deriving DecidableEq, Repr

abbrev Place := List LooseText

structure FileTree where
  entries : List (Place × Node) := []
deriving DecidableEq, Repr

namespace FileTree

/-- What stands at `place`. The root is a directory. -/
def node? (t : FileTree) (place : Place) : Option Node :=
  if place = [] then some .directory else t.entries.lookup place

def isDirectory (t : FileTree) (place : Place) : Bool := t.node? place == some .directory

def setEntry (place : Place) (n : Node) : List (Place × Node) → List (Place × Node)
  | [] => [(place, n)]
  | e :: es => if e.1 = place then (place, n) :: es else e :: setEntry place n es

def set (t : FileTree) (place : Place) (n : Node) : FileTree := ⟨setEntry place n t.entries⟩

def erase (t : FileTree) (place : Place) : FileTree := ⟨t.entries.filter fun e => e.1 ≠ place⟩

/-- Follows names from `place`. Each step leaves a directory. -/
def follow (t : FileTree) (place : Place) : List LooseText → Except StorageReason Place
  | [] => .ok place
  | part :: parts =>
    match t.node? place with
    | none => .error .notFound
    | some (.file ..) => .error .notDirectory
    | some .directory => follow t (if part = ".." then place.dropLast else place ++ [part]) parts

/-- The place that a path leads to from the working directory `base`. Nothing need stand there. -/
def locate (t : FileTree) (base : Place) (p : Path) : Except StorageReason Place :=
  t.follow (if p.absolute then [] else base) p.parts

def exists? (t : FileTree) (base : Place) (p : Path) : Bool :=
  match t.locate base p with
  | .ok place => (t.node? place).isSome
  | .error _ => false

def isDirectoryAt (t : FileTree) (base : Place) (p : Path) : Bool :=
  match t.locate base p with
  | .ok place => t.isDirectory place
  | .error _ => false

def read (t : FileTree) (base : Place) (p : Path) : Except StorageReason Bytes := do
  match t.node? (← t.locate base p) with
  | none => throw .notFound
  | some .directory => throw .isDirectory
  | some (.file content _) => return content

def plainMode : Nat := 0o644

def secretMode : Nat := 0o600

def directoryMode : Nat := 0o755

/-- Replaces the content of a file by `change` of it. A new file starts out empty, with `mode`. -/
def modify (t : FileTree) (base : Place) (p : Path) (mode : Nat) (change : Bytes → Bytes) :
    Except StorageReason FileTree := do
  let place ← t.locate base p
  match t.node? place with
  | none => return t.set place (.file (change []) mode)
  | some .directory => throw .isDirectory
  | some (.file content mode) => return t.set place (.file (change content) mode)

/-- Makes an empty file where nothing stands. -/
def create (t : FileTree) (base : Place) (p : Path) (mode : Nat) :
    Except StorageReason FileTree := do
  let place ← t.locate base p
  if (t.node? place).isSome then throw .alreadyExists
  return t.set place (.file [] mode)

/-- The place that a file may be moved to when it is to stand at `p`. A file may stand there. -/
def target (t : FileTree) (base : Place) (p : Path) : Except StorageReason Place := do
  let place ← t.locate base p
  if !p.endsInName then throw .busy
  if t.isDirectory place then throw .isDirectory
  return place

/-- Moves the file at `source` to `p`. -/
def move (t : FileTree) (base : Place) (source p : Path) : Except StorageReason FileTree := do
  let place ← t.locate base source
  match t.node? place with
  | none => throw .notFound
  | some .directory => throw .isDirectory
  | some (.file content mode) =>
    return (t.erase place).set (← t.target base p) (.file content mode)

/-- Puts a file of the given permissions in place at once. -/
def replace (t : FileTree) (base : Place) (p : Path) (mode : Nat) (content : Bytes) :
    Except StorageReason FileTree := do
  return t.set (← t.target base p) (.file content mode)

/-- Gives a file these permissions. -/
def restrict (t : FileTree) (base : Place) (p : Path) (mode : Nat) :
    Except StorageReason FileTree := do
  let place ← t.locate base p
  match t.node? place with
  | none => throw .notFound
  | some .directory => throw .isDirectory
  | some (.file content _) => return t.set place (.file content mode)

def remove (t : FileTree) (base : Place) (p : Path) : Except StorageReason FileTree := do
  let place ← t.locate base p
  match t.node? place with
  | none => throw .notFound
  | some .directory => throw .isDirectory
  | some (.file ..) => return t.erase place

/-- Makes a directory where nothing stands, unless none may be made there. -/
def makeDirectory (t : FileTree) (denied : Place → Bool) (base : Place) (p : Path) :
    Except StorageReason FileTree := do
  let place ← t.locate base p
  if (t.node? place).isSome then throw .alreadyExists
  if denied place then throw .denied
  return t.set place .directory

def mode (t : FileTree) (base : Place) (p : Path) : Except StorageReason Nat := do
  match t.node? (← t.locate base p) with
  | none => throw .notFound
  | some .directory => return directoryMode
  | some (.file _ mode) => return mode

end FileTree

end UpdateSeal
