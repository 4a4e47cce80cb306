import UpdateSeal.Failure

/-!
# Actions

Operations on files run against a host: its files, environment variables, clock and source of
random bytes, and the records that were logged. What an action did stays done when it fails.
-/

namespace UpdateSeal

inductive LogLevel where
  | debug
  | info
  | warning
deriving DecidableEq, Repr

structure Host where
  files : FileTree := {}
  workingDirectory : Place := []
  environment : List (String × String) := []
  /-- Places where no directory may be made. -/
  denied : Place → Bool := fun _ => false
  /-- What the clock shows next, in microseconds since 1970, and how far it moves each time. -/
  now : Int := 0
  clockStep : Int := 0
  /-- The random bytes that come next. -/
  random : Nat → UInt8 := fun _ => 0
  /-- What was logged, newest first. -/
  log : List (LogLevel × String) := []
  /-- What was written for the user, newest first. -/
  warnings : List String := []

abbrev Action := ExceptT Failure (StateM Host)

namespace Action

def liftExcept {ε α : Type} (wrap : ε → Failure) : Except ε α → Action α
  | .ok a => pure a
  | .error e => throw (wrap e)

def record (level : LogLevel) (text : String) : Action Unit :=
  modify fun h => { h with log := (level, text) :: h.log }

def warn (text : String) : Action Unit := modify fun h => { h with warnings := text :: h.warnings }

def query {α : Type} (p : Path) (ask : FileTree → Place → Path → Except StorageReason α) :
    Action α := do
  let h ← get
  match ask h.files h.workingDirectory p with
  | .ok a => return a
  | .error reason => throw (.storage ⟨reason, some p⟩)

def update (p : Path) (change : FileTree → Place → Path → Except StorageReason FileTree) :
    Action Unit := do
  let files ← query p change
  modify fun h => { h with files }

def read (p : Path) : Action Bytes := query p FileTree.read

def fileExists (p : Path) : Action Bool := do
  let h ← get
  return h.files.exists? h.workingDirectory p

def isDirectory (p : Path) : Action Bool := do
  let h ← get
  return h.files.isDirectoryAt h.workingDirectory p

def write (p : Path) (content : Bytes) : Action Unit :=
  update p fun t base p => t.modify base p FileTree.plainMode fun _ => content

def append (p : Path) (content : Bytes) : Action Unit :=
  update p fun t base p => t.modify base p FileTree.plainMode (· ++ content)

def remove (p : Path) : Action Unit := update p FileTree.remove

def makeDirectory (p : Path) : Action Unit := do
  let denied := (← get).denied
  update p fun t => t.makeDirectory denied

/-- Makes a directory that is not there, when making it failed with `e`. -/
def acceptDirectory (p : Path) (e : Failure) : Action Unit := do
  unless ← isDirectory p do throw e

/-- Makes a directory and those it lies in. It may be there already. -/
def makeDirectories (p : Path) : Action Unit := go p.parts.length p
where
  go : Nat → Path → Action Unit
    | 0, p => tryCatch (makeDirectory p) (acceptDirectory p)
    | depth + 1, p =>
      tryCatch (makeDirectory p) fun e =>
        match e with
        | .storage ⟨.notFound, _⟩ => do
          go depth p.parent
          tryCatch (makeDirectory p) (acceptDirectory p)
        | e => acceptDirectory p e

def makeParents (p : Path) : Action Unit := makeDirectories p.parent

/-- Writes a file whole or not at all, readable by its owner only. -/
def writeAtomically (p : Path) (content : Bytes) : Action Unit := do
  makeParents p
  update p fun t base p => t.replace base p FileTree.secretMode content

/-! How a file is written whole, step by step. -/

/-- Fills a file. With `cut`, this breaks off after some bytes for the given reason. -/
def fill (p : Path) (content : Bytes) : Option (Nat × StorageReason) → Action Unit
  | none => write p content
  | some (size, reason) => do
    write p (content.take size)
    throw (.storage ⟨reason, some p⟩)

/-- Makes the file `temporary`, fills it and moves it to `p`. If anything fails it is removed. -/
def stage (temporary : Path) (cut : Option (Nat × StorageReason)) (p : Path) (content : Bytes) :
    Action Unit := do
  update temporary fun t base p => t.create base p FileTree.secretMode
  tryCatch (do
      fill temporary content cut
      update p fun t base p => t.move base temporary p)
    fun e => do
      remove temporary
      throw e

/-- Writes a file by way of a temporary one beside it, which is moved in place when it is whole. -/
def writeThrough (random : String) (cut : Option (Nat × StorageReason)) (p : Path)
    (content : Bytes) : Action Unit := do
  makeParents p
  stage (p.beside random) cut p content

/-- Writes a file that only its owner may read. -/
def writeSecret (p : Path) (content : Bytes) : Action Unit := do
  makeParents p
  update p fun t base p => do
    let t ← t.modify base p FileTree.secretMode fun _ => content
    t.restrict base p FileTree.secretMode

/-- The next random bytes. -/
def drawBytes (length : Nat) : Action Bytes := do
  let h ← get
  set { h with random := fun i => h.random (i + length) }
  return (List.range length).map h.random

/-- The key in a file, made of random bytes when there is no such file. -/
def loadOrCreateKey (p : Path) (length : Nat) : Action Bytes :=
  tryCatch (read p) fun e =>
    match e with
    | .storage ⟨.notFound, _⟩ => do
      let key ← drawBytes length
      writeSecret p key
      return key
    | e => throw e

def readClock : Action Int := do
  let h ← get
  set { h with now := h.now + h.clockStep }
  return h.now

end Action

end UpdateSeal
