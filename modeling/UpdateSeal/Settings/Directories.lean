import UpdateSeal.Host
import UpdateSeal.Settings.Basic

/-!
# Directories of an installation

Where data and configuration are kept, and the files in them. A directory is made when it is asked
for. Data goes to a directory below the working directory when the usual place may not be made;
which one it is stays settled once it was asked for.
-/

namespace UpdateSeal

namespace Settings

def folderName : String := "payloadsign"

/-- A variable of the environment, unless it is empty. -/
def nonempty? (h : Host) (name : String) : Option String :=
  (List.lookup name h.environment).filter (· ≠ "")

def homeDirectory (h : Host) : Path :=
  match nonempty? h "HOME" with
  | some s => Path.ofText s
  | none => Path.ofText "/"

/-- The directory that the variable `name` gives, or else the one below the home directory. -/
def baseDirectory (name : String) (below : List LooseText) (h : Host) : Path :=
  match nonempty? h name with
  | some s => Path.ofText s
  | none => below.foldl Path.join (homeDirectory h)

def usualDataDir (h : Host) : Path :=
  (baseDirectory "XDG_DATA_HOME" [".local", "share"] h).join folderName

def usualConfigDir (h : Host) : Path :=
  (baseDirectory "XDG_CONFIG_HOME" [".config"] h).join folderName

def localDataDir (h : Host) : Path := ⟨true, h.workingDirectory.concat ".payloadsign-data"⟩

def fallbackWarning (usual chosen : Path) (e : StorageFault) : String :=
  s!"Warning: cannot create data directory at {usual} ({e.message}). Using local " ++
    s!"'{chosen}' instead. Set PAYLOADSIGN_DATA_DIR to override.\n"

/-- Makes the directory for data and tells which one it is. -/
def chooseDataDir (s : Settings) : Action Path := do
  match s.dataDir with
  | some p =>
    Action.makeDirectories p
    return p
  | none =>
    let usual := usualDataDir (← get)
    tryCatch (do Action.makeDirectories usual; return usual) fun e =>
      match e with
      | .storage ⟨.denied, p⟩ => do
        let chosen := localDataDir (← get)
        Action.makeDirectories chosen
        Action.warn (fallbackWarning usual chosen ⟨.denied, p⟩)
        return chosen
      | e => throw e

/-- The directory for data. The state is the one that was chosen before. -/
def getDataDir (s : Settings) : StateT (Option Path) Action Path := do
  match ← get with
  | some p => return p
  | none =>
    let p ← (s.chooseDataDir : Action Path)
    set (some p)
    return p

def getConfigDir (s : Settings) : Action Path := do
  let p := s.configDir.getD (usualConfigDir (← get))
  Action.makeDirectories p
  return p

def getAuditPath (s : Settings) : StateT (Option Path) Action Path := do
  return (← s.getDataDir).join "audit.jsonl"

def getAuditKey (s : Settings) : Action Bytes := do
  let p ← match s.auditKeyPath with
    | some p => pure p
    | none => pure ((← s.getConfigDir).join "audit-ledger.key")
  Action.loadOrCreateKey p 32

end Settings

end UpdateSeal
