import UpdateSeal.Settings.Directories
import UpdateSeal.Settings.Sources
import UpdateSeal.Signing.Sign

/-!
# The application

Settings put to work: the tools for signing and the ledger that operations are recorded in. Starting
again with the same settings opens the same ledger.
-/

namespace UpdateSeal

structure Application where
  settings : Settings
  toolkit : Toolkit
  sink : Sink

namespace Application

def toolkitOf (s : Settings) : Toolkit where
  keySizes := .ofList s.keySizes
  writer := { major := s.majorVersion, blockSize := s.blockSize }
  chunk := s.readChunkSize

/-- Opens the ledger that settings name, unless they turn recording off. -/
def openSink (s : Settings) : Action Sink := do
  if s.auditEnabled then
    let (path, _) ← s.getAuditPath.run none
    return .audit (← Ledger.openAt path (some (← s.getAuditKey)))
  else return .silent

def start (s : Settings) : Action Application := do
  return ⟨s, toolkitOf s, ← openSink s⟩

end Application

end UpdateSeal
