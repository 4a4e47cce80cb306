import UpdateSeal.Json.Reader
import UpdateSeal.Json.Writer
import UpdateSeal.Validation.Field
import UpdateSeal.Payload.Header

/-!
# Payload manifests

A manifest records the block size, the minor version, and where the payload signature lies relative
to the data. It is stored as a JSON object. Many spellings are read, and one is written: sorted
names, no blanks, and no member for what is absent.
-/

namespace UpdateSeal

open Validation

structure Manifest where
  blockSize : Int := 4096
  minorVersion : Int := 0
  signaturesOffset : Option Int := none
  signaturesSize : Option Int := none
deriving DecidableEq, Repr

namespace Manifest

def fieldNames : List String := ["block_size", "minor_version", "signatures_offset", "signatures_size"]

/-- Checks one field; an absent one has its default. -/
def field {α : Type} (ms : Json.Members) (name : String) (default : α)
    (check : Json.Value → Except Kind α) : Checked α :=
  optional ms name default (single name check)

/-- The manifest with the given members. Members with other names are refused. -/
def ofMembers (ms : Json.Members) : Checked Manifest :=
  let block := field ms "block_size" 4096 (integerAbove 0)
  let minor := field ms "minor_version" 0 (integerFrom 0)
  let offset := field ms "signatures_offset" none (nullable (integerFrom 0))
  let size := field ms "signatures_size" none (nullable (integerFrom 0))
  let extra := (ms.filter fun m => !fieldNames.contains m.1).map fun m => ⟨[m.1], .extraForbidden⟩
  let fields := Checked.and (Checked.and block minor) (Checked.and offset size)
  Checked.unless (fields.map fun ((b, m), (o, s)) => ⟨b, m, o, s⟩) extra

def ofBytes (raw : Bytes) : Checked Manifest :=
  match Json.readRecord raw with
  | none => .error [⟨[], .jsonInvalid⟩]
  | some (.obj ms) => ofMembers ms
  | some _ => .error [⟨[], .modelType⟩]

def present (name : String) : Option Int → Json.Members
  | some n => [(name, .int n)]
  | none => []

def members (m : Manifest) : Json.Members :=
  ("block_size", .int m.blockSize) :: ("minor_version", .int m.minorVersion) ::
    present "signatures_offset" m.signaturesOffset ++ present "signatures_size" m.signaturesSize

def toBytes (m : Manifest) : Bytes :=
  Bytes.ofText (String.ofList (Json.write Json.canonical (.obj m.members)))

/-- Whether a number has no more digits than are read. -/
def isShort (n : Int) : Bool := n.natAbs < Nat.pow 10 Json.maxDigits

def isWritable (m : Manifest) : Bool :=
  isShort m.blockSize && isShort m.minorVersion && m.signaturesOffset.all isShort &&
    m.signaturesSize.all isShort

/-- The bytes of a manifest whose numbers are short enough to be written. -/
def encode (m : Manifest) : Except PayloadFault Bytes :=
  if m.isWritable then .ok m.toBytes else .error .longNumber

end Manifest

/-- The header and manifest of a payload: all that stands before its signatures and data. -/
def buildMetadata (major : Int) (manifest : Manifest) (metadataSignatureSize : Int) :
    Except PayloadFault Bytes := do
  let body ← manifest.encode
  return (← Header.toBytes ⟨major, body.length, metadataSignatureSize⟩) ++ body

end UpdateSeal
