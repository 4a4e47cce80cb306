import UpdateSeal.Payload.File
import UpdateSeal.Key.Handle

/-!
# What is signed

The digests that signatures cover, and the room signatures take. A payload is hashed in its signed
form, with header and manifest already describing the signatures but without their bytes, so the
digests are the same before and after signing.
-/

namespace UpdateSeal

/-- What signing and verifying work with: the supported key sizes, how new payloads are written,
and how many bytes are read at a time. -/
structure Toolkit where
  keySizes : KeySizes := .default
  writer : PayloadWriter := {}
  chunk : Int := defaultChunk
deriving DecidableEq, Repr

namespace Plan

/-- The digest of regions of a file behind bytes given in advance. -/
def digestFile (path : Path) (regions : List Region) (lead : Bytes) (chunk : Int) :
    Action Bytes := do
  let content ← tryCatch (Action.read path) fun e =>
    match e with
    | .storage f => throw (.source (.unreadable path f))
    | e => throw e
  Action.liftExcept fault (digestRegions content regions lead chunk)
where
  fault : RegionFault → Failure
    | .negative r => .ofSource (.negativeRegion r path)
    | .exceeds r size => .ofSource (.regionExceeds r size path)
    | .unexpectedEnd => .source (.unexpectedEnd path)
    | .readLength => .value .readLength

def signatureSizes (t : Toolkit) (keys : List Path) : Action (List Int) :=
  keys.mapM fun path => do return (← t.keySizes.loadPrivate path).modulusSize

def blobLengthOfSizes (sizes : List Int) : Except ValueFault Nat :=
  if sizes.isEmpty then .error .noSizes
  else (Container.encodedLength sizes).mapError .sizeNotPositive

/-- The size of the container that keys will fill. Nothing is signed. -/
def blobLength (t : Toolkit) (keys : List Path) : Action Nat := do
  let length ← Action.liftExcept .value (blobLengthOfSizes (← signatureSizes t keys))
  Action.record .debug s!"Predicted {length}-byte signature blob for {keys.length} key(s)"
  return length

def reservedRegion (path : Path) : Action (Option Region) := do
  Action.liftExcept .payload (← PayloadFile.readLayout path).payloadSignatureRegion

/-- The hash set of a payload whose metadata is `metadata`. -/
def hashRegions (t : Toolkit) (path : Path) (layout : Layout) (metadata : Bytes) :
    Action HashSet := do
  let dataOffset ← Action.liftExcept .payload layout.dataOffset
  let dataLength ← Action.liftExcept .payload layout.dataLength
  let payload ← digestFile path [⟨dataOffset, dataLength⟩] metadata t.chunk
  Action.liftExcept .hashSet (HashSet.ofDigests payload (sha256 metadata))

/-- The metadata of a payload once it holds containers of `length` bytes. -/
def signedMetadata (layout : Layout) (length : Nat) : Except PayloadFault Bytes := do
  let manifest :=
    { layout.manifest with
      signaturesOffset := some (← layout.dataLength), signaturesSize := some length }
  buildMetadata layout.header.major manifest (if layout.header.major = 2 then length else 0)

/-- Hashes a payload as it will be once signed with signatures of the given sizes. -/
def hashForSigning (t : Toolkit) (path : Path) (sizes : List Int) : Action HashSet := do
  let length ← Action.liftExcept .value (blobLengthOfSizes sizes)
  let layout ← PayloadFile.readLayout path
  let metadata ← Action.liftExcept .payload (signedMetadata layout length)
  hashRegions t path layout metadata

/-- Hashes a payload by the regions that it declares. -/
def hashSigned (t : Toolkit) (path : Path) : Action HashSet := do
  let layout ← PayloadFile.readLayout path
  let metadataSize ← Action.liftExcept .payload layout.metadataSize
  let metadata ← PayloadFile.readRegion path ⟨0, metadataSize⟩
  hashRegions t path layout metadata

end Plan

end UpdateSeal
