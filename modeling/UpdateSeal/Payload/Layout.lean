import UpdateSeal.Payload.Manifest
import UpdateSeal.Digest.Region

/-!
# Payload layouts

A payload is header, manifest, metadata signature, data, and payload signature, in this order. Its
layout says where each part lies, from what header and manifest declare and the size of the file.
-/

namespace UpdateSeal

structure Layout where
  header : Header
  manifest : Manifest
  fileSize : Int
deriving DecidableEq, Repr

namespace Layout

def metadataSize (l : Layout) : Except PayloadFault Int := do
  return (← l.header.size) + l.header.manifestSize

def dataOffset (l : Layout) : Except PayloadFault Int := do
  return (← l.metadataSize) + l.header.metadataSignatureSize

/-- The length of the data, without a payload signature behind it. -/
def dataLength (l : Layout) : Except PayloadFault Int :=
  match l.manifest.signaturesOffset with
  | some offset => .ok offset
  | none => do return l.fileSize - (← l.dataOffset)

def metadataSignatureRegion (l : Layout) : Except PayloadFault (Option Region) :=
  if l.header.metadataSignatureSize = 0 then .ok none
  else do return some ⟨← l.metadataSize, l.header.metadataSignatureSize⟩

/-- Where the payload signature lies. An empty signature has no region. -/
def payloadSignatureRegion (l : Layout) : Except PayloadFault (Option Region) :=
  match l.manifest.signaturesOffset, l.manifest.signaturesSize with
  | some offset, some size =>
    if size = 0 then .ok none else do return some ⟨(← l.dataOffset) + offset, size⟩
  | _, _ => .ok none

/-- A fault whose text shows numbers, which can be given only if they can all be written. -/
def faultShowing (numbers : List Int) (fault : PayloadFault) : PayloadFault :=
  if numbers.all Manifest.isShort then fault else .longNumber

/-- Checks that every declared region lies inside the file. -/
def validate (l : Layout) : Except PayloadFault Unit := do
  let dataOffset ← l.dataOffset
  if l.fileSize < dataOffset then
    throw (faultShowing [dataOffset, l.fileSize] (.metadataPastEnd dataOffset l.fileSize))
  if l.fileSize < dataOffset + (← l.dataLength) then throw .dataPastEnd
  match ← l.payloadSignatureRegion with
  | some r =>
    if l.fileSize < r.stop then
      throw (faultShowing [r.offset, r.stop, l.fileSize]
        (.signaturePastEnd r.offset r.stop l.fileSize))
  | none => return ()

/-- The layout that the content of the file `path` declares. -/
def ofContent (path : String) (content : Bytes) : Except PayloadFault Layout := do
  let header ← Header.ofBytes (content.take Header.maxSize)
  let size ← header.size
  let raw := Bytes.slice size header.manifestSize.toNat content
  if (raw.length : Int) ≠ header.manifestSize then
    throw (.manifestTruncated path header.manifestSize.toNat raw.length)
  let manifest ← (Manifest.ofBytes raw).mapError .invalidManifest
  let layout : Layout := ⟨header, manifest, content.length⟩
  layout.validate
  return layout

end Layout

end UpdateSeal
