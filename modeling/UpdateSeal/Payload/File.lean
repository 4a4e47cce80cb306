import UpdateSeal.Host

/-!
# Payload files

Reading the layout and the parts of a payload file, writing a new one, and embedding signatures
into one. A payload is written unsigned, with zeros reserved for its signatures, or signed; header
and manifest always describe the file as it is written.
-/

namespace UpdateSeal

structure PayloadWriter where
  major : Int := 2
  blockSize : Int := 4096
  minorVersion : Int := 0
deriving DecidableEq, Repr

namespace PayloadFile

def readContent (path : Path) : Action Bytes :=
  tryCatch (Action.read path) fun e =>
    match e with
    | .storage f => throw (.source (.unreadablePayload path f))
    | e => throw e

def readLayout (path : Path) : Action Layout := do
  Action.liftExcept .payload (Layout.ofContent path.text (← readContent path))

/-- The bytes of a region, all of which must be there. -/
def regionOf (path : Path) (content : Bytes) (r : Region) : Except Failure Bytes :=
  match readWindow content r with
  | .error .negativeOffset => .error (.source (.unreadablePayload path ⟨.invalidArgument, none⟩))
  | .error .readLength => .error (.value .readLength)
  | .ok b =>
    if (b.length : Int) = r.length then .ok b
    else .error (.payload (.regionTruncated r.offset r.stop path.text))

def readRegion (path : Path) (r : Region) : Action Bytes := do
  Action.liftExcept id (regionOf path (← readContent path) r)

/-- Writes a payload from its parts. The header is read back from what was written. -/
def writeParts (path : Path) (major : Int) (manifest : Manifest)
    (metadataSignature data payloadSignature : Bytes) : Action Layout := do
  let metadata ← Action.liftExcept .payload
    (buildMetadata major manifest metadataSignature.length)
  let content := metadata ++ metadataSignature ++ data ++ payloadSignature
  Action.writeAtomically path content
  Action.record .debug
    s!"Wrote payload {path} (major={major}, metadata={metadata.length}, data={data.length}, signature={payloadSignature.length} bytes)"
  let header ← Action.liftExcept .payload (Header.ofBytes metadata)
  return ⟨header, manifest, content.length⟩

def newManifest (w : PayloadWriter) : Except Failure Manifest :=
  (Manifest.ofMembers
    [("block_size", .int w.blockSize), ("minor_version", .int w.minorVersion)]).mapError .invalid

def zeros (n : Int) : Except Failure Bytes :=
  if n < 0 then .error (.value .negativeCount) else .ok (List.replicate n.toNat 0)

/-- Writes a payload without signatures. A reserved length other than zero sets zeros aside for
them. -/
def writePayload (w : PayloadWriter) (path : Path) (data : Bytes) (major : Option Int)
    (reserved : Option Int) : Action Layout := do
  let major := major.getD w.major
  let _ ← Action.liftExcept .payload (Header.sizeOfMajor major)
  let manifest ← Action.liftExcept id (newManifest w)
  let length := reserved.getD 0
  if length = 0 then writeParts path major manifest [] data []
  else
    let signature ← Action.liftExcept id (zeros length)
    let manifest :=
      { manifest with signaturesOffset := some data.length, signaturesSize := some length }
    writeParts path major manifest (if major = 2 then signature else []) data signature

/-- A metadata signature is there exactly where the major version has a place for it. -/
def checkMetadataSignature (major : Int) (signature : Bytes) : Except PayloadFault Unit :=
  if major = 1 ∧ signature ≠ [] then .error .noMetadataSignature
  else if major = 2 ∧ signature = [] then .error .metadataSignatureMissing
  else .ok ()

/-- A signature has the length that was set aside for it, if any was. -/
def checkReserved (reserved : Option Region) (length : Nat) (fault : Nat → Int → PayloadFault) :
    Except PayloadFault Unit :=
  match reserved with
  | some r => if r.length = length then .ok () else .error (fault length r.length)
  | none => .ok ()

/-- The payload signature may be left out only where nothing asks for its length. -/
def checkPayloadSignature (reserved : Option Region) (signature : Option Bytes) :
    Except Failure Unit :=
  match reserved, signature with
  | none, none => .ok ()
  | some _, none => .error .missingSignature
  | reserved, some s => (checkReserved reserved s.length .payloadSignatureSize).mapError .payload

/-- Copies a payload with its signatures embedded. -/
def embedSignatures (path : Path) (payloadSignature metadataSignature : Option Bytes)
    (out : Path) : Action Layout := do
  let layout ← readLayout path
  let metadataSignature := metadataSignature.getD []
  Action.liftExcept .payload (checkMetadataSignature layout.header.major metadataSignature)
  let reserved ← Action.liftExcept .payload layout.payloadSignatureRegion
  Action.liftExcept id (checkPayloadSignature reserved payloadSignature)
  let reserved ← Action.liftExcept .payload layout.metadataSignatureRegion
  Action.liftExcept .payload
    (checkReserved reserved metadataSignature.length .metadataSignatureSize)
  let dataOffset ← Action.liftExcept .payload layout.dataOffset
  let dataLength ← Action.liftExcept .payload layout.dataLength
  let data ← readRegion path ⟨dataOffset, dataLength⟩
  match payloadSignature with
  | none => throw .missingSignature
  | some signature =>
    let manifest :=
      { layout.manifest with
        signaturesOffset := some dataLength, signaturesSize := some signature.length }
    writeParts out layout.header.major manifest metadataSignature data signature

end PayloadFile

/-- The writer of payloads of a major version that is supported. -/
def PayloadWriter.make (major blockSize minorVersion : Int) : Except PayloadFault PayloadWriter := do
  let _ ← Header.sizeOfMajor major
  return ⟨major, blockSize, minorVersion⟩

end UpdateSeal
