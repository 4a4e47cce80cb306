import UpdateSeal.Signing.Verify
import UpdateSeal.Ledger.Basic

/-!
# Signing payloads

Signing a digest with several keys fills a container with one signature for each. Signing a payload
hashes it, signs its digests, embeds the containers and records the operation; an offline signer's
containers are embedded likewise; verifying checks every signature a payload declares.
-/

namespace UpdateSeal

namespace Sign

def signWith (t : Toolkit) (digest : Bytes) (path : Path) : Action Signature := do
  let key ← t.keySizes.loadPrivate path
  let block ← Action.liftExcept (.value ∘ .padding) (Padding.pad digest key.modulusSize)
  let data ← Action.liftExcept .rsa (t.keySizes.sign (.loaded key) block)
  return ⟨Signature.currentVersion, data⟩

/-- The container of the signatures of all keys over a digest, in order. -/
def signDigest (t : Toolkit) (digest : Bytes) (keys : List Path) : Action Bytes := do
  if digest.length ≠ digestSize then throw (.value (.digestLength digest.length))
  if keys.isEmpty then throw (.value .noKeys)
  return Container.encode (← keys.mapM (signWith t digest))

/-- Hashes a payload, signs it, and writes it with its signatures. -/
def signFile (t : Toolkit) (path : Path) (keys : List Path) (out : Path) :
    Action (HashSet × Bytes) := do
  let layout ← PayloadFile.readLayout path
  let sizes ← Plan.signatureSizes t keys
  let hashes ← Plan.hashForSigning t path sizes
  let payloadSignature ← signDigest t hashes.payload keys
  let metadataSignature ←
    if layout.header.major = 2 then some <$> signDigest t hashes.metadata keys else pure none
  let _ ← PayloadFile.embedSignatures path (some payloadSignature) metadataSignature out
  Action.record .info s!"Signed payload {path} with {keys.length} key(s) -> {out}"
  return (hashes, payloadSignature)

def signPayload (t : Toolkit) (path : Path) (keys : List Path) (out : Path) :
    Auditing HashSet := do
  let (hashes, signature) ← (signFile t path keys out : Action _)
  let _ ← Sink.log "sign_payload" (path.spelling :: keys.map Path.spelling)
    [out.spelling, hashes.payload.hex, hashes.metadata.hex]
    [("key_count", .int keys.length), ("signature_blob_length", .int signature.length)]
  return hashes

/-- A container that is to be embedded holds at least one signature. -/
def checkContainer (name : String) : Option Bytes → Except ContainerFault Unit
  | none => .ok ()
  | some blob => do
    if (← Container.decode blob).isEmpty then throw (.empty name)

/-- Embeds the containers of an offline signer, if each holds a signature. -/
def embedContainers (path : Path) (payloadSignature metadataSignature : Option Bytes)
    (out : Path) : Action Layout := do
  Action.liftExcept .container (checkContainer "payload" payloadSignature)
  Action.liftExcept .container (checkContainer "metadata" metadataSignature)
  PayloadFile.embedSignatures path payloadSignature metadataSignature out

def addSignatures (path : Path) (payloadSignature metadataSignature : Option Bytes)
    (out : Path) : Auditing Layout := do
  let layout ← (embedContainers path payloadSignature metadataSignature out : Action _)
  let _ ← Sink.log "embed_signatures" [path.spelling] [out.spelling]
    [("payload_signature_size", .int (payloadSignature.getD []).length),
     ("metadata_signature_size", .int (metadataSignature.getD []).length)]
  return layout

/-- Checks the signatures that the layout of a payload declares. -/
def checkSignatures (t : Toolkit) (path : Path) (layout : Layout) (region : Region)
    (keys : List Path) : Action Bool := do
  let hashes ← Plan.hashSigned t path
  let blob ← PayloadFile.readRegion path region
  if !(← Verify.verifyDigest t blob keys hashes.payload) then return false
  match ← Action.liftExcept .payload layout.metadataSignatureRegion with
  | none => return true
  | some region =>
    let blob ← PayloadFile.readRegion path region
    Verify.verifyDigest t blob keys hashes.metadata

/-- Whether a payload is signed by one of the keys, up to its last byte. -/
def verifyFile (t : Toolkit) (path : Path) (keys : List Path) : Action Bool := do
  let layout ← PayloadFile.readLayout path
  match ← Action.liftExcept .payload layout.payloadSignatureRegion with
  | none =>
    Action.record .warning s!"Payload {path} carries no payload signature"
    return false
  | some region =>
    if region.stop ≠ layout.fileSize then
      Action.record .warning
        s!"Payload {path} is {layout.fileSize} bytes but its signature ends at offset {region.stop}"
      return false
    checkSignatures t path layout region keys

def verifyPayload (t : Toolkit) (path : Path) (keys : List Path) : Auditing Bool := do
  let verified ← (verifyFile t path keys : Action _)
  let _ ← Sink.log "verify_payload" (path.spelling :: keys.map Path.spelling) []
    [("verified", .bool verified)]
  return verified

end Sign

end UpdateSeal
