import UpdateSeal.Payload.Fault

/-!
# Payload headers

A header is the magic `CrAU`, the major version and the manifest size as eight bytes each, and for
major version 2 the metadata signature size as four bytes, all big-endian.
-/

namespace UpdateSeal

structure Header where
  major : Int
  manifestSize : Int
  metadataSignatureSize : Int := 0
deriving DecidableEq, Repr

namespace Header

def magic : Bytes := [0x43, 0x72, 0x41, 0x55]

/-- The greatest manifest size that is read. -/
def maxManifestSize : Nat := 64 * 1024 * 1024

/-- The size of a header of the given major version. -/
def sizeOfMajor (major : Int) : Except PayloadFault Nat :=
  if major = 1 then .ok 20 else if major = 2 then .ok 24 else .error (.unsupportedMajor major)

def maxSize : Nat := 24

def size (h : Header) : Except PayloadFault Nat := sizeOfMajor h.major

/-- The numeral of `n` in `width` bytes, if it fits. -/
def pack (width : Nat) (n : Int) : Except PayloadFault Bytes :=
  if 0 ≤ n ∧ n < Nat.pow 256 width then .ok (Bytes.ofNat width n.toNat) else .error .fieldRange

def toBytes (h : Header) : Except PayloadFault Bytes :=
  if h.major = 1 then
    if h.metadataSignatureSize ≠ 0 then .error .noMetadataSignature
    else do return magic ++ (← pack 8 h.major) ++ (← pack 8 h.manifestSize)
  else if h.major = 2 then do
    return magic ++ (← pack 8 h.major) ++ (← pack 8 h.manifestSize) ++
      (← pack 4 h.metadataSignatureSize)
  else .error (.unsupportedMajor h.major)

def ofBytes (raw : Bytes) : Except PayloadFault Header :=
  if raw.length < 20 then .error .tooShort
  else
    let found := raw.take 4
    let major := Bytes.toNat (Bytes.slice 4 8 raw)
    let manifestSize := Bytes.toNat (Bytes.slice 12 8 raw)
    if found ≠ magic then .error (.badMagic found)
    else if maxManifestSize < manifestSize then .error (.manifestTooLarge manifestSize)
    else if major = 1 then .ok ⟨1, manifestSize, 0⟩
    else if major = 2 then
      if raw.length < 24 then .error .truncatedHeader
      else .ok ⟨2, manifestSize, Bytes.toNat (Bytes.slice 20 4 raw)⟩
    else .error (.unsupportedMajor major)

end Header

end UpdateSeal
