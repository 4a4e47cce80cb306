import UpdateSeal.Container.Signature
import UpdateSeal.Padding
import UpdateSeal.Payload.HashSet
import UpdateSeal.Payload.Layout
import UpdateSeal.Storage.FileTree

/-!
# Failures

All that can stop an operation, each with the text that reports it.
-/

namespace UpdateSeal

inductive SourceFault where
  | unreadable (path : Path) (e : StorageFault)
  | unreadablePayload (path : Path) (e : StorageFault)
  | negativeRegion (r : Region) (path : Path)
  | regionExceeds (r : Region) (size : Nat) (path : Path)
  | unexpectedEnd (path : Path)
deriving DecidableEq, Repr

def SourceFault.message : SourceFault → String
  | .unreadable path e => s!"Cannot read {path}: {e.message}"
  | .unreadablePayload path e => s!"Cannot read payload {path}: {e.message}"
  | .negativeRegion r path => s!"Invalid region (offset={r.offset}, length={r.length}) for {path}"
  | .regionExceeds r size path => s!"Region [{r.offset}, {r.stop}) exceeds size {size} of {path}"
  | .unexpectedEnd path => s!"Unexpected end of file while reading {path}"

/-- The numbers that the text of a fault shows. -/
def SourceFault.numbers : SourceFault → List Int
  | .negativeRegion r _ => [r.offset, r.length]
  | .regionExceeds r size _ => [r.offset, r.stop, size]
  | _ => []

inductive KeyHalf where
  | privateHalf
  | publicHalf
deriving DecidableEq, Repr

def KeyHalf.adjective : KeyHalf → String
  | .privateHalf => "private"
  | .publicHalf => "public"

def KeyHalf.title : KeyHalf → String
  | .privateHalf => "Private"
  | .publicHalf => "Public"

def KeyHalf.typeName : KeyHalf → String
  | .privateHalf => "RSAPrivateKey"
  | .publicHalf => "RSAPublicKey"

inductive KeyFault where
  | unreadable (path : Path) (e : StorageFault)
  | unparsable (half : KeyHalf) (path : Path)
  | notRsa (half : KeyHalf) (path : Path)
deriving DecidableEq, Repr

def KeyFault.message : KeyFault → String
  | .unreadable path e => s!"Cannot read key file {path}: {e.message}"
  | .unparsable half path => s!"Cannot parse {half.adjective} key {path}"
  | .notRsa half path => s!"{half.title} key {path} is not an RSA key"

inductive RsaFault where
  | keySize (bits : Nat) (location : Path) (supported : List Int)
  | handleType (name : String)
  | wrongHalf (location : Path) (wanted : KeyHalf)
  | notBlock (size : Int)
  | signing (location : Path)
  | signatureLength (actual : Nat) (expected : Int)
deriving DecidableEq, Repr

def RsaFault.message : RsaFault → String
  | .keySize bits location supported =>
    let sizes := ", ".intercalate (supported.map toString)
    s!"Unsupported RSA key size {bits} for {location}; supported sizes: [" ++ sizes ++ "]"
  | .handleType name => s!"Unsupported key handle type: {name}"
  | .wrongHalf location wanted => s!"Key {location} is not a {wanted.typeName}"
  | .notBlock size => s!"Input is not a {size}-byte PKCS#1 v1.5 SHA-256 block"
  | .signing location => s!"RSA signing failed with {location}"
  | .signatureLength actual expected =>
    s!"Signature length {actual} does not match modulus size {expected}"

inductive ValueFault where
  | versionRange (version : Int)
  | padding (e : Padding.Fault)
  | sizeNotPositive (size : Int)
  | noSizes
  | digestLength (length : Nat)
  | noKeys
  | readLength
  | negativeCount
  /-- A number has too many digits to be written. -/
  | longNumber
  | ledgerEntry (line : Nat) (path : Path) (issues : List Validation.Issue)
deriving DecidableEq, Repr

def ValueFault.text : ValueFault → String
  | .versionRange version => s!"Signature version out of range: {version}"
  | .padding e => e.message
  | .sizeNotPositive size => s!"Signature size must be positive, got {size}"
  | .noSizes => "At least one signature size is required"
  | .digestLength length => s!"Digest must be {digestSize} bytes, got {length}"
  | .noKeys => "At least one private key is required for signing"
  | .readLength => "read length must be non-negative or -1"
  | .negativeCount => "negative count"
  | .longNumber => PayloadFault.longNumber.message
  | .ledgerEntry line path _ => s!"Invalid entry at line {line} in {path}"

/-- The numbers that the text of a fault shows. -/
def ValueFault.numbers : ValueFault → List Int
  | .versionRange n | .padding (.tooSmall n _) | .sizeNotPositive n => [n]
  | _ => []

/-- What is reported of a fault: its text, if its numbers can all be written. -/
def ValueFault.message (e : ValueFault) : String :=
  if e.numbers.all Manifest.isShort then e.text else ValueFault.longNumber.text

inductive Failure where
  | container (e : ContainerFault)
  | payload (e : PayloadFault)
  | source (e : SourceFault)
  | key (e : KeyFault)
  | rsa (e : RsaFault)
  | value (e : ValueFault)
  | hashSet (e : HashSet.Fault)
  | storage (e : StorageFault)
  /-- A record or setting breaks the rules of its fields. -/
  | invalid (issues : List Validation.Issue)
  /-- A setting that is written as JSON is none. -/
  | settingSyntax (name : String)
  /-- No payload signature was given where one is needed. -/
  | missingSignature
  /-- A text with a surrogate that stands alone was to be written. -/
  | surrogate
  /-- A text outside ASCII was to be compared in constant time. -/
  | nonAscii
  /-- A file that should hold text does not. -/
  | encoding
deriving DecidableEq, Repr

def Failure.message : Failure → String
  | .container e => e.message
  | .payload e => e.message
  | .source e => e.message
  | .key e => e.message
  | .rsa e => e.message
  | .value e => e.message
  | .hashSet e => e.message
  | .storage e => e.message
  | .invalid _ => "Invalid values"
  | .settingSyntax name => s!"Setting {name} is not JSON"
  | .missingSignature => "No payload signature"
  | .surrogate => "Text with a lone surrogate cannot be written"
  | .nonAscii => "Text outside ASCII cannot be compared"
  | .encoding => "File is not UTF-8 text"

/-- The failure that a fault of a file comes to: itself, if the numbers that its text shows can all be
written. -/
def Failure.ofSource (e : SourceFault) : Failure :=
  if e.numbers.all Manifest.isShort then .source e else .value .longNumber

/-- The signature with the given version, if a version may have that number. -/
def Signature.make (version : Int) (data : Bytes) : Except ValueFault Signature :=
  if 0 ≤ version ∧ version < UInt32.size then .ok ⟨.ofNat version.toNat, data⟩
  else .error (.versionRange version)

end UpdateSeal
