import UpdateSeal.Validation.Issue
import UpdateSeal.Json.Token
import UpdateSeal.Bytes

/-!
# Faults of payloads

Why bytes are no update payload, or why one cannot be described or written.
-/

namespace UpdateSeal

inductive PayloadFault where
  | unsupportedMajor (major : Int)
  /-- A payload of major version 1 has no place for a metadata signature. -/
  | noMetadataSignature
  | tooShort
  | badMagic (found : Bytes)
  | manifestTooLarge (size : Nat)
  | truncatedHeader
  /-- A number does not fit its field of the header. -/
  | fieldRange
  /-- A number has too many digits to be written. -/
  | longNumber
  | manifestTruncated (path : String) (expected actual : Nat)
  | invalidManifest (issues : List Validation.Issue)
  | metadataPastEnd (stop size : Int)
  | dataPastEnd
  | signaturePastEnd (offset stop size : Int)
  | regionTruncated (offset stop : Int) (path : String)
  | metadataSignatureMissing
  | payloadSignatureSize (actual : Nat) (reserved : Int)
  | metadataSignatureSize (actual : Nat) (reserved : Int)
deriving DecidableEq, Repr

def PayloadFault.message : PayloadFault → String
  | .unsupportedMajor major => s!"Unsupported payload major version: {major}"
  | .noMetadataSignature => "Major version 1 payloads cannot carry a metadata signature"
  | .tooShort => "Payload is too short to contain a header"
  | .badMagic found => s!"Bad payload magic: {found.quoted}"
  | .manifestTooLarge size => s!"Manifest size {size} exceeds limit"
  | .truncatedHeader => "Payload header truncated"
  | .fieldRange => "Header number outside its field"
  | .longNumber =>
    s!"Exceeds the limit ({Json.maxDigits} digits) for integer string conversion; use sys.set_int_max_str_digits() to increase the limit"
  | .manifestTruncated path expected actual =>
    s!"Manifest truncated in {path}: expected {expected} bytes, got {actual}"
  | .invalidManifest _ => "Invalid payload manifest"
  | .metadataPastEnd stop size => s!"Metadata region ends at {stop}, past file size {size}"
  | .dataPastEnd => "Data blobs overrun payload file"
  | .signaturePastEnd offset stop size =>
    s!"Payload signature region [{offset}, {stop}) overruns file size {size}"
  | .regionTruncated offset stop path => s!"Region [{offset}, {stop}) of {path} is truncated"
  | .metadataSignatureMissing => "Major version 2 payloads require a metadata signature"
  | .payloadSignatureSize actual reserved =>
    s!"Payload signature is {actual} bytes but {reserved} were reserved"
  | .metadataSignatureSize actual reserved =>
    s!"Metadata signature is {actual} bytes but {reserved} were reserved"

end UpdateSeal
