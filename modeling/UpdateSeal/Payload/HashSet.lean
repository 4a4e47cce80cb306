import UpdateSeal.Json.Reader
import UpdateSeal.Json.Writer
import UpdateSeal.Text.Encoding
import UpdateSeal.Digest.Sha256

/-!
# Hash sets

The two digests that an offline signer needs, and the JSON document that carries them: one member
for each, in hexadecimal. Blanks of ASCII may stand between the pairs of hexadecimal digits but not
inside one, and a refused text is refused at a position: that of the first character outside ASCII if
there is one, and of the first wrong character otherwise.
-/

namespace UpdateSeal

namespace Text

def isAsciiBlank (c : Char) : Bool := c == ' ' || ('\t' ≤ c && c ≤ '\r')

/-- Reads pairs from position `pos` on. The answer is the bytes or the position of the fault. -/
def unhexFrom (pos : Nat) : List Char → Except Nat Bytes
  | [] => .ok []
  | [c] => if isAsciiBlank c then .ok [] else .error (if (Json.hexValue? c).isSome then pos + 1 else pos)
  | c :: d :: rest =>
    if isAsciiBlank c then unhexFrom (pos + 1) (d :: rest)
    else
      match Json.hexValue? c, Json.hexValue? d with
      | none, _ => .error pos
      | some _, none => .error (pos + 1)
      | some high, some low => (unhexFrom (pos + 2) rest).map (UInt8.ofNat (high * 16 + low) :: ·)

def unhex (cs : List Char) : Except Nat Bytes :=
  match cs.findIdx? fun c => 127 < c.toNat with
  | some pos => .error pos
  | none => unhexFrom 0 cs

end Text

structure HashSet where
  payload : Bytes
  metadata : Bytes
  length_payload : payload.length = digestSize
  length_metadata : metadata.length = digestSize
deriving DecidableEq

namespace HashSet

inductive Fault where
  | notJson
  | longInt (digits : Nat)
  | missing (name : String)
  /-- A value of the wrong kind stands where a member or its text is looked for. -/
  | wrongType
  | hex (position : Nat)
  | size (name : String) (actual : Nat)
  /-- The bytes are no text. -/
  | encoding
deriving DecidableEq, Repr

def Fault.message : Fault → String
  | .missing name => s!"Invalid payload hash set document: '{name}'"
  | .notJson | .wrongType => "Invalid payload hash set document"
  | .longInt digits =>
    s!"Exceeds the limit ({Json.maxDigits} digits) for integer string conversion: value has {digits} digits; use sys.set_int_max_str_digits() to increase the limit"
  | .hex position => s!"non-hexadecimal number found in fromhex() arg at position {position}"
  | .size name actual => s!"{name} must be {digestSize} bytes, got {actual}"
  | .encoding => "Invalid text"

def payloadName : String := "payload_hash"
def metadataName : String := "metadata_hash"

/-- The hash set of two digests, if each has the size of a digest. -/
def ofDigests (payload metadata : Bytes) : Except Fault HashSet :=
  if hp : payload.length = digestSize then
    if hm : metadata.length = digestSize then .ok ⟨payload, metadata, hp, hm⟩
    else .error (.size metadataName metadata.length)
  else .error (.size payloadName payload.length)

def toJson (h : HashSet) : List Char :=
  Json.write Json.canonical
    (.obj [(metadataName, .str h.metadata.hex), (payloadName, .str h.payload.hex)])

def member (ms : Json.Members) (name : String) : Except Fault Bytes :=
  match ms.get? name with
  | none => .error (.missing name)
  | some (.str s) => (Text.unhex s.toList).mapError .hex
  | some _ => .error .wrongType

def ofValue : Json.Value → Except Fault HashSet
  | .obj ms => do ofDigests (← member ms payloadName) (← member ms metadataName)
  | _ => .error .wrongType

def ofJson (text : List Char) : Except Fault HashSet :=
  match Json.read Json.lenient text with
  | .error .malformed => .error .notJson
  | .error (.longInt digits) => .error (.longInt digits)
  | .ok v => ofValue v

/-- Reads a document from its bytes, in any encoding of Unicode. -/
def ofJsonBytes (raw : Bytes) : Except Fault HashSet :=
  match Text.decodeDocument raw with
  | none => .error .encoding
  | some text => ofJson text

end HashSet

end UpdateSeal
