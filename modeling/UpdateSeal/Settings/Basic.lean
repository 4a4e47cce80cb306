import UpdateSeal.Storage.Path
import UpdateSeal.Validation.Field
import UpdateSeal.Digest.Region

/-!
# Settings

What can be set, and the rules that given values are checked by. A setting that is not given has
its default, and names that are not known are passed over.
-/

namespace UpdateSeal

open Validation

structure Settings where
  dataDir : Option Path := none
  configDir : Option Path := none
  auditEnabled : Bool := true
  auditKeyPath : Option Path := none
  /-- Modulus sizes in bits. -/
  keySizes : List Int := [2048, 4096]
  majorVersion : Int := 2
  blockSize : Int := 4096
  readChunkSize : Int := defaultChunk
deriving DecidableEq, Repr

namespace Settings

/-- The setting that is a list, and is written as JSON where all values are texts. -/
def listName : String := "supported_key_sizes"

def names : List String :=
  ["data_dir", "config_dir", "audit_enabled", "audit_hmac_key_path", listName, "major_version",
   "block_size", "read_chunk_size"]

def path : Json.Value → Except Kind Path
  | .str s => .ok (Path.ofText s)
  | _ => .error .pathType

def unsupportedMajor (major : Int) : String :=
  s!"Value error, Unsupported payload major version {major}; expected one of (1, 2)"

def majorVersionOf (v : Json.Value) : Except Kind Int := do
  let major ← integer v
  if major = 1 ∨ major = 2 then return major else throw (.rule (unsupportedMajor major))

/-- Sizes are whole bytes and at least 1024 bits. -/
def isKeySize (bits : Int) : Bool := 1024 ≤ bits && bits % 8 == 0

def invalidKeySize (bits : Int) : String := s!"Value error, Invalid RSA key size: {bits}"

def checkKeySizes (sizes : List Int) : Except Kind (List Int) :=
  if sizes.isEmpty then
    .error (.rule "Value error, At least one supported RSA key size is required")
  else
    match sizes.find? fun bits => !isKeySize bits with
    | some bits => .error (.rule (invalidKeySize bits))
    | none => .ok sizes

def keySizesOf (v : Json.Value) : Checked (List Int) :=
  (list listName integer v).bind fun sizes => Checked.at [listName] (checkKeySizes sizes)

def ofMembers (ms : Json.Members) : Checked Settings :=
  let field {α : Type} (name : String) (default : α) (check : Json.Value → Except Kind α) :=
    optional ms name default (single name check)
  let directories := Checked.and (field "data_dir" none (nullable path))
    (field "config_dir" none (nullable path))
  let audit := Checked.and (field "audit_enabled" true truth)
    (field "audit_hmac_key_path" none (nullable path))
  let signing := Checked.and (optional ms listName [2048, 4096] keySizesOf)
    (field "major_version" 2 majorVersionOf)
  let sizes := Checked.and (field "block_size" 4096 (integerAbove 0))
    (field "read_chunk_size" defaultChunk (integerFrom 4096))
  (Checked.and (Checked.and directories audit) (Checked.and signing sizes)).map
    fun (((dataDir, configDir), auditEnabled, auditKeyPath), (keySizes, majorVersion), blockSize,
        readChunkSize) =>
      { dataDir, configDir, auditEnabled, auditKeyPath, keySizes, majorVersion, blockSize,
        readChunkSize }

end Settings

end UpdateSeal
