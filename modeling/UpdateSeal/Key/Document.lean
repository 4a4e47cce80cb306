import UpdateSeal.Key.Pem
import UpdateSeal.Key.Der
import UpdateSeal.Key.Rsa

/-!
# Key documents

What a key file holds: an RSA key, a key of another known kind, or nothing that can be read. Public
keys come as a bare pair of numbers or behind the name of their algorithm; private keys likewise.
-/

namespace UpdateSeal.KeyDocument

inductive Parsed (α : Type) where
  | rsa (key : α)
  | otherKind
deriving DecidableEq, Repr

def rsaName : Bytes := [0x2a, 0x86, 0x48, 0x86, 0xf7, 0x0d, 0x01, 0x01, 0x01]

/-- RSA keys that are bound to the PSS scheme. -/
def rsaPssName : Bytes := [0x2a, 0x86, 0x48, 0x86, 0xf7, 0x0d, 0x01, 0x01, 0x0a]

/-- The names of the other algorithms whose keys are known: elliptic curves, DSA and key agreement. -/
def otherNames : List Bytes :=
  [[0x2a, 0x86, 0x48, 0xce, 0x3d, 0x02, 0x01], [0x2b, 0x65, 0x6e], [0x2b, 0x65, 0x6f],
   [0x2b, 0x65, 0x70], [0x2b, 0x65, 0x71], [0x2a, 0x86, 0x48, 0xce, 0x38, 0x04, 0x01],
   [0x2a, 0x86, 0x48, 0xce, 0x3e, 0x02, 0x01],
   [0x2a, 0x86, 0x48, 0x86, 0xf7, 0x0d, 0x01, 0x03, 0x01]]

def publicNumbers? (b : Bytes) : Option Rsa.PublicKey := do
  match ← Der.numbers? 2 (← Der.only? Der.sequenceTag b) with
  | ([n, e], []) => return ⟨n, e⟩
  | _ => failure

def privateNumbers? (b : Bytes) : Option Rsa.PrivateKey := do
  match ← Der.numbers? 9 (← Der.only? Der.sequenceTag b) with
  | ([0, n, e, d, p, q, dp, dq, qInv], []) =>
    if Rsa.consistent n e d p q dp dq qInv then return ⟨n, e, d⟩ else failure
  | _ => failure

def algorithm? (b : Bytes) : Option (Bytes × Bytes) := Der.expect? Der.objectTag b

/-- The parameters of plain RSA are null or left out. -/
def plainParameters (b : Bytes) : Bool := b.isEmpty || b == [Der.nullTag, 0]

/-- Reads the key behind the name of an algorithm. -/
def named? {α : Type} (algorithm key : Bytes) (numbers? : Bytes → Option α) :
    Option (Parsed α) := do
  let (name, parameters) ← algorithm? algorithm
  if name = rsaName then
    if plainParameters parameters then return .rsa (← numbers? key) else failure
  else if name = rsaPssName then return .rsa (← numbers? key)
  else if otherNames.contains name then return .otherKind
  else failure

def publicInfo? (b : Bytes) : Option (Parsed Rsa.PublicKey) := do
  let (algorithm, rest) ← Der.expect? Der.sequenceTag (← Der.only? Der.sequenceTag b)
  match ← Der.only? Der.bitStringTag rest with
  | 0 :: key => named? algorithm key publicNumbers?
  | _ => failure

/-- A private key with the name of its algorithm. Attributes may follow. -/
def privateInfo? (b : Bytes) : Option (Parsed Rsa.PrivateKey) := do
  match ← Der.number? (← Der.only? Der.sequenceTag b) with
  | (0, rest) =>
    let (algorithm, rest) ← Der.expect? Der.sequenceTag rest
    let (key, rest) ← Der.expect? Der.octetStringTag rest
    unless rest.isEmpty do
      let _ ← Der.only? 0xa0 rest
    named? algorithm key privateNumbers?
  | _ => failure

def publicKey? (file : Bytes) : Option (Parsed Rsa.PublicKey) := do
  let block ← Pem.first? file
  if block.label = "PUBLIC KEY" then publicInfo? block.content
  else if block.label = "RSA PUBLIC KEY" then
    match publicNumbers? block.content with
    | some key => return .rsa key
    | none =>
      match ← publicInfo? block.content with
      | .rsa key => return .rsa key
      | .otherKind => failure
  else failure

def privateLabels : List String :=
  ["PRIVATE KEY", "RSA PRIVATE KEY", "EC PRIVATE KEY", "DSA PRIVATE KEY", "ENCRYPTED PRIVATE KEY"]

/-- The private key in a file. Encrypted keys are not read. -/
def privateKey? (file : Bytes) : Option (Parsed Rsa.PrivateKey) := do
  let block ← (← Pem.all? file).find? fun block => privateLabels.contains block.label
  if block.headers.contains "Proc-Type" then failure
  else if block.label = "PRIVATE KEY" then privateInfo? block.content
  else if block.label = "RSA PRIVATE KEY" then return .rsa (← privateNumbers? block.content)
  else if block.label = "ENCRYPTED PRIVATE KEY" then failure
  else do
    let _ ← Der.only? Der.sequenceTag block.content
    return .otherKind

end UpdateSeal.KeyDocument
