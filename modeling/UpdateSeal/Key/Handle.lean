import UpdateSeal.Host
import UpdateSeal.Key.Document

/-!
# Keys in use

A handle keeps where a key came from, the size of its signatures, and the key itself. Only keys of
supported sizes are loaded and used; the sizes are checked again at each use.
-/

namespace UpdateSeal

/-- The modulus sizes in bits that are supported, ascending and each once. -/
structure KeySizes where
  sizes : List Int
deriving DecidableEq, Repr

def KeySizes.ofList (sizes : List Int) : KeySizes :=
  ⟨(sizes.mergeSort fun a b => decide (a ≤ b)).eraseDups⟩

def KeySizes.default : KeySizes := ⟨[2048, 4096]⟩

inductive KeyMaterial where
  | privateKey (key : Rsa.PrivateKey)
  | publicKey (key : Rsa.PublicKey)
  /-- Something that is no key. -/
  | none
deriving DecidableEq, Repr

structure LoadedKey where
  location : Path
  modulusSize : Int
  material : KeyMaterial
deriving DecidableEq, Repr

inductive KeyHandle where
  | loaded (key : LoadedKey)
  /-- A handle that was not made here, with the name of its type. -/
  | foreign (typeName : String)
deriving DecidableEq, Repr

namespace KeySizes

def check (s : KeySizes) (bits : Nat) (location : Path) : Except RsaFault Unit :=
  if s.sizes.contains bits then .ok () else .error (.keySize bits location s.sizes)

def readKeyFile (path : Path) : Action Bytes :=
  tryCatch (Action.read path) fun e =>
    match e with
    | .storage f => throw (.key (.unreadable path f))
    | e => throw e

/-- The key in `file` as a handle, if it is an RSA key of a supported size. -/
def handleOf {α : Type} (s : KeySizes) (half : KeyHalf) (path : Path)
    (parsed : Option (KeyDocument.Parsed α)) (modulus : α → Nat) (wrap : α → KeyMaterial) :
    Except Failure LoadedKey :=
  match parsed with
  | none => .error (.key (.unparsable half path))
  | some .otherKind => .error (.key (.notRsa half path))
  | some (.rsa key) => do
    (s.check (Rsa.bitLength (modulus key)) path).mapError .rsa
    return ⟨path, Rsa.byteLength (modulus key), wrap key⟩

def privateHandle (s : KeySizes) (path : Path) (file : Bytes) : Except Failure LoadedKey :=
  handleOf s .privateHalf path (KeyDocument.privateKey? file) (·.modulus) .privateKey

def publicHandle (s : KeySizes) (path : Path) (file : Bytes) : Except Failure LoadedKey :=
  handleOf s .publicHalf path (KeyDocument.publicKey? file) (·.modulus) .publicKey

def loadPrivate (s : KeySizes) (path : Path) : Action LoadedKey := do
  Action.liftExcept id (s.privateHandle path (← readKeyFile path))

def loadPublic (s : KeySizes) (path : Path) : Action LoadedKey := do
  Action.liftExcept id (s.publicHandle path (← readKeyFile path))

/-- Signs with the private half of a key. `block` must be exactly the block for a digest. -/
def sign (s : KeySizes) (handle : KeyHandle) (block : Bytes) : Except RsaFault Bytes :=
  match handle with
  | .foreign name => .error (.handleType name)
  | .loaded ⟨location, size, .privateKey key⟩ => do
    s.check (Rsa.bitLength key.modulus) location
    match Padding.unpad block size with
    | none => throw (.notBlock size)
    | some digest =>
      match key.sign digest with
      | none => throw (.signing location)
      | some signature =>
        if (signature.length : Int) ≠ size then throw (.signatureLength signature.length size)
        return signature
  | .loaded key => .error (.wrongHalf key.location .privateHalf)

/-- The block behind a signature, if the public half of a key recovers a framed one. -/
def recover (s : KeySizes) (handle : KeyHandle) (signature : Bytes) : Action (Option Bytes) :=
  match handle with
  | .foreign name => throw (.rsa (.handleType name))
  | .loaded ⟨location, size, .publicKey key⟩ => do
    Action.liftExcept .rsa (s.check (Rsa.bitLength key.modulus) location)
    if (signature.length : Int) ≠ size then
      Action.record .debug
        s!"Signature length {signature.length} does not match {location} modulus size {size}"
      return none
    match key.recover signature with
    | none => return none
    | some info => some <$> Action.liftExcept (.value ∘ .padding) (Padding.frame info size)
  | .loaded key => throw (.rsa (.wrongHalf key.location .publicHalf))

end KeySizes

end UpdateSeal
