import UpdateSeal.Signing.Plan

/-!
# Checking signatures

A container is accepted when one of its current signatures recovers, under one of the keys, to
exactly the block that was to be signed. A container that cannot be read is never accepted.
-/

namespace UpdateSeal.Verify

/-- The signatures of a container, none if it cannot be read. -/
def readContainer (blob : Bytes) : Action (List Signature) :=
  match Container.decode blob with
  | .ok entries => return entries
  | .error e => do
    Action.record .warning s!"Rejecting malformed signature container: {e.message}"
    return []

/-- Whether a signature recovers to `block` under `key`. -/
def recoversTo (sizes : KeySizes) (key : LoadedKey) (block data : Bytes) : Action Bool := do
  return (← sizes.recover (.loaded key) data) == some block

/-- Looks for a signature over `block`, trying those from number `index` on in order. -/
def matchFrom (sizes : KeySizes) (key : LoadedKey) (block : Bytes) (index : Nat) :
    List Signature → Action Bool
  | [] => return false
  | s :: rest => do
    if s.version ≠ Signature.currentVersion then
      Action.record .debug s!"Skipping signature {index} with unknown version {s.version}"
      matchFrom sizes key block (index + 1) rest
    else if ← recoversTo sizes key block s.data then
      Action.record .debug s!"Signature {index} verified with {key.location}"
      return true
    else matchFrom sizes key block (index + 1) rest

/-- Whether a container holds a signature over `block` by the key in a file. -/
def verifyBlock (t : Toolkit) (blob : Bytes) (path : Path) (block : Bytes) : Action Bool := do
  let key ← t.keySizes.loadPublic path
  matchFrom t.keySizes key block 0 (← readContainer blob)

/-- Tries keys in order on the signatures of a container. -/
def matchKeys (sizes : KeySizes) (digest : Bytes) (entries : List Signature) :
    List LoadedKey → Action Bool
  | [] => return false
  | key :: keys => do
    let block ← Action.liftExcept (.value ∘ .padding) (Padding.pad digest key.modulusSize)
    if ← matchFrom sizes key block 0 entries then return true
    matchKeys sizes digest entries keys

/-- Whether a container holds a signature over a digest by one of the keys. All keys are loaded
before the first is tried. -/
def verifyDigest (t : Toolkit) (blob : Bytes) (paths : List Path) (digest : Bytes) :
    Action Bool := do
  let keys ← paths.mapM t.keySizes.loadPublic
  let entries ← readContainer blob
  if entries.isEmpty then return false
  if ← matchKeys t.keySizes digest entries keys then return true
  Action.record .debug s!"No candidate key among {keys.length} verified the signature"
  return false

/-- The digest that a bare signature was made over, if its block is well formed. -/
def rawDigest (t : Toolkit) (signature : Bytes) (path : Path) : Action (Option Bytes) := do
  let key ← t.keySizes.loadPublic path
  match ← t.keySizes.recover (.loaded key) signature with
  | none => return none
  | some block => return Padding.unpad block key.modulusSize

end UpdateSeal.Verify
