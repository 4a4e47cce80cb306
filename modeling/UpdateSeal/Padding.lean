import UpdateSeal.Digest.Sha256

/-!
# Signature blocks

The block that an RSA key signs: `00 01`, at least eight bytes `FF`, `00`, and the digest behind
the fixed bytes that name SHA-256. Recognising a block rebuilds it from the digest it ends with, so
exactly the blocks that framing produces are recognised.
-/

namespace UpdateSeal.Padding

inductive Fault where
  | tooSmall (size : Int) (length : Nat)
  | digestLength (length : Nat)
deriving DecidableEq, Repr

def Fault.message : Fault → String
  | .tooSmall size length => s!"Modulus size {size} is too small for {length} bytes of DigestInfo"
  | .digestLength length => s!"SHA-256 digest must be {digestSize} bytes, got {length}"

/-- The fewest filler bytes a block may have. -/
def minFiller : Nat := 8

/-- The DER bytes that stand before a SHA-256 digest. -/
def digestLead : Bytes :=
  [0x30, 0x31, 0x30, 0x0d, 0x06, 0x09, 0x60, 0x86, 0x48, 0x01, 0x65, 0x03, 0x04, 0x02, 0x01, 0x05,
   0x00, 0x04, 0x20]

/-- Frames `info` as a block of `size` bytes. -/
def frame (info : Bytes) (size : Int) : Except Fault Bytes :=
  let filler := size - info.length - 3
  if filler < minFiller then .error (.tooSmall size info.length)
  else .ok (0x00 :: 0x01 :: List.replicate filler.toNat 0xff ++ 0x00 :: info)

/-- The block of `size` bytes for a SHA-256 digest. -/
def pad (digest : Bytes) (size : Int) : Except Fault Bytes :=
  if digest.length ≠ digestSize then .error (.digestLength digest.length)
  else frame (digestLead ++ digest) size

/-- The digest that `block` carries, if it is exactly the block of `size` bytes for a digest. -/
def unpad (block : Bytes) (size : Int) : Option Bytes :=
  if (block.length : Int) ≠ size ∨ block.length < digestSize then none
  else
    let digest := block.drop (block.length - digestSize)
    match pad digest size with
    | .error _ => none
    | .ok expected => if expected = block then some digest else none

/-- What stands behind the frame of `block`: `00 01`, at least eight `FF`, `00`, and the rest. -/
def unframe (block : Bytes) : Option Bytes :=
  match block with
  | 0x00 :: 0x01 :: body =>
    let filler := body.takeWhile (· == 0xff)
    match body.drop filler.length with
    | 0x00 :: info => if filler.length < minFiller then none else some info
    | _ => none
  | _ => none

end UpdateSeal.Padding
