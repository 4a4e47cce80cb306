import UpdateSeal.Padding

/-!
# The RSA transforms

Raising to a power modulo the key's modulus, on numbers and on byte strings as long as the modulus.
Signing transforms the block that carries a digest; recovering transforms a signature back and
strips the frame of the block.
-/

namespace UpdateSeal.Rsa

structure PublicKey where
  modulus : Nat
  exponent : Nat
deriving DecidableEq, Repr

structure PrivateKey where
  modulus : Nat
  publicExponent : Nat
  exponent : Nat
deriving DecidableEq, Repr

def bitLength (n : Nat) : Nat := if n = 0 then 0 else n.log2 + 1

def byteLength (n : Nat) : Nat := (bitLength n + 7) / 8

/-- `b ^ e % m`, by repeated squaring. -/
def powMod (b e m : Nat) : Nat :=
  if e = 0 then 1 % m
  else
    let half := powMod (b * b % m) (e / 2) m
    if e % 2 = 0 then half else b * half % m
termination_by e

/-- The byte string of the modulus size that spells the transform of the number in `b`. -/
def transform (modulus exponent : Nat) (b : Bytes) : Bytes :=
  Bytes.ofNat (byteLength modulus) (powMod (Bytes.toNat b) exponent modulus)

/-- The signature over a digest, if the key is large enough for its block. -/
def PrivateKey.sign (key : PrivateKey) (digest : Bytes) : Option Bytes :=
  match Padding.pad digest (byteLength key.modulus) with
  | .ok block => some (transform key.modulus key.exponent block)
  | .error _ => none

/-- The library transforms by an exponent below an odd modulus of up to 16384 bits, and beyond 3072
bits by one of up to 64. Under other keys it only signs. -/
def PublicKey.canTransform (key : PublicKey) : Bool :=
  key.modulus % 2 == 1 && key.exponent < key.modulus && bitLength key.modulus ≤ 16384 &&
    (bitLength key.modulus ≤ 3072 || bitLength key.exponent ≤ 64)

/-- What the block behind a signature carries, if the key can transform, the signature spells a
number below the modulus and the block is framed. -/
def PublicKey.recover (key : PublicKey) (signature : Bytes) : Option Bytes :=
  if !key.canTransform then none
  else if byteLength key.modulus < signature.length ∨ key.modulus ≤ Bytes.toNat signature then none
  else Padding.unframe (transform key.modulus key.exponent signature)

/-- The parts of a private key belong together. -/
def consistent (n e d p q dp dq qInv : Nat) : Bool :=
  1 < e && e % 2 == 1 && 1 < p && 1 < q && p * q == n &&
    d * e % (Nat.lcm (p - 1) (q - 1)) == 1 % Nat.lcm (p - 1) (q - 1) &&
    d % (p - 1) == dp && d % (q - 1) == dq && q * qInv % p == 1

end UpdateSeal.Rsa
