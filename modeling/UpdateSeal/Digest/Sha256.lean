import UpdateSeal.Bytes

/-!
# SHA-256 and seals

The compression function over 64-byte blocks, the padding of a message, and a stream that takes a
message in pieces. The digest of a message is the digest of the stream that was fed with it whole.
A seal is the HMAC of a message under a secret key. A key longer than a block stands for its digest;
a shorter one is filled up with zeros.
-/

namespace UpdateSeal

namespace Sha256

structure Chain where
  a : UInt32
  b : UInt32
  c : UInt32
  d : UInt32
  e : UInt32
  f : UInt32
  g : UInt32
  h : UInt32
deriving DecidableEq, Repr

def initial : Chain :=
  ⟨0x6a09e667, 0xbb67ae85, 0x3c6ef372, 0xa54ff53a, 0x510e527f, 0x9b05688c, 0x1f83d9ab, 0x5be0cd19⟩

def roundConstants : List UInt32 :=
  [0x428a2f98, 0x71374491, 0xb5c0fbcf, 0xe9b5dba5, 0x3956c25b, 0x59f111f1, 0x923f82a4, 0xab1c5ed5,
   0xd807aa98, 0x12835b01, 0x243185be, 0x550c7dc3, 0x72be5d74, 0x80deb1fe, 0x9bdc06a7, 0xc19bf174,
   0xe49b69c1, 0xefbe4786, 0x0fc19dc6, 0x240ca1cc, 0x2de92c6f, 0x4a7484aa, 0x5cb0a9dc, 0x76f988da,
   0x983e5152, 0xa831c66d, 0xb00327c8, 0xbf597fc7, 0xc6e00bf3, 0xd5a79147, 0x06ca6351, 0x14292967,
   0x27b70a85, 0x2e1b2138, 0x4d2c6dfc, 0x53380d13, 0x650a7354, 0x766a0abb, 0x81c2c92e, 0x92722c85,
   0xa2bfe8a1, 0xa81a664b, 0xc24b8b70, 0xc76c51a3, 0xd192e819, 0xd6990624, 0xf40e3585, 0x106aa070,
   0x19a4c116, 0x1e376c08, 0x2748774c, 0x34b0bcb5, 0x391c0cb3, 0x4ed8aa4a, 0x5b9cca4f, 0x682e6ff3,
   0x748f82ee, 0x78a5636f, 0x84c87814, 0x8cc70208, 0x90befffa, 0xa4506ceb, 0xbef9a3f7, 0xc67178f2]

def rotate (x n : UInt32) : UInt32 := (x >>> n) ||| (x <<< (32 - n))

/-- The words of a block, most significant byte first. -/
def wordsOf : Bytes → List UInt32
  | a :: b :: c :: d :: rest =>
    ((a.toUInt32 <<< 24) ||| (b.toUInt32 <<< 16) ||| (c.toUInt32 <<< 8) ||| d.toUInt32) :: wordsOf rest
  | _ => []

/-- Extends the message schedule by `n` words. The newest word stands first. -/
def extendSchedule : Nat → List UInt32 → List UInt32
  | 0, ws => ws
  | n + 1, ws =>
    let x := ws.getD 14 0
    let y := ws.getD 1 0
    let s0 := rotate x 7 ^^^ rotate x 18 ^^^ (x >>> 3)
    let s1 := rotate y 17 ^^^ rotate y 19 ^^^ (y >>> 10)
    extendSchedule n ((ws.getD 15 0 + s0 + ws.getD 6 0 + s1) :: ws)

def round (s : Chain) (k w : UInt32) : Chain :=
  let s1 := rotate s.e 6 ^^^ rotate s.e 11 ^^^ rotate s.e 25
  let ch := (s.e &&& s.f) ^^^ ((~~~ s.e) &&& s.g)
  let t1 := s.h + s1 + ch + k + w
  let s0 := rotate s.a 2 ^^^ rotate s.a 13 ^^^ rotate s.a 22
  let maj := (s.a &&& s.b) ^^^ (s.a &&& s.c) ^^^ (s.b &&& s.c)
  ⟨t1 + (s0 + maj), s.a, s.b, s.c, s.d + t1, s.e, s.f, s.g⟩

def rounds : List UInt32 → List UInt32 → Chain → Chain
  | k :: ks, w :: ws, s => rounds ks ws (round s k w)
  | _, _, s => s

/-- Mixes one block of 64 bytes into the chain. -/
def compress (s : Chain) (block : Bytes) : Chain :=
  let t := rounds roundConstants (extendSchedule 48 (wordsOf block).reverse).reverse s
  ⟨s.a + t.a, s.b + t.b, s.c + t.c, s.d + t.d, s.e + t.e, s.f + t.f, s.g + t.g, s.h + t.h⟩

/-- Mixes in every whole block of `b` and returns the bytes left over. -/
def absorb (s : Chain) (b : Bytes) : Chain × Bytes :=
  match _h : b.drop 63 with
  | [] => (s, b)
  | _ :: rest => absorb (compress s (b.take 64)) rest
termination_by b.length
decreasing_by
  have := congrArg List.length _h
  simp at this
  omega

/-- The bytes that end a message of `size` bytes: a one bit, zeros, and the length in bits. -/
def padding (size : Nat) : Bytes :=
  0x80 :: List.replicate ((119 - size % 64) % 64) 0 ++ Bytes.ofNat 8 (8 * size)

def Chain.toBytes (s : Chain) : Bytes :=
  [s.a, s.b, s.c, s.d, s.e, s.f, s.g, s.h].flatMap fun w => Bytes.ofNat 4 w.toNat

/-- A message that is still being fed: the chain over its whole blocks, the bytes since, and its
size so far. -/
structure Stream where
  chain : Chain := initial
  pending : Bytes := []
  size : Nat := 0

def Stream.update (s : Stream) (piece : Bytes) : Stream :=
  let (chain, pending) := absorb s.chain (s.pending ++ piece)
  ⟨chain, pending, s.size + piece.length⟩

def Stream.digest (s : Stream) : Bytes :=
  (absorb s.chain (s.pending ++ padding s.size)).1.toBytes

end Sha256

def digestSize : Nat := 32

def sha256 (message : Bytes) : Bytes := (({} : Sha256.Stream).update message).digest

theorem Sha256.Chain.length_toBytes (s : Sha256.Chain) : s.toBytes.length = digestSize := by
  simp [Sha256.Chain.toBytes, digestSize]

@[simp] theorem Sha256.Stream.length_digest (s : Sha256.Stream) : s.digest.length = digestSize :=
  Sha256.Chain.length_toBytes _

@[simp] theorem length_sha256 (message : Bytes) : (sha256 message).length = digestSize :=
  Sha256.Stream.length_digest _

/-- The key in the 64 bytes of one block. -/
def sealBlock (key : Bytes) : Bytes :=
  let short := if key.length ≤ 64 then key else sha256 key
  short ++ List.replicate (64 - short.length) 0

/-- The HMAC-SHA-256 of `message` under `key`. -/
def hmac (key message : Bytes) : Bytes :=
  let block := sealBlock key
  let inner := sha256 (block.map (· ^^^ 0x36) ++ message)
  sha256 (block.map (· ^^^ 0x5c) ++ inner)

end UpdateSeal
