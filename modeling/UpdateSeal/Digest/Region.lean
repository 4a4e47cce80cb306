import UpdateSeal.Digest.Sha256

/-!
# Digests of file regions

A region is a byte range of a file. The digest of several regions is the digest of their bytes,
one after another, behind bytes given in advance; each region is read in pieces of a chosen size.
-/

namespace UpdateSeal

/-- The byte range of `length` bytes from `offset` on. -/
structure Region where
  offset : Int
  length : Int
deriving DecidableEq, Repr

def Region.stop (r : Region) : Int := r.offset + r.length

inductive RegionFault where
  | negative (r : Region)
  | exceeds (r : Region) (size : Nat)
  | unexpectedEnd
  /-- A read was asked for a negative number of bytes other than -1. -/
  | readLength
deriving DecidableEq, Repr

/-- What one read of `n` bytes gives where `rest` is still to come: at most `n` bytes, or with -1
all of them. -/
def readBytes (n : Int) (rest : Bytes) : Option Bytes :=
  if 0 ≤ n then some (rest.take n.toNat) else if n = -1 then some rest else none

inductive WindowFault where
  | negativeOffset
  | readLength
deriving DecidableEq, Repr

/-- What one read of `r.length` bytes from `r.offset` on gives. It may be short. -/
def readWindow (content : Bytes) (r : Region) : Except WindowFault Bytes :=
  if r.offset < 0 then .error .negativeOffset
  else
    match readBytes r.length (content.drop r.offset.toNat) with
    | some b => .ok b
    | none => .error .readLength

/-- Feeds `remaining` bytes of `rest` to the stream, at most `chunk` at a time. -/
def feedChunks (chunk : Int) (s : Sha256.Stream) (rest : Bytes) (remaining : Nat) :
    Except RegionFault Sha256.Stream :=
  if remaining = 0 then .ok s
  else
    match readBytes (min chunk remaining) rest with
    | none => .error .readLength
    | some [] => .error .unexpectedEnd
    | some (c :: piece) =>
      feedChunks chunk (s.update (c :: piece)) (rest.drop (piece.length + 1))
        (remaining - (piece.length + 1))
termination_by remaining

/-- Feeds one region of `content`, if it lies inside. -/
def feedRegion (chunk : Int) (content : Bytes) (s : Sha256.Stream) (r : Region) :
    Except RegionFault Sha256.Stream :=
  if r.offset < 0 ∨ r.length < 0 then .error (.negative r)
  else if (content.length : Int) < r.stop then .error (.exceeds r content.length)
  else feedChunks chunk s (content.drop r.offset.toNat) r.length.toNat

/-- The digest of `lead` followed by the regions of `content`, read `chunk` bytes at a time. -/
def digestRegions (content : Bytes) (regions : List Region) (lead : Bytes) (chunk : Int) :
    Except RegionFault Bytes := do
  let s ← regions.foldlM (feedRegion chunk content) (({} : Sha256.Stream).update lead)
  return s.digest

/-- The number of bytes read at a time where nothing else is asked for. -/
def defaultChunk : Int := 65536

end UpdateSeal
