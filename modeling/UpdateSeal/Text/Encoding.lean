import UpdateSeal.Bytes

/-!
# Encodings of text

A document in bytes is read as UTF-8, UTF-16 or UTF-32, told apart by a mark at its start or by the
zero bytes among its first four. Unpaired surrogates are let through as the replacement character;
any other fault refuses the text.
-/

namespace UpdateSeal.Text

/-- The character with this code point. A surrogate stands for the replacement character. -/
def charOf? (n : Nat) : Option Char :=
  if n.isValidChar then some (Char.ofNat n) else if n < 0x110000 then some '\ufffd' else none

def isContinuation (c : UInt8) : Bool := 0x80 ≤ c && c < 0xc0

def sixBits (c : UInt8) : Nat := c.toNat % 64

def decodeUtf8 : Bytes → Option (List Char)
  | [] => some []
  | a :: b :: c :: d :: rest =>
    if a < 0x80 then (decodeUtf8 (b :: c :: d :: rest)).map (Char.ofNat a.toNat :: ·)
    else if 0xc2 ≤ a && a < 0xe0 && isContinuation b then
      (decodeUtf8 (c :: d :: rest)).map (Char.ofNat (a.toNat % 32 * 64 + sixBits b) :: ·)
    else if 0xe0 ≤ a && a < 0xf0 && isContinuation b && isContinuation c then
      let n := (a.toNat % 16 * 64 + sixBits b) * 64 + sixBits c
      if n < 0x800 then none
      else do return (← charOf? n) :: (← decodeUtf8 (d :: rest))
    else if 0xf0 ≤ a && a < 0xf5 && isContinuation b && isContinuation c && isContinuation d then
      let n := ((a.toNat % 8 * 64 + sixBits b) * 64 + sixBits c) * 64 + sixBits d
      if n < 0x10000 then none
      else do return (← charOf? n) :: (← decodeUtf8 rest)
    else none
  | [a, b, c] =>
    if a < 0x80 then (decodeUtf8 [b, c]).map (Char.ofNat a.toNat :: ·)
    else if 0xc2 ≤ a && a < 0xe0 && isContinuation b then
      (decodeUtf8 [c]).map (Char.ofNat (a.toNat % 32 * 64 + sixBits b) :: ·)
    else if 0xe0 ≤ a && a < 0xf0 && isContinuation b && isContinuation c then
      let n := (a.toNat % 16 * 64 + sixBits b) * 64 + sixBits c
      if n < 0x800 then none else do return [← charOf? n]
    else none
  | [a, b] =>
    if a < 0x80 then (decodeUtf8 [b]).map (Char.ofNat a.toNat :: ·)
    else if 0xc2 ≤ a && a < 0xe0 && isContinuation b then
      some [Char.ofNat (a.toNat % 32 * 64 + sixBits b)]
    else none
  | [a] => if a < 0x80 then some [Char.ofNat a.toNat] else none

/-- The 16-bit units of a text in UTF-16. -/
def units16 (big : Bool) : Bytes → Option (List Nat)
  | [] => some []
  | a :: b :: rest =>
    (units16 big rest).map ((if big then a.toNat * 256 + b.toNat else b.toNat * 256 + a.toNat) :: ·)
  | _ => none

def joinUnits : List Nat → List Char
  | [] => []
  | high :: low :: rest =>
    if 0xd800 ≤ high && high < 0xdc00 && 0xdc00 ≤ low && low < 0xe000 then
      Char.ofNat (0x10000 + (high - 0xd800) * 0x400 + (low - 0xdc00)) :: joinUnits rest
    else ((charOf? high).getD '\ufffd') :: joinUnits (low :: rest)
  | [n] => [(charOf? n).getD '\ufffd']

def decodeUtf16 (big : Bool) (b : Bytes) : Option (List Char) := (units16 big b).map joinUnits

def decodeUtf32 (big : Bool) : Bytes → Option (List Char)
  | [] => some []
  | a :: b :: c :: d :: rest => do
    let n := Bytes.toNat (if big then [a, b, c, d] else [d, c, b, a])
    return (← charOf? n) :: (← decodeUtf32 big rest)
  | _ => none

/-- Reads a document, telling its encoding by its first bytes. -/
def decodeDocument (b : Bytes) : Option (List Char) :=
  match b with
  | 0x00 :: 0x00 :: 0xfe :: 0xff :: rest => decodeUtf32 true rest
  | 0xff :: 0xfe :: 0x00 :: 0x00 :: rest => decodeUtf32 false rest
  | 0xfe :: 0xff :: rest => decodeUtf16 true rest
  | 0xff :: 0xfe :: rest => decodeUtf16 false rest
  | 0xef :: 0xbb :: 0xbf :: rest => decodeUtf8 rest
  | 0x00 :: 0x00 :: _ :: _ :: _ => decodeUtf32 true b
  | 0x00 :: _ :: _ :: _ :: _ => decodeUtf16 true b
  | _ :: 0x00 :: 0x00 :: 0x00 :: _ => decodeUtf32 false b
  | _ :: 0x00 :: _ :: _ :: _ => decodeUtf16 false b
  | [0x00, _] => decodeUtf16 true b
  | [_, 0x00] => decodeUtf16 false b
  | _ => decodeUtf8 b

end UpdateSeal.Text
