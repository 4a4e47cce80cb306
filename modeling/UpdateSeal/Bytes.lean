/-!
# Byte strings

Byte strings are lists of bytes, so the list library is their theory. This file adds what a binary
format needs beside it: big-endian numerals of a fixed width, windows, hexadecimal text, and the
two ways text and bytes meet.
-/

namespace UpdateSeal

abbrev Bytes := List UInt8

namespace Bytes

/-- The number spelled by `b`, most significant byte first. -/
def toNat (b : Bytes) : Nat := b.foldl (fun n c => n * 256 + c.toNat) 0

/-- The numeral of `n` in exactly `width` bytes, most significant first; higher digits are dropped. -/
def ofNat (width n : Nat) : Bytes := go width n []
where
  go : Nat → Nat → Bytes → Bytes
    | 0, _, tail => tail
    | width + 1, n, tail => go width (n / 256) (UInt8.ofNat n :: tail)

/-- The window of `length` bytes from `offset` on, cut short at the end of `b`. -/
def slice (offset length : Nat) (b : Bytes) : Bytes := (b.drop offset).take length

/-- The first `n` bytes and the rest, if there are as many. -/
def cut? (n : Nat) (b : Bytes) : Option (Bytes × Bytes) :=
  let front := b.take n
  if front.length = n then some (front, b.drop n) else none

def hexDigit (n : Nat) : Char :=
  if n < 10 then Char.ofNat (48 + n) else Char.ofNat (87 + n)

/-- Two lower-case hexadecimal digits for each byte. -/
def hexChars : Bytes → List Char
  | [] => []
  | c :: b => hexDigit (c.toNat / 16) :: hexDigit (c.toNat % 16) :: hexChars b

def hex (b : Bytes) : String := String.ofList (hexChars b)

def ofText (s : String) : Bytes := s.toUTF8.data.toList

/-- The text that `b` holds in UTF-8, if it is well formed. -/
def text? (b : Bytes) : Option String := String.fromUTF8? (ByteArray.mk b.toArray)

def isPrintable (c : UInt8) : Bool := 32 ≤ c && c < 127

/-- How a byte string is shown inside a message: printable ASCII stands for itself, the rest is
escaped, and the quotes are double only where that spares an escape. -/
def quoted (b : Bytes) : String :=
  let mark : UInt8 := if b.contains 39 && !b.contains 34 then 34 else 39
  let shown := b.flatMap fun c =>
    if c == mark || c == 92 then ['\\', Char.ofNat c.toNat]
    else if c == 9 then ['\\', 't']
    else if c == 10 then ['\\', 'n']
    else if c == 13 then ['\\', 'r']
    else if isPrintable c then [Char.ofNat c.toNat]
    else '\\' :: 'x' :: hexChars [c]
  String.ofList ('b' :: Char.ofNat mark.toNat :: shown ++ [Char.ofNat mark.toNat])

theorem length_ofNat_go (width n : Nat) (tail : Bytes) :
    (ofNat.go width n tail).length = width + tail.length := by
  induction width generalizing n tail with
  | zero => simp [ofNat.go]
  | succ width ih => simp [ofNat.go, ih]; omega

@[simp] theorem length_ofNat (width n : Nat) : (ofNat width n).length = width := by
  simp [ofNat, length_ofNat_go]

theorem slice_append (a b c : Bytes) : slice a.length b.length (a ++ (b ++ c)) = b := by
  rw [slice, List.drop_left, List.take_left]

theorem take_add_eq (n m : Nat) (b : Bytes) : b.take (n + m) = b.take n ++ slice n m b :=
  List.take_add

theorem length_slice_of_le {offset length : Nat} {b : Bytes} (h : offset + length ≤ b.length) :
    (slice offset length b).length = length := by
  rw [slice, List.length_take, List.length_drop]
  omega

theorem cut?_eq_some_iff {n : Nat} {b front rest : Bytes} :
    cut? n b = some (front, rest) ↔ front.length = n ∧ b = front ++ rest := by
  simp only [cut?]
  constructor
  · intro h
    split at h
    · next hn =>
      cases h
      exact ⟨hn, (List.take_append_drop n b).symm⟩
    · cases h
  · rintro ⟨rfl, rfl⟩
    simp

theorem length_le_of_cut? {n : Nat} {b : Bytes} {p : Bytes × Bytes} (h : cut? n b = some p) :
    p.2.length ≤ b.length := by
  rw [(cut?_eq_some_iff.1 h).2]
  simp

end Bytes

end UpdateSeal
