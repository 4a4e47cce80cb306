import UpdateSeal.Bytes

/-!
# Lines of text

Characters are blank if they have the Unicode property White_Space; a wider class also holds the four
separators below the space. Texts are trimmed by one or the other. A line ends with a line feed, a
carriage return, or both in this order, or with the text.

A file is taken in block by block, and its lines are read as they come. Where the bytes are not
UTF-8 the lines that ended in earlier blocks have been read before the fault shows. A character cut
short is a fault only at the end of the file, when no byte can complete it.
-/

namespace UpdateSeal.Text

/-- Closed ranges of code points with the property White_Space, ascending and apart. -/
def blankRanges : List (Nat × Nat) :=
  [(0x09, 0x0d), (0x20, 0x20), (0x85, 0x85), (0xa0, 0xa0), (0x1680, 0x1680), (0x2000, 0x200a),
   (0x2028, 0x2029), (0x202f, 0x202f), (0x205f, 0x205f), (0x3000, 0x3000)]

def isBlank (c : Char) : Bool := blankRanges.any fun r => r.1 ≤ c.toNat && c.toNat ≤ r.2

/-- Blank, or one of the separators U+001C to U+001F. -/
def isSpace (c : Char) : Bool := isBlank c || (0x1c ≤ c.toNat && c.toNat ≤ 0x1f)

/-- Drops the characters with property `p` from the end. -/
def trimRight (p : Char → Bool) (cs : List Char) : List Char := (cs.reverse.dropWhile p).reverse

/-- Drops the characters with property `p` from both ends. -/
def trim (p : Char → Bool) (cs : List Char) : List Char := trimRight p (cs.dropWhile p)

/-! ### Lines -/

/-- The lines of a text. `line` holds the characters of the current one, newest first. -/
def linesFrom (line : List Char) : List Char → List (List Char)
  | [] => if line.isEmpty then [] else [line.reverse]
  | '\r' :: '\n' :: rest => line.reverse :: linesFrom [] rest
  | c :: rest =>
    if c == '\n' || c == '\r' then line.reverse :: linesFrom [] rest else linesFrom (c :: line) rest

def lines (cs : List Char) : List (List Char) := linesFrom [] cs

/-- The lines whose end is certain while more text may follow: a carriage return at the end may
turn out to be half of a pair. -/
def endedLines (cs : List Char) : List (List Char) :=
  if cs.getLast? == some '\n' then lines cs else (lines cs).dropLast

/-- Ends every line with a line feed alone. -/
def unifyBreaks : List Char → List Char
  | [] => []
  | '\r' :: '\n' :: rest => '\n' :: unifyBreaks rest
  | c :: rest => (if c == '\r' then '\n' else c) :: unifyBreaks rest

/-! ### Blocks -/

def blockSize : Nat := 8192

/-- The least and the greatest byte that may come next. -/
abbrev ByteRange := UInt8 × UInt8

/-- The range of the bytes that continue a character, where no narrower one holds. -/
def continuing : ByteRange := (0x80, 0xbf)

/-- The ranges of the bytes that complete the character which starts with this byte. The narrow ones
leave out longer spellings of a character and numbers above all characters. -/
def completion? (c : UInt8) : Option (List ByteRange) :=
  if c < 0x80 then some []
  else if c < 0xc2 then none
  else if c < 0xe0 then some [continuing]
  else if c = 0xe0 then some [(0xa0, 0xbf), continuing]
  else if c < 0xf0 then some [continuing, continuing]
  else if c = 0xf0 then some [(0x90, 0xbf), continuing, continuing]
  else if c < 0xf4 then some [continuing, continuing, continuing]
  else if c = 0xf4 then some [(0x80, 0x8f), continuing, continuing]
  else none

/-- What the bytes behind a first byte spell is a surrogate. -/
def startsSurrogate (c : UInt8) (b : Bytes) : Bool :=
  c == 0xed && b.head?.any fun d => 0xa0 ≤ d && d ≤ 0xbf

/-- The place, counted from `n`, of the byte in which the first fault shows. `owed` are the bytes that
the current character still lacks. A surrogate is refused when all its three bytes are there. -/
def faultFrom? (n : Nat) : List ByteRange → Bytes → Option Nat
  | _, [] => none
  | [], c :: b =>
    if startsSurrogate c b then b[1]?.map fun _ => n + 2
    else
      match completion? c with
      | some owed => faultFrom? (n + 1) owed b
      | none => some n
  | (low, high) :: owed, c :: b =>
    if low ≤ c && c ≤ high then faultFrom? (n + 1) owed b else some n

def soundBlocks (b : Bytes) : Bytes :=
  match faultFrom? 0 [] b with
  | some n => b.take (n / blockSize * blockSize)
  | none => b

/-- The text at the start of bytes that end within a character or after one. -/
def startingText (b : Bytes) : List Char :=
  match (List.range 4).findSome? fun n => Bytes.text? (b.take (b.length - n)) with
  | some s => s.toList
  | none => []

/-- The lines that are read before a fault shows. -/
def linesBeforeFault (b : Bytes) : List (List Char) := endedLines (startingText (soundBlocks b))

end UpdateSeal.Text
