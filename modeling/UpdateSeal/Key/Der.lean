import UpdateSeal.Bytes

/-!
# Distinguished encoding

Elements of a tag, a length in its shortest form, and that many bytes. Numbers are not negative and
have no byte too many.
-/

namespace UpdateSeal.Der

structure Element where
  tag : UInt8
  content : Bytes
deriving DecidableEq, Repr

def integerTag : UInt8 := 0x02
def bitStringTag : UInt8 := 0x03
def octetStringTag : UInt8 := 0x04
def nullTag : UInt8 := 0x05
def objectTag : UInt8 := 0x06
def sequenceTag : UInt8 := 0x30

/-- Reads a length, in its shortest form. -/
def length? : Bytes → Option (Nat × Bytes)
  | [] => none
  | c :: rest =>
    if c < 0x80 then some (c.toNat, rest)
    else
      let width := c.toNat - 0x80
      let digits := rest.take width
      let n := Bytes.toNat digits
      if width = 0 ∨ 4 < width ∨ digits.length < width ∨ digits.head? = some 0 ∨ n < 0x80 then none
      else some (n, rest.drop width)

def element? : Bytes → Option (Element × Bytes)
  | [] => none
  | tag :: rest => do
    let (n, rest) ← length? rest
    if rest.length < n then failure
    return (⟨tag, rest.take n⟩, rest.drop n)

def expect? (tag : UInt8) (b : Bytes) : Option (Bytes × Bytes) := do
  let (e, rest) ← element? b
  if e.tag = tag then return (e.content, rest) else failure

/-- Reads an element of the given tag behind which nothing stands. -/
def only? (tag : UInt8) (b : Bytes) : Option Bytes := do
  let (content, rest) ← expect? tag b
  if rest.isEmpty then return content else failure

def number? (b : Bytes) : Option (Nat × Bytes) := do
  let (digits, rest) ← expect? integerTag b
  match digits with
  | [] => failure
  | [c] => if c < 0x80 then return (c.toNat, rest) else failure
  | c :: d :: _ => if 0x80 ≤ c ∨ (c = 0 ∧ d < 0x80) then failure else return (Bytes.toNat digits, rest)

def numbers? : Nat → Bytes → Option (List Nat × Bytes)
  | 0, b => some ([], b)
  | count + 1, b => do
    let (n, b) ← number? b
    let (ns, b) ← numbers? count b
    return (n :: ns, b)

end UpdateSeal.Der
