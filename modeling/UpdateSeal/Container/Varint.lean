import UpdateSeal.Bytes

/-!
# Base-128 numerals

A number is written in groups of seven bits, least significant first, and every byte but the last
has its high bit set. Reading takes at most ten bytes, so it reaches every number below 2^70.
-/

namespace UpdateSeal.Varint

inductive Fault where
  | truncated
  | tooLong
deriving DecidableEq, Repr

/-- The most bytes a numeral may have. -/
def maxLength : Nat := 10

/-- The shortest numeral of `n`. -/
def encode (n : Nat) : Bytes :=
  if n < 128 then [UInt8.ofNat n] else UInt8.ofNat (n % 128 + 128) :: encode (n / 128)

/-- Reads a numeral of at most `limit` bytes; returns its value and the bytes behind it. -/
def decodeWithin : Nat → Bytes → Except Fault (Nat × Bytes)
  | 0, _ => .error .tooLong
  | _ + 1, [] => .error .truncated
  | limit + 1, c :: rest =>
    if c < 128 then .ok (c.toNat, rest)
    else do
      let (high, rest) ← decodeWithin limit rest
      return (c.toNat % 128 + 128 * high, rest)

/-- Reads a numeral; returns its value and the bytes behind it. -/
def decode (b : Bytes) : Except Fault (Nat × Bytes) := decodeWithin maxLength b

/-- The number of bytes in the shortest numeral of `n`. -/
def length (n : Nat) : Nat := (encode n).length

theorem length_lt_of_decodeWithin {limit : Nat} {b rest : Bytes} {n : Nat}
    (h : decodeWithin limit b = .ok (n, rest)) : rest.length < b.length := by
  induction limit generalizing b n rest with
  | zero => simp [decodeWithin] at h
  | succ limit ih =>
    cases b with
    | nil => simp [decodeWithin] at h
    | cons c b =>
      simp only [decodeWithin] at h
      split at h
      · cases h; simp
      · cases hd : decodeWithin limit b with
        | error e => simp [hd, bind, Except.bind] at h
        | ok p =>
          simp only [hd, bind, Except.bind, pure, Except.pure, Except.ok.injEq, Prod.mk.injEq] at h
          have := @ih b p.2 p.1 hd
          simp only [List.length_cons]
          rw [← h.2]
          omega

theorem length_lt_of_decode {b rest : Bytes} {n : Nat} (h : decode b = .ok (n, rest)) :
    rest.length < b.length :=
  length_lt_of_decodeWithin h

end UpdateSeal.Varint
