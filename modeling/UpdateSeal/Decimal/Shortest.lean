import UpdateSeal.Decimal.Binary64

/-!
# Shortest decimals

The fewest digits that read back to a given binary number, and of those the decimal nearest to it.
Grids of one to seventeen digits are tried in turn; on each only the two neighbours of the value
can read back with least error. `Form` then says where the point stands and when an exponent is
written.
-/

namespace UpdateSeal.Decimal

/-- The decimal `digits * 10^exponent`. -/
structure Numeral where
  digits : Nat
  exponent : Int
deriving DecidableEq, Repr

/-- A positive value, `significand * 2^exponent`. The gap to the value below is half the gap to the
value above where `narrow` holds. -/
structure Scaled where
  significand : Nat
  exponent : Int
  narrow : Bool
deriving DecidableEq, Repr

def Scaled.ofCode (code : Nat) : Scaled :=
  if code < Nat.pow 2 53 then ⟨code, -1074, false⟩
  else
    let fraction := code % Nat.pow 2 52
    ⟨Nat.pow 2 52 + fraction, ((code / Nat.pow 2 52 : Nat) : Int) - 1075, fraction == 0⟩

/-- `d` lies among the reals that round to `x`. -/
def Scaled.readsBack (x : Scaled) (d : Numeral) : Bool :=
  let below := if x.narrow then 4 * x.significand - 1 else 4 * x.significand - 2
  let above := 4 * x.significand + 2
  let twos := x.exponent - 2
  let value := d.digits * Nat.pow 10 d.exponent.toNat * Nat.pow 2 (-twos).toNat
  let unit := Nat.pow 2 twos.toNat * Nat.pow 10 (-d.exponent).toNat
  if x.significand % 2 = 0 then below * unit ≤ value && value ≤ above * unit
  else below * unit < value && value < above * unit

/-- The least `j` from `from` on with `num * 10^j` at least `den`, looked for in `n` steps. -/
def leadingZeros (num den : Nat) : Nat → Nat → Nat
  | 0, j => j
  | n + 1, j => if den ≤ num * Nat.pow 10 j then j else leadingZeros num den n (j + 1)

/-- The place of the decimal point: the least `k` with the value below `10^k`. -/
def Scaled.place (x : Scaled) : Int :=
  let num := x.significand * Nat.pow 2 x.exponent.toNat
  let den := Nat.pow 2 (-x.exponent).toNat
  if den ≤ num then digitCount (num / den) else 1 - leadingZeros num den 400 1

/-- The better of the two neighbours of `x` on the grid `10^grid`, if one reads back. -/
def Scaled.onGrid (x : Scaled) (grid : Int) : Option Numeral :=
  let num := x.significand * Nat.pow 2 x.exponent.toNat * Nat.pow 10 (-grid).toNat
  let den := Nat.pow 2 (-x.exponent).toNat * Nat.pow 10 grid.toNat
  let low : Numeral := ⟨num / den, grid⟩
  let high : Numeral := ⟨num / den + 1, grid⟩
  match x.readsBack low, x.readsBack high with
  | true, true => some ⟨roundQuotient num den, grid⟩
  | true, false => some low
  | false, true => some high
  | false, false => none

/-- Moves trailing zeros of the digits into the exponent. -/
def Numeral.strip : Nat → Numeral → Numeral
  | 0, d => d
  | n + 1, d => if d.digits % 10 = 0 then strip n ⟨d.digits / 10, d.exponent + 1⟩ else d

/-- The shortest decimal that reads back to the positive value with this code. -/
def shortest (code : Nat) : Numeral :=
  let x := Scaled.ofCode code
  let place := x.place
  let exact : Numeral :=
    ⟨x.significand * Nat.pow 2 x.exponent.toNat * Nat.pow 5 (-x.exponent).toNat, min x.exponent 0⟩
  let found := (List.range 17).findSome? fun n => x.onGrid (place - (n + 1 : Nat))
  (found.getD exact).strip 1100

/-- Where a decimal is written with its point in place, and how its exponent is written otherwise. -/
structure Form where
  /-- The least place of the point that is written positionally. -/
  plainFrom : Int
  /-- The greatest such place. -/
  plainUpTo : Int
  plainUpTo_lt : plainUpTo < 1000 := by decide
  /-- The fewest digits of an exponent. -/
  exponentWidth : Nat
deriving DecidableEq, Repr

def digitChars (n : Nat) : List Char := Nat.toDigits 10 n

def Form.scientific (format : Form) (ds : List Char) (exponent : Int) : List Char :=
  let size := digitChars exponent.natAbs
  let mantissa := match ds with
    | d :: e :: r => d :: '.' :: e :: r
    | ds => ds
  mantissa ++ 'e' :: (if exponent < 0 then '-' else '+') ::
    List.replicate (format.exponentWidth - size.length) '0' ++ size

/-- Writes a decimal that is not zero. -/
def Form.write (format : Form) (d : Numeral) : List Char :=
  let ds := digitChars d.digits
  let place := d.exponent + ds.length
  if format.plainFrom ≤ place ∧ place ≤ format.plainUpTo then
    if place ≤ 0 then '0' :: '.' :: List.replicate (-place).toNat '0' ++ ds
    else if ds.length ≤ place.toNat then
      ds ++ List.replicate (place.toNat - ds.length) '0' ++ ['.', '0']
    else ds.take place.toNat ++ '.' :: ds.drop place.toNat
  else format.scientific ds (place - 1)

/-- Writes a finite number in the fewest digits that read back to it. -/
def Form.writeFinite (format : Form) (negative : Bool) (code : Nat) : List Char :=
  let body := if code = 0 then ['0', '.', '0'] else format.write (shortest code)
  if negative then '-' :: body else body

end UpdateSeal.Decimal
