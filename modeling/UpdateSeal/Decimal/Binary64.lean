/-!
# Binary floating-point numbers

A finite number is a sign and a code. Codes count the non-negative values upward from zero, so
neighbouring values have neighbouring codes, and every value is a whole multiple of the least
positive one, 2^-1074. A decimal is read as the value nearest to it; a tie goes to the even code.
-/

namespace UpdateSeal.Decimal

/-- The code just past the greatest finite value. -/
def codeBound : Nat := 2047 * Nat.pow 2 52

/-- A binary number with 53 significant bits. -/
inductive Binary64 where
  | finite (negative : Bool) (code : Fin codeBound)
  | infinite (negative : Bool)
  | nan
deriving DecidableEq, Repr

/-- The value with this code, as a multiple of 2^-1074. -/
def unitsOf (code : Nat) : Nat :=
  if code < Nat.pow 2 53 then code
  else (Nat.pow 2 52 + code % Nat.pow 2 52) * Nat.pow 2 (code / Nat.pow 2 52 - 1)

/-- The whole number nearest to `num / den`; a tie goes to the even one. -/
def roundQuotient (num den : Nat) : Nat :=
  let q := num / den
  let r := num % den
  if 2 * r < den then q else if den < 2 * r then q + 1 else if q % 2 = 0 then q else q + 1

/-- The code nearest to `num / den` multiples of 2^-1074; a tie goes to the even code. -/
def nearestCode (num den : Nat) : Nat :=
  let shift := (num / den).log2 - 52
  shift * Nat.pow 2 52 + roundQuotient num (den * Nat.pow 2 shift)

def Binary64.ofCode (negative : Bool) (code : Nat) : Binary64 :=
  if h : code < codeBound then .finite negative ⟨code, h⟩ else .infinite negative

/-- The number of decimal digits of `n`, one for zero. -/
def digitCount (n : Nat) : Nat := (Nat.toDigits 10 n).length

/-- The number nearest to `digits * 10^exponent`. Decimals far outside the range of codes are
settled by their size alone. -/
def Binary64.ofDecimal (negative : Bool) (digits : Nat) (exponent : Int) : Binary64 :=
  let place := exponent + digitCount digits
  if digits = 0 ∨ place < -330 then .ofCode negative 0
  else if 310 < place then .infinite negative
  else
    .ofCode negative
      (nearestCode (digits * Nat.pow 10 exponent.toNat * Nat.pow 2 1074)
        (Nat.pow 10 (-exponent).toNat))

/-- The whole number that `x` is, if it is one. -/
def Binary64.toInt? : Binary64 → Option Int
  | .finite negative code =>
    let units := unitsOf code
    if units % Nat.pow 2 1074 = 0 then
      let n : Int := (units / Nat.pow 2 1074 : Nat)
      some (if negative then -n else n)
    else none
  | _ => none

end UpdateSeal.Decimal
