/-!
# Rounding to binary64

The non-negative values of the IEEE 754 binary64 format, and the one nearest to a given fraction.
The format is read off in units of `2 ^ -1074`, its smallest positive value: the bit pattern `k * 2
^ 52 + m` with `m < 2 ^ 52` stands for `m` units where `k = 0` and for `(2 ^ 52 + m) * 2 ^ (k - 1)`
units where `0 < k < 2047`. Patterns are ordered as their values are, and the carry out of a
significand that is rounded up goes into the exponent by itself.
-/

namespace Piecemeal

/-- A non-negative binary64 value, by its bit pattern. -/
structure Binary64 where
  bits : Nat
deriving DecidableEq, Repr

/-- The quotient of two natural numbers rounded to the nearest one, a half to the even neighbour. -/
def roundHalfEven (a b : Nat) : Nat :=
  let q := a / b
  let r := a % b
  if b < 2 * r || (b == 2 * r && q % 2 == 1) then q + 1 else q

namespace Binary64

/-- Patterns that differ by this much have exponents that differ by one. -/
def binade : Nat := Nat.pow 2 52

/-- How many units there are in 1. -/
def one : Nat := Nat.pow 2 1074

/-- The pattern of infinity, above all finite ones. -/
def infinity : Binary64 := ⟨2047 * binade⟩

/-- The value nearest to `numerator / denominator`, a tie going to the even pattern; infinity where
that is nearer to `2 ^ 1024` than to any finite value. -/
def ofFraction (numerator denominator : Nat) : Binary64 :=
  let units := numerator * one
  let scale := Nat.log2 (units / denominator) - 52
  let significand := roundHalfEven units (denominator * Nat.pow 2 scale)
  ⟨min (scale * binade + significand) infinity.bits⟩

/-- How many units a finite value has. -/
def units (x : Binary64) : Nat :=
  let k := x.bits / binade
  let m := x.bits % binade
  if k = 0 then m else (binade + m) * Nat.pow 2 (k - 1)

def isFinite (x : Binary64) : Bool := x.bits < infinity.bits

/-- The natural number that a value is, if it is one. -/
def toNat? (x : Binary64) : Option Nat :=
  if x.isFinite && x.units % one == 0 then some (x.units / one) else none

end Binary64

/-! ## Decimal text -/

/-- The number written by decimal digits. -/
def digitsValue (digits : List Char) : Nat :=
  digits.foldl (fun n c => 10 * n + (c.toNat - '0'.toNat)) 0

/-- The digits before the point of a decimal text. -/
def wholeDigits (text : List Char) : List Char := text.takeWhile (· != '.')

/-- The digits after the point of a decimal text, none where it has no point. -/
def fractionDigits (text : List Char) : List Char := (text.dropWhile (· != '.')).drop 1

/-- The value nearest to the number that a decimal text denotes. -/
def Binary64.ofDecimal (text : List Char) : Binary64 :=
  let fraction := fractionDigits text
  ofFraction (digitsValue (wholeDigits text ++ fraction)) (Nat.pow 10 fraction.length)

end Piecemeal
