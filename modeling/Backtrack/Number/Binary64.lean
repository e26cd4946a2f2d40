/-!
# Binary floating point numbers

Numbers of the IEEE 754 binary64 format, kept as their bits so that every not-a-number keeps its
payload. Decimal and integer values are rounded to the nearest number, ties to the even one, in
exact arithmetic on natural numbers; values beyond the largest number become infinite.
-/

namespace Backtrack

/-- A number of the binary64 format. -/
structure Binary64 where
  bits : UInt64
  deriving DecidableEq

/-- The quotient rounded to the nearest integer, a half to the even neighbour. -/
def roundDiv (num den : Nat) : Nat :=
  let q := num / den
  let r := num % den
  if 2 * r < den then q else if den < 2 * r then q + 1 else q + q % 2

namespace Binary64

/-- The bits of infinity, which follow those of the largest number. -/
def infinityBits : Nat := 2047 * Nat.pow 2 52

/-- The bits without the sign. -/
def magnitude (x : Binary64) : Nat := x.bits.toNat % Nat.pow 2 63

/-- The sign bit is set. -/
def isNegative (x : Binary64) : Bool := Nat.pow 2 63 ≤ x.bits.toNat

/-- Neither infinite nor not-a-number. -/
def isFinite (x : Binary64) : Bool := x.magnitude < infinityBits

/-- Not a number. -/
def isNaN (x : Binary64) : Bool := infinityBits < x.magnitude

/-- Numeric equality: a not-a-number differs from everything and the two zeros are equal. -/
def numEq (x y : Binary64) : Bool :=
  !x.isNaN && !y.isNaN && (x.bits == y.bits || (x.magnitude == 0 && y.magnitude == 0))

/-- The number with a given sign and the given other bits. -/
def ofMagnitude (negative : Bool) (m : Nat) : Binary64 :=
  ⟨UInt64.ofNat (if negative then Nat.pow 2 63 + m else m)⟩

/-- The exponent `e` with `2 ^ e ≤ num / den < 2 ^ (e + 1)`, for a positive quotient. -/
def binaryExponent (num den : Nat) : Int :=
  let e : Int := num.log2 - den.log2
  if den * Nat.pow 2 e.toNat ≤ num * Nat.pow 2 (-e).toNat then e else e - 1

/-- The bits of the number nearest to the quotient. With the unit in the last place `2 ^ q`, the
exponent field counts how far `q` lies above the smallest unit, and the leading digit of a normal
number adds one to it. -/
def magnitudeOfRatio (num den : Nat) : Nat :=
  if num = 0 then 0 else
    let q : Int := max (binaryExponent num den - 52) (-1074)
    let m := roundDiv (num * Nat.pow 2 (-q).toNat) (den * Nat.pow 2 q.toNat)
    min infinityBits ((q + 1074).toNat * Nat.pow 2 52 + m)

/-- The number nearest to an integer. -/
def ofInt (n : Int) : Binary64 := ofMagnitude (n < 0) (magnitudeOfRatio n.natAbs 1)

/-- The bits of the number nearest to `digits * 10 ^ exponent`. Beyond the range of the format the
power of ten is not computed. -/
def magnitudeOfDecimal (digits : Nat) (exponent : Int) : Nat :=
  if digits = 0 then 0 else
    let top : Int := (Nat.toDigits 10 digits).length + exponent
    if 310 < top then infinityBits
    else if top < -330 then 0
    else magnitudeOfRatio (digits * Nat.pow 10 exponent.toNat) (Nat.pow 10 (-exponent).toNat)

/-- The number nearest to a decimal. The sign is kept also where the decimal is zero. -/
def ofDecimal (negative : Bool) (digits : Nat) (exponent : Int) : Binary64 :=
  ofMagnitude negative (magnitudeOfDecimal digits exponent)

/-- The bits as sixteen hexadecimal digits. -/
def hex (x : Binary64) : String :=
  let digits := Nat.toDigits 16 x.bits.toNat
  String.ofList (List.replicate (16 - digits.length) '0' ++ digits)

end Binary64

end Backtrack
