import Backtrack.Number.Binary64

/-!
# Decimal literals

The number that a decimal literal stands for: an optional sign, digits, an optional fraction and
an optional exponent.
-/

namespace Backtrack

namespace Binary64

/-- A not-a-number. -/
def nan : Binary64 := ⟨0x7ff8000000000000⟩

/-- The value of decimal digits. -/
def digitsValue (ds : List Char) : Nat :=
  ds.foldl (fun acc d => 10 * acc + (d.toNat - '0'.toNat)) 0

/-- An optional sign and what follows it. -/
def splitSign : List Char → Bool × List Char
  | '-' :: cs => (true, cs)
  | '+' :: cs => (false, cs)
  | cs => (false, cs)

/-- The exponent that a literal ends with. -/
def readExponent? : List Char → Option Int
  | [] => some 0
  | e :: cs =>
    let (negative, ds) := splitSign cs
    if (e == 'e' || e == 'E') && !ds.isEmpty && ds.all Char.isDigit then
      some (if negative then -(digitsValue ds : Int) else digitsValue ds)
    else none

/-- The number of a literal. -/
def ofLiteral? (literal : List Char) : Option Binary64 :=
  let (negative, cs) := splitSign literal
  let whole := cs.takeWhile Char.isDigit
  let (fraction, rest) :=
    match cs.dropWhile Char.isDigit with
    | '.' :: cs => (cs.takeWhile Char.isDigit, cs.dropWhile Char.isDigit)
    | rest => ([], rest)
  let digits := whole ++ fraction
  if digits.isEmpty then none
  else
    (readExponent? rest).map fun e =>
      ofDecimal negative (digitsValue digits) (e - fraction.length)

end Binary64

end Backtrack
