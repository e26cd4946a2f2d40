import Backtrack.Number.Binary64

/-!
# Shortest decimal text

The text of a number has the fewest digits that still round to it, and of those the nearest; of two
that are equally near, the one farther from zero. Small and large numbers are written with an
exponent, the others with at least one digit after the point.
-/

namespace Backtrack

namespace Binary64

/-- A positive finite number as `mantissa * 2 ^ exponent`. -/
def decode (x : Binary64) : Nat × Int :=
  let field : Nat := x.magnitude / Nat.pow 2 52
  let fraction : Nat := x.magnitude % Nat.pow 2 52
  if field = 0 then (fraction, -1074) else (Nat.pow 2 52 + fraction, (field : Int) - 1075)

/-- The number of decimal digits of a natural number. -/
def digitCount (n : Nat) : Nat := (Nat.toDigits 10 n).length

/-- The exponent `e` with `10 ^ e ≤ num / den < 10 ^ (e + 1)`, for a positive quotient. -/
def decimalExponent (num den : Nat) : Int :=
  if den ≤ num then (digitCount (num / den) : Int) - 1
  else -(digitCount ((den + num - 1) / num - 1) : Int)

/-- The nearest decimal `digits * 10 ^ exponent` with `count` digits that lies between the
midpoints to the neighbours of `num / den`, which are `low / den` and `high / den`. A tie goes to
the greater. -/
def decimalOf? (num low high den : Nat) (inclusive : Bool) (count : Nat) : Option (Nat × Int) :=
  let k := decimalExponent num den - count + 1
  let up := Nat.pow 10 (-k).toNat
  let down := den * Nat.pow 10 k.toNat
  let floor := num * up / down
  let fits (d : Nat) : Bool :=
    if inclusive then low * up ≤ d * down && d * down ≤ high * up
    else low * up < d * down && d * down < high * up
  match fits floor, fits (floor + 1) with
  | true, true =>
    if num * up - floor * down < (floor + 1) * down - num * up then some (floor, k)
    else some (floor + 1, k)
  | true, false => some (floor, k)
  | false, true => some (floor + 1, k)
  | false, false => none

/-- The shortest decimal that rounds to a positive finite number. -/
def shortest (x : Binary64) : Nat × Int :=
  let (m, q) := x.decode
  let scale := Nat.pow 2 q.toNat
  let den := 4 * Nat.pow 2 (-q).toNat
  let low := if m = Nat.pow 2 52 && -1074 < q then 4 * m - 1 else 4 * m - 2
  let candidates := (List.range 17).filterMap fun i =>
    decimalOf? (4 * m * scale) (low * scale) ((4 * m + 2) * scale) den (m % 2 == 0) (i + 1)
  candidates.head?.getD (m, 0)

/-- Digits without the zeros at their end, and how many those were. -/
def trimZeros (ds : List Char) : List Char × Nat :=
  let kept := (ds.reverse.dropWhile (· == '0')).reverse
  (kept, ds.length - kept.length)

/-- The digits with a point after the first `whole` of them, filled up with zeros. -/
def pointed (ds : List Char) (whole : Int) : String :=
  let front :=
    if whole ≤ 0 then ['0'] else ds.take whole.toNat ++ List.replicate (whole.toNat - ds.length) '0'
  let back := List.replicate (-whole).toNat '0' ++ ds.drop whole.toNat
  String.ofList (front ++ ['.'] ++ if back.isEmpty then ['0'] else back)

/-- The digits with a point after the first and a power of ten. -/
def scientific (ds : List Char) (exponent : Int) : String :=
  match ds with
  | [] => "0e0"
  | [d] => String.ofList [d] ++ "e" ++ toString exponent
  | d :: rest => String.ofList (d :: '.' :: rest) ++ "e" ++ toString exponent

/-- The text of a number. -/
def text (x : Binary64) : String :=
  let sign := if x.isNegative then "-" else ""
  if x.isNaN then "NaN"
  else if !x.isFinite then sign ++ "inf"
  else if x.magnitude = 0 then sign ++ "0.0"
  else
    let (digits, exponent) := x.shortest
    let (ds, _) := trimZeros (Nat.toDigits 10 digits)
    let whole : Int := digitCount digits + exponent
    sign ++ if -3 ≤ whole && whole ≤ 16 then pointed ds whole else scientific ds (whole - 1)

end Binary64

end Backtrack
