import Backtrack.Text.Quoted

/-!
# Expectations

What a parser expected at some position, as it is recorded for the report of a failed parse.
-/

namespace Backtrack

/-- What was expected at a position. -/
inductive Expectation where
  /-- A mismatch with no further explanation. -/
  | unknown (index : Nat)
  /-- A certain symbol or pattern was expected. -/
  | expected (index : Nat) (value : String)
  /-- A named parser failed. In a report it stands for the `length` records before it. A length has
  64 bits; lengths of any size are allowed here. -/
  | label (index : Nat) (length : Nat) (name : String)
  deriving DecidableEq, Repr

namespace Expectation

/-- The position the record applies to. -/
def index : Expectation → Nat
  | unknown i => i
  | expected i _ => i
  | label i _ _ => i

/-- How much of a later label's length the record uses up. A label stands for its own length, of
which it takes one place itself. The weights of records may add up to more than fits into 64 bits
(`Sink.finishIn`). -/
def weight : Expectation → Nat
  | label _ length _ => length - 1
  | _ => 1

/-- A label, as against a record of what was expected. -/
def isLabel : Expectation → Bool
  | label .. => true
  | _ => false

/-- A mismatch with no further explanation. -/
def isUnknown : Expectation → Bool
  | unknown _ => true
  | _ => false

/-- The record as a report shows it. -/
def text : Expectation → String
  | unknown _ => "<unknown>"
  | expected _ value => value
  | label _ _ name => name

/-- The record spelled out for a diagnostic. -/
def inspect : Expectation → String
  | unknown i => "Unknown \x7b index: " ++ toString i ++ " \x7d"
  | expected i value =>
    "Expected \x7b index: " ++ toString i ++ ", value: " ++ Text.quoteString value ++ " \x7d"
  | label i length name =>
    "Label \x7b index: " ++ toString i ++ ", length: " ++ toString length ++ ", name: " ++
      Text.quoteString name ++ " \x7d"

end Expectation

end Backtrack
