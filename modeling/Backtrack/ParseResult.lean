import Backtrack.Parser.Run

/-!
# Parsing a source

A parse runs a parser at position zero with an empty sink. It does not need to consume the whole
source. A failed parse is reported at the farthest position that any parser reached, with what was
expected there.
-/

namespace Backtrack

variable {σ ι : Type} {τ : ι → Type} {α β : Type}

/-- A failed parse, as an error. -/
structure ParseError where
  index : Nat
  expectations : List Expectation
  deriving DecidableEq, Repr

namespace ParseError

/-- Names joined by commas, and the last one by "or". -/
def joinNames : List String → String
  | [] => ""
  | [a] => a
  | [a, b] => a ++ " or " ++ b
  | a :: rest => a ++ ", " ++ joinNames rest

/-- What was expected. Mismatches without an explanation are left out. -/
def summary (expectations : List Expectation) : String :=
  match (expectations.filter fun e => !e.isUnknown).map Expectation.text with
  | [] => "unexpected input"
  | names => "expected " ++ joinNames names

/-- The error as a message. -/
def message (e : ParseError) : String :=
  summary e.expectations ++ " at index " ++ toString e.index

end ParseError

/-- The outcome of parsing a source. -/
inductive ParseResult (α : Type) where
  | success (index : Nat) (value : α)
  | failure (index : Nat) (expectations : List Expectation)
  deriving BEq, DecidableEq, Repr

namespace ParseResult

/-- A success. -/
def isSuccess : ParseResult α → Bool
  | success .. => true
  | failure .. => false

/-- The position reached, or the farthest position of a failure. -/
def index : ParseResult α → Nat
  | success i _ => i
  | failure i _ => i

/-- The value of a success. -/
def value? : ParseResult α → Option α
  | success _ a => some a
  | failure .. => none

/-- What was expected. Empty for a success. -/
def expectations : ParseResult α → List Expectation
  | success .. => []
  | failure _ es => es

/-- Changes the value of a success. -/
def map (f : α → β) : ParseResult α → ParseResult β
  | success i a => success i (f a)
  | failure i es => failure i es

/-- The value, or the failure as an error. -/
def toExcept : ParseResult α → Except ParseError α
  | success _ a => .ok a
  | failure i es => .error ⟨i, es⟩

/-- The result of a run that left the given sink. -/
def ofOutcome (sink : Sink) : Outcome α → ParseResult α
  | .ok p a => success p a
  | .fail p => failure (sink.farthest.getD p) sink.finish

end ParseResult

/-- Parses a source from its start. The lazy parsers of `built` have been built before; those
built by now are returned with the result. -/
def Parser.parseFrom? [BEq σ] [Describe σ] (fuel : Nat) (env : Env σ τ) (p : Parser σ τ α)
    (built : List Nat) : Option (ParseResult α × List Nat) :=
  (p.run env fuel 0 { built := built }).map fun (r, s) => (.ofOutcome s.sink r, s.built)

/-- Parses a source from its start. -/
def Parser.parse? [BEq σ] [Describe σ] (fuel : Nat) (env : Env σ τ) (p : Parser σ τ α) :
    Option (ParseResult α) :=
  (p.parseFrom? fuel env []).map (·.1)

end Backtrack
