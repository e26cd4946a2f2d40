/-!
# Outcomes

What a parser returns: the position reached and a value, or the position at which it failed. What
was expected is no part of the outcome; it has been registered in the sink by then.
-/

namespace Backtrack

/-- The outcome of running a parser at some position. -/
inductive Outcome (α : Type) where
  | ok (position : Nat) (value : α)
  | fail (position : Nat)
  deriving DecidableEq, Repr

namespace Outcome

variable {α β : Type}

/-- The position reached, or that of the failure. -/
def position : Outcome α → Nat
  | ok p _ => p
  | fail p => p

/-- The value of a success. -/
def value? : Outcome α → Option α
  | ok _ a => some a
  | fail _ => none

/-- A success. -/
def isOk : Outcome α → Bool
  | ok .. => true
  | fail _ => false

/-- Changes the value of a success. -/
def map (f : α → β) : Outcome α → Outcome β
  | ok p a => ok p (f a)
  | fail p => fail p

/-- Replaces the value of a success. -/
def withValue (b : β) : Outcome α → Outcome β := map fun _ => b

end Outcome

end Backtrack
