import Backtrack.Expectation

/-!
# The sink of expectations

During a parse every failure is registered in a sink, also the failures of alternatives that are
abandoned later. The sink keeps the records of the farthest position only: a failure beyond it
discards what was collected, a failure before it is ignored.

`Sink.finish` turns the records into the list of a report. A label replaces the shortest run of
records before it whose weights add up to its length. It adds up weights of any size.
`Sink.finishIn` is the same loop with sums of 64 bits.
-/

namespace Backtrack

/-- The expectations at the farthest position where a failure was registered. -/
inductive Sink where
  /-- No failure was registered. -/
  | empty
  /-- Failures reached `farthest`, where `records` were reported, in that order. -/
  | reached (farthest : Nat) (records : List Expectation)
  deriving DecidableEq, Repr

/-- A failure at a position, with or without a record of what was expected there. -/
structure Entry where
  index : Nat
  record : Option Expectation := none
  deriving DecidableEq, Repr

/-- What a sink held at some moment, as far as counting new records needs it. -/
structure Checkpoint where
  farthest : Option Nat
  count : Nat
  deriving DecidableEq, Repr

/-- What becomes of a sum that does not fit into 64 bits. -/
inductive Overflow where
  /-- It is taken modulo `2 ^ 64`. -/
  | wraps
  /-- It stops the program. -/
  | stops
  deriving DecidableEq, Repr

/-- The sum of two lengths of 64 bits. -/
def Overflow.add : Overflow → Nat → Nat → Option Nat
  | wraps, m, n => some ((m + n) % UInt64.size)
  | stops, m, n => if m + n < UInt64.size then some (m + n) else none

/-- A sum that fits is the sum. -/
@[simp] theorem Overflow.add_of_lt {mode : Overflow} {m n : Nat} (h : m + n < UInt64.size) :
    mode.add m n = some (m + n) := by
  cases mode with
  | wraps => rw [add, Nat.mod_eq_of_lt h]
  | stops => exact if_pos h

namespace Sink

instance : Inhabited Sink := ⟨empty⟩

/-- The farthest position at which a failure was registered. -/
def farthest : Sink → Option Nat
  | empty => none
  | reached f _ => some f

/-- The records at the farthest position, in reporting order. -/
def records : Sink → List Expectation
  | empty => []
  | reached _ rs => rs

/-- Registers a failure at `index`, with or without a record of what was expected there. A failure
without a record still moves the farthest position. -/
def add (index : Nat) (record : Option Expectation) : Sink → Sink
  | empty => reached index record.toList
  | reached f rs =>
    if f < index then reached index record.toList
    else if f = index then reached f (rs ++ record.toList)
    else reached f rs

/-- Registers a failure that is explained by `e`, at the position of `e`. -/
def report (e : Expectation) (s : Sink) : Sink := s.add e.index (some e)

/-- Remembers how far the sink has come. -/
def checkpoint (s : Sink) : Checkpoint := ⟨s.farthest, s.records.length⟩

/-- The number of records that are newer than `c`. If the farthest position has moved since, every
record is. -/
def countSince (s : Sink) (c : Checkpoint) : Nat :=
  if c.farthest = s.farthest then s.records.length - c.count else s.records.length

/-- The sink of one run after another: the side that came farther, or both lists of records where
the two came equally far. -/
def merge : Sink → Sink → Sink
  | empty, t => t
  | s, empty => s
  | reached f rs, reached g ts =>
    if f < g then reached g ts else if g < f then reached f rs else reached f (rs ++ ts)

/-- Removes records from the front until their weights add up to the given one. The sums are those
of numbers of any size: see `passedIn` for sums of 64 bits. -/
def dropWeight : Nat → List Expectation → List Expectation
  | _, [] => []
  | 0, out => out
  | n + 1, r :: out => dropWeight (n + 1 - r.weight) out

/-- Adds a record to a report whose latest entry stands first. -/
def collapse (out : List Expectation) (r : Expectation) : List Expectation :=
  match r with
  | .label _ length _ => r :: dropWeight length out
  | _ => r :: out

/-- The report on a list of records. -/
def collapseAll (rs : List Expectation) : List Expectation := (rs.foldl collapse []).reverse

/-- The report on the records of the sink. -/
def finish (s : Sink) : List Expectation := collapseAll s.records

/-! ## Reports in 64 bits -/

/-- How many records a label of length `n` takes off a report whose latest entry stands first. It
has passed `count` records already, which weigh `weight`. There is no result if a sum stops the
program. -/
def passedIn (mode : Overflow) (n : Nat) : Nat → Nat → List Expectation → Option Nat
  | _, count, [] => some count
  | weight, count, r :: out =>
    if n ≤ weight then some count
    else (mode.add weight r.weight).bind fun weight => passedIn mode n weight (count + 1) out

/-- Adds a record to a report whose latest entry stands first, with sums of 64 bits. -/
def collapseIn (mode : Overflow) (out : List Expectation) (r : Expectation) :
    Option (List Expectation) :=
  match r with
  | .label _ length _ => (passedIn mode length 0 0 out).map fun count => r :: out.drop count
  | _ => some (r :: out)

/-- The report on the records of the sink, with sums of 64 bits. -/
def finishIn (mode : Overflow) (s : Sink) : Option (List Expectation) :=
  (s.records.foldlM (collapseIn mode) []).map List.reverse

/-- The sink spelled out for a diagnostic. -/
def inspect (s : Sink) : String :=
  "ErrorSink \x7b farthest: " ++
    (match s.farthest with
      | some f => "Some(" ++ toString f ++ ")"
      | none => "None") ++
    ", records: " ++ Text.bracketed (s.records.map Expectation.inspect) ++ " \x7d"

end Sink

end Backtrack
