import Backtrack.Recipe.Function
import Backtrack.Unicode.Property

/-!
# Recipes

A recipe describes a parser by data. Where a parser holds a function, a recipe names one; where a
parser refers to a rule, a recipe holds the name of the rule. How a recipe becomes a parser is
defined in `Backtrack.Recipe.Build`.
-/

namespace Backtrack

namespace Recipe

/-- An entry for the sink. -/
abbrev Note := Entry

/-- The entry that reports an expectation. -/
def Note.ofExpectation (e : Expectation) : Note := ⟨e.index, some e⟩

end Recipe

open Recipe (Value Pred Fn Fn2 Fold Note)

mutual

/-- The description of a parser over symbols `σ`. -/
inductive Recipe (σ : Type) where
  | any
  | eoi
  | el (x : σ)
  | literal (pattern : Pattern σ)
  | oneOf (set : Pattern σ)
  | noneOf (set : Pattern σ)
  | satisfy (pred : Pred)
  | value (v : Value)
  | fail (expected : Option String)
  | char
  | grapheme
  | charWith (property : Unicode.Property)
  | regex (pattern : String)
  | regexCapture (pattern : String) (group : GroupRef)
  /-- All groups of a match. The names are asked for in the value. -/
  | regexGroups (pattern : String) (names : List String)
  /-- Moves on without looking at the source. -/
  | advance (n : Nat)
  /-- Moves to a position, which may lie behind. -/
  | goto (n : Nat)
  | position
  /-- Fails at a position without a report. -/
  | failAt (n : Nat)
  /-- Fills the sink before a parser runs. -/
  | report (notes : List Note) (p : Recipe σ)
  /-- Succeeds with the number of records that a parser has added, the position of its outcome,
  and its value. -/
  | counted (p : Recipe σ)
  | setting (key : String)
  /-- The first parser if a setting is true, else the second. -/
  | ifSet (key : String) (p q : Recipe σ)
  | map (p : Recipe σ) (f : Fn)
  | withValue (p : Recipe σ) (v : Value)
  /-- Goes on with the parser of the first arm for the value. -/
  | select (p : Recipe σ) (arms : List (Value × Recipe σ)) (other : Recipe σ)
  /-- Goes on with as many runs of the second parser as the value of the first says. -/
  | times (p q : Recipe σ)
  | andMap (p q : Recipe σ) (f : Fn2)
  | andThen (p q : Recipe σ)
  | skip (p q : Recipe σ)
  | between (p pre post : Recipe σ)
  | surroundedBy (p delim : Recipe σ)
  | either (p q : Recipe σ)
  | choice (ps : List (Recipe σ))
  /-- The alternatives of a list as a tree. -/
  | alternatives (ps : List (Recipe σ))
  | seq (ps : List (Recipe σ)) (allowPartial : Bool)
  /-- The parsers of a list in order, as a tree. -/
  | tuple (ps : List (Recipe σ))
  | option (p : Recipe σ) (default : Value)
  | opt (p : Recipe σ)
  | many (p : Recipe σ) (bounds : Bounds)
  | manyAccum (p : Recipe σ) (fold : Fold) (bounds : Bounds)
  | sepBy (p sep : Recipe σ) (bounds : Bounds)
  | lookAhead (p : Recipe σ)
  | notFollowedBy (p : Recipe σ)
  | label (p : Recipe σ) (name : String)
  | recognize (p : Recipe σ)
  | lazy (p : Recipe σ)
  /-- A parser once, and perhaps a second time. -/
  | again (p : Recipe σ)
  | block (body : List (Statement σ))
  /-- A rule through its handle. -/
  | ref (name : String)
  /-- A rule of which the parser becomes an owner. -/
  | rule (name : String)

/-- A step of a block. A variable that was never set holds the unit value. -/
inductive Statement (σ : Type) where
  | perform (x : String) (p : Recipe σ) (allowPartial : Bool)
  | option (x : String) (p : Recipe σ)
  | optionOr (x : String) (p : Recipe σ) (default : Value)
  | many (x : String) (p : Recipe σ)
  | attempt (x : String) (body : List (Statement σ))
  | attemptOr (x : String) (default : Value) (body : List (Statement σ))
  | passes (body : List (Statement σ))
  | branch (x : String) (yes no : List (Statement σ))
  /-- Stores what came of a parser. A failure is remembered and does not leave the block. -/
  | probe (x : String) (p : Recipe σ) (allowPartial : Bool)
  /-- Leaves the block with the failure that is remembered, if there is one. -/
  | raise (x : String)
  | position (x : String)
  | length (x : String)
  /-- The number of records in the sink. -/
  | records (x : String)
  | setting (x key : String)
  | assign (x : String) (v : Value)
  | push (xs x : String)
  | increment (x : String)
  /-- Ends the block with the value of a variable. -/
  | ret (x : String)
  | report (expected : Option String)
  /-- Registers a failure ahead of the position. -/
  | addError (distance : Nat)

end

namespace Recipe

variable {σ : Type}

/-- Two parsers in order, with both values. -/
def pair (p q : Recipe σ) : Recipe σ := andMap p q .tuple

end Recipe

end Backtrack
