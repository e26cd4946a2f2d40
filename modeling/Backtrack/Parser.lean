import Backtrack.Config
import Backtrack.Outcome
import Backtrack.Pattern
import Backtrack.Regex
import Backtrack.Sink

/-!
# Parsers

A parser over symbols `σ` reads a source at a position and produces a value. Parsers are values of
an inductive type: leaves that look at the source, combinators, references to the rules of a
grammar, blocks of steps that keep track of the position, and functions on the parse context.

A grammar gives every rule `i : ι` a parser with values in `τ i`. How parsers run is defined in
`Backtrack.Parser.Run`.
-/

namespace Backtrack

/-- Bounds on the number of repetitions. Fewer than `min` is a failure; repetition stops at
`max`. -/
structure Bounds where
  min : Nat := 0
  max : Option Nat := none
  deriving DecidableEq, Repr

/-- The signal of a step in a block that failed: where its parser was run, and whether a recovery
keeps the position reached. -/
structure Abort where
  position : Nat
  allowPartial : Bool := false
  deriving DecidableEq, Repr

mutual

/-- A parser with values in `α`. -/
inductive Parser (σ : Type) {ι : Type} (τ : ι → Type) : Type → Type 1 where
  /-- Succeeds without reading anything. -/
  | pure {α : Type} (a : α) : Parser σ τ α
  /-- Always fails, with a description of what was expected or without. -/
  | fail {α : Type} (expected : Option String) : Parser σ τ α
  /-- Any one symbol. -/
  | any : Parser σ τ σ
  /-- The end of the input. -/
  | eoi : Parser σ τ Unit
  /-- A certain symbol. -/
  | el (x : σ) : Parser σ τ σ
  /-- A symbol of a set. -/
  | oneOf (set : Pattern σ) : Parser σ τ σ
  /-- A symbol that is not in a set. -/
  | noneOf (set : Pattern σ) : Parser σ τ σ
  /-- A symbol that satisfies a predicate. -/
  | satisfy (pred : σ → Bool) : Parser σ τ σ
  /-- The symbols of a pattern in order. -/
  | literal (pattern : Pattern σ) : Parser σ τ (Pattern σ)
  /-- A character of a text that satisfies a predicate. -/
  | charWith (pred : Char → Bool) : Parser σ τ Char
  /-- A match of a regular expression in the rest of a text, with the text of one group. -/
  | regexGroup (re : Regex) (group : Nat) : Parser σ τ (Option String)
  /-- A match of a regular expression in the rest of a text, with all groups. -/
  | regexGroups (re : Regex) : Parser σ τ Groups
  /-- The text that a parser covers. What the parser expects is kept from the sink: its failure is
  a plain mismatch. -/
  | covered {α : Type} (p : Parser σ τ α) : Parser σ τ String
  /-- Changes the value. -/
  | map {α β : Type} (p : Parser σ τ α) (f : α → β) : Parser σ τ β
  /-- Goes on with a parser that depends on the value. -/
  | flatMap {α β : Type} (p : Parser σ τ α) (next : α → Parser σ τ β) : Parser σ τ β
  /-- Two parsers in order, with their values combined. -/
  | andMap {α β γ : Type} (p : Parser σ τ α) (q : Parser σ τ β) (f : α → β → γ) : Parser σ τ γ
  /-- A parser between two others, whose values are dropped. -/
  | between {α β γ : Type} (p : Parser σ τ α) (pre : Parser σ τ β) (post : Parser σ τ γ) :
      Parser σ τ α
  /-- The first parser or, where it fails, the second. -/
  | either {α : Type} (p q : Parser σ τ α) : Parser σ τ α
  /-- The first of a list of parsers that succeeds. -/
  | choice {α : Type} (ps : Parsers σ τ α) : Parser σ τ α
  /-- A parser or, where it fails, a value. -/
  | option {α : Type} (p : Parser σ τ α) (default : α) : Parser σ τ α
  /-- A parser or, where it fails, nothing. -/
  | opt {α : Type} (p : Parser σ τ α) : Parser σ τ (Option α)
  /-- A list of parsers in order or, with `allowPartial`, as many of them as succeed. -/
  | seq {α : Type} (ps : Parsers σ τ α) (allowPartial : Bool) : Parser σ τ (List α)
  /-- A parser again and again, as long as it advances. -/
  | many {α : Type} (p : Parser σ τ α) (bounds : Bounds) : Parser σ τ (List α)
  /-- A parser again and again, with the values folded. -/
  | manyAccum {α β : Type} (p : Parser σ τ α) (init : β) (f : β → α → β) (bounds : Bounds) :
      Parser σ τ β
  /-- A parser again and again, with a separator between. -/
  | sepBy {α β : Type} (p : Parser σ τ α) (sep : Parser σ τ β) (bounds : Bounds) :
      Parser σ τ (List α)
  /-- A parser, of which only the value is kept. -/
  | lookAhead {α : Type} (p : Parser σ τ α) : Parser σ τ α
  /-- Succeeds without reading anything where a parser fails. -/
  | notFollowedBy {α : Type} (p : Parser σ τ α) : Parser σ τ Unit
  /-- A parser with a name for reports. -/
  | label {α : Type} (p : Parser σ τ α) (name : String) : Parser σ τ α
  /-- The span that a parser covers. -/
  | recognize {α : Type} (p : Parser σ τ α) : Parser σ τ Span
  /-- A parser that is built when it runs for the first time. The number tells it from others. -/
  | lazy {α : Type} (id : Nat) (p : Parser σ τ α) : Parser σ τ α
  /-- A rule of the grammar. -/
  | rule (i : ι) : Parser σ τ (τ i)
  /-- A block of steps that starts with given variables. -/
  | block {ν α : Type} (init : ν) (body : Block σ τ ν α) : Parser σ τ α
  /-- A function of the position on the parse context. -/
  | function {α : Type} (body : Nat → Routine σ τ (Outcome α)) : Parser σ τ α

/-- A list of parsers with values in `α`. -/
inductive Parsers (σ : Type) {ι : Type} (τ : ι → Type) : Type → Type 1 where
  | nil {α : Type} : Parsers σ τ α
  | cons {α : Type} (p : Parser σ τ α) (ps : Parsers σ τ α) : Parsers σ τ α

/-- Steps at a position that moves along with them, on variables `ν`. A step that fails leaves the
block, or the innermost attempt or pass around it. -/
inductive Block (σ : Type) {ι : Type} (τ : ι → Type) : Type → Type → Type 1 where
  | ret {ν α : Type} (a : α) : Block σ τ ν α
  | abort {ν α : Type} (e : Abort) : Block σ τ ν α
  /-- Runs a parser at the position, which moves if the parser succeeds. -/
  | perform {ν α β : Type} (p : Parser σ τ β) (allowPartial : Bool)
      (next : Except Abort β → Block σ τ ν α) : Block σ τ ν α
  /-- Runs a parser as often as it advances. -/
  | many {ν α β : Type} (p : Parser σ τ β) (next : List β → Block σ τ ν α) : Block σ τ ν α
  /-- Recovers from a failure of the inner steps, at the position where they started unless the
  failure allows a partial result. -/
  | attempt {ν α β : Type} (body : Block σ τ ν β) (next : Option β → Block σ τ ν α) :
      Block σ τ ν α
  /-- Passes through the inner steps as long as they advance. -/
  | loop {ν α : Type} (body : Block σ τ ν Unit) (next : Block σ τ ν α) : Block σ τ ν α
  | position {ν α : Type} (next : Nat → Block σ τ ν α) : Block σ τ ν α
  | ask {ν α : Type} (next : Source σ → Config → Block σ τ ν α) : Block σ τ ν α
  | inspect {ν α : Type} (next : Sink → Block σ τ ν α) : Block σ τ ν α
  /-- Registers a failure, with or without a record of what was expected there. -/
  | register {ν α : Type} (index : Nat) (record : Option Expectation)
      (inPlace : ∀ e, record = some e → e.index = index) (next : Block σ τ ν α) : Block σ τ ν α
  | get {ν α : Type} (next : ν → Block σ τ ν α) : Block σ τ ν α
  | set {ν α : Type} (v : ν) (next : Block σ τ ν α) : Block σ τ ν α

/-- What a function does with the parse context. A function may also put another context in place of
the one that it is given; such functions are left out here. What they leave of what was registered
is in `Backtrack.Proofs.History`. -/
inductive Routine (σ : Type) {ι : Type} (τ : ι → Type) : Type → Type 1 where
  | ret {α : Type} (a : α) : Routine σ τ α
  | ask {α : Type} (next : Source σ → Config → Routine σ τ α) : Routine σ τ α
  | inspect {α : Type} (next : Sink → Routine σ τ α) : Routine σ τ α
  /-- Registers a failure, with or without a record of what was expected there. -/
  | register {α : Type} (index : Nat) (record : Option Expectation)
      (inPlace : ∀ e, record = some e → e.index = index) (next : Routine σ τ α) : Routine σ τ α
  /-- Runs a parser at a position. -/
  | call {α β : Type} (p : Parser σ τ β) (pos : Nat) (next : Outcome β → Routine σ τ α) :
      Routine σ τ α

end

variable {σ ι : Type} {τ : ι → Type} {α β γ ν : Type}

/-! ## Lists of parsers -/

namespace Parsers

/-- The parsers of a list. -/
def ofList : List (Parser σ τ α) → Parsers σ τ α
  | [] => nil
  | p :: ps => cons p (ofList ps)

/-- The list of the parsers. -/
def toList : Parsers σ τ α → List (Parser σ τ α)
  | nil => []
  | cons p ps => p :: ps.toList

@[simp] theorem toList_ofList (ps : List (Parser σ τ α)) : (ofList ps).toList = ps := by
  induction ps with
  | nil => rfl
  | cons p ps ih => simp [ofList, toList, ih]

end Parsers

/-! ## Derived parsers -/

namespace Parser

/-- Replaces the value. -/
def withValue (p : Parser σ τ α) (b : β) : Parser σ τ β := p.map fun _ => b

/-- Two parsers in order, with both values. -/
def pair (p : Parser σ τ α) (q : Parser σ τ β) : Parser σ τ (α × β) := andMap p q Prod.mk

/-- Two parsers in order, with the value of the second. -/
def andThen (p : Parser σ τ α) (q : Parser σ τ β) : Parser σ τ β := andMap p q fun _ b => b

/-- Two parsers in order, with the value of the first. -/
def skip (p : Parser σ τ α) (q : Parser σ τ β) : Parser σ τ α := andMap p q fun a _ => a

/-- A parser between two runs of another. -/
def surroundedBy (p : Parser σ τ α) (delim : Parser σ τ β) : Parser σ τ α :=
  between p delim delim

/-- Any one character of a text. -/
def char : Parser σ τ Char := charWith fun _ => true

/-- The text that a regular expression matches. -/
def regex (re : Regex) : Parser σ τ String := (regexGroup re 0).map (·.getD "")

/-- A list of alternatives. -/
def choiceOf (ps : List (Parser σ τ α)) : Parser σ τ α := choice (.ofList ps)

/-- A list of parsers in order. -/
def sequence (ps : List (Parser σ τ α)) : Parser σ τ (List α) := seq (.ofList ps) false

/-- The first half of a list of two or more is shorter than the list, and so is the rest. -/
private theorem halves_lt {n : Nat} (h : 2 ≤ n) : n / 2 < n ∧ n - n / 2 < n := by omega

/-- A balanced tree of alternatives over a list of parsers, tried in the order of the list. -/
def alternatives (ps : List (Parser σ τ α)) : Parser σ τ α :=
  match ps with
  | [] => fail none
  | [p] => p
  | p :: q :: rest =>
    let n := (p :: q :: rest).length
    either (alternatives ((p :: q :: rest).take (n / 2)))
      (alternatives ((p :: q :: rest).drop (n / 2)))
termination_by ps.length
decreasing_by
  · have := halves_lt (n := (p :: q :: rest).length) (by simp)
    simp only [List.length_take, List.length_cons] at *
    omega
  · have := halves_lt (n := (p :: q :: rest).length) (by simp)
    simp only [List.length_drop, List.length_cons] at *
    omega

/-- A balanced tree of sequencing over a list of parsers, run in the order of the list. -/
def tuple (ps : List (Parser σ τ α)) : Parser σ τ (List α) :=
  match ps with
  | [] => pure []
  | [p] => p.map fun a => [a]
  | p :: q :: rest =>
    let n := (p :: q :: rest).length
    andMap (tuple ((p :: q :: rest).take (n / 2))) (tuple ((p :: q :: rest).drop (n / 2)))
      (· ++ ·)
termination_by ps.length
decreasing_by
  · have := halves_lt (n := (p :: q :: rest).length) (by simp)
    simp only [List.length_take, List.length_cons] at *
    omega
  · have := halves_lt (n := (p :: q :: rest).length) (by simp)
    simp only [List.length_drop, List.length_cons] at *
    omega

end Parser

end Backtrack
