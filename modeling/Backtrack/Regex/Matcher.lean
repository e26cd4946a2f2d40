import Backtrack.Regex.CharSet

/-!
# Matching regular expressions

A regular expression is matched at the start of a text, leftmost branch first: of all matches it
finds the one that prefers, at every choice, the branch that stands first. A match carries the
captures of the groups it passed, the latest capture of a group counting.

A loop only goes round again after a pass that consumed something. Inside a loop whose body can
match nothing, every branching point carries a mark, and is passed at most once without consuming
anything in between; a second way to the same point could only lead where the first one led.
-/

namespace Backtrack.Regex

/-- A condition on the position in a text. -/
inductive Assertion where
  | startOfText | endOfText | startOfLine | endOfLine | wordBoundary | notWordBoundary
  deriving DecidableEq, Repr

/-- A regular expression. -/
inductive Node where
  | empty
  | set (s : CharSet)
  | assertion (a : Assertion)
  | seq (a b : Node)
  /-- The first expression, or the second. -/
  | alt (mark : Option Nat) (a b : Node)
  /-- Any number of passes through the body, as many as possible or as few. -/
  | loop (mark : Option Nat) (greedy : Bool) (body : Node)
  | group (index : Nat) (body : Node)
  deriving DecidableEq, Repr

namespace Node

/-- At most one pass through an expression, preferably one. -/
def optional (a : Node) : Node := alt none (seq a empty) empty

/-- Any number of an expression that does not match nothing, as many as possible. -/
def star (a : Node) : Node := loop none true a

/-- One or more of an expression that does not match nothing, as many as possible. -/
def plus (a : Node) : Node := seq a (star a)

/-- Expressions one after another. -/
def concat : List Node → Node
  | [] => empty
  | [a] => a
  | a :: as => seq a (concat as)

end Node

/-- A position in a text, with what the way to it has captured. Offsets count bytes from the start
of the text. -/
structure Cursor where
  previous : Option Char := none
  rest : List Char
  offset : Nat := 0
  /-- Captures by group, the latest first. -/
  captures : List (Nat × Nat × Nat) := []
  /-- The marks of the branching points passed since the last character. -/
  passed : List Nat := []
  deriving DecidableEq, Repr

namespace Cursor

/-- Moves over one character of a set. -/
def step? (s : CharSet) (c : Cursor) : Option Cursor :=
  match c.rest with
  | x :: rest =>
    if s.contains x then
      some { c with
        previous := some x, rest := rest, offset := c.offset + x.utf8Size, passed := [] }
    else none
  | [] => none

/-- Passes a branching point, unless it was passed already. -/
def pass? (mark : Option Nat) (c : Cursor) : Option Cursor :=
  match mark with
  | none => some c
  | some m => if c.passed.contains m then none else some { c with passed := m :: c.passed }

/-- Records that a group matched from `start` up to here. -/
def capture (index start : Nat) (c : Cursor) : Cursor :=
  { c with captures := (index, start, c.offset) :: c.captures }

/-- Whether a neighbouring character belongs to a word. -/
def isWord (c : Option Char) : Bool := c.any CharSet.word.contains

/-- Whether a condition holds at the position. -/
def satisfies (c : Cursor) : Assertion → Bool
  | .startOfText => c.previous.isNone
  | .endOfText => c.rest.isEmpty
  | .startOfLine => c.previous.isNone || c.previous == some '\n'
  | .endOfLine => c.rest.isEmpty || c.rest.head? == some '\n'
  | .wordBoundary => isWord c.previous != isWord c.rest.head?
  | .notWordBoundary => isWord c.previous == isWord c.rest.head?

end Cursor

namespace Node

/-- Repeats a matching step. The number counts the passes that are left, of which the rest of the
text allows one for each character. -/
def loopWith (step : Cursor → (Cursor → Option Cursor) → Option Cursor) (mark : Option Nat)
    (greedy : Bool) : Nat → Cursor → (Cursor → Option Cursor) → Option Cursor
  | 0, c, k => (c.pass? mark).bind k
  | n + 1, c, k =>
    match c.pass? mark with
    | none => none
    | some c =>
      let again (_ : Unit) :=
        step c fun d => if c.offset < d.offset then loopWith step mark greedy n d k else none
      if greedy then (again ()).or (k c) else (k c).or (again ())

/-- Matches the expression at a position and goes on with `k`, taking the first way for which `k`
has a result. -/
def run : Node → Cursor → (Cursor → Option Cursor) → Option Cursor
  | empty, c, k => k c
  | set s, c, k => (c.step? s).bind k
  | assertion a, c, k => if c.satisfies a then k c else none
  | seq a b, c, k => a.run c fun d => b.run d k
  | alt mark a b, c, k => (c.pass? mark).bind fun c => (a.run c k).or (b.run c k)
  | loop mark greedy body, c, k =>
    loopWith (fun d l => body.run d l) mark greedy c.rest.length c k
  | group index body, c, k => body.run c fun d => k (d.capture index c.offset)

end Node

end Backtrack.Regex
