import Backtrack.Regex.Matcher

/-!
# Expressions as written

The structure of a pattern, with counted repetition, and its expansion into the nodes that are
matched. A repetition without an upper bound whose body can match nothing is expanded so that the
first pass is apart from the loop, which keeps the order of preference; the branching points in
its body are marked.
-/

namespace Backtrack.Regex

/-- A pattern with its repetitions as written. -/
inductive Expr where
  | empty
  | set (s : CharSet)
  | assertion (a : Assertion)
  | seq (a b : Expr)
  | alt (a b : Expr)
  | repeated (min : Nat) (max : Option Nat) (greedy : Bool) (body : Expr)
  | group (index : Nat) (body : Expr)
  deriving DecidableEq, Repr

namespace Expr

/-- Some match is empty. -/
def nullable : Expr → Bool
  | empty => true
  | set _ => false
  | assertion _ => true
  | seq a b => a.nullable && b.nullable
  | alt a b => a.nullable || b.nullable
  | repeated min _ _ body => min == 0 || body.nullable
  | group _ body => body.nullable

/-- Every match is empty. -/
def onlyEmpty : Expr → Bool
  | empty => true
  | set _ => false
  | assertion _ => true
  | seq a b => a.onlyEmpty && b.onlyEmpty
  | alt a b => a.onlyEmpty && b.onlyEmpty
  | repeated _ max _ body => max == some 0 || body.onlyEmpty
  | group _ body => body.onlyEmpty

/-- The indices of the capturing groups. -/
def groups : Expr → List Nat
  | empty | set _ | assertion _ => []
  | seq a b | alt a b => a.groups ++ b.groups
  | repeated _ _ _ body => body.groups
  | group i body => i :: body.groups

/-- A repetition in its simplest form. What only matches nothing need not be repeated, no pass is
the empty expression, and one pass is the body itself. -/
def repeat? (min : Nat) (max : Option Nat) (greedy : Bool) (body : Expr) : Expr :=
  let (min, max) :=
    if body.onlyEmpty then (min.min 1, some ((max.getD 1).min 1)) else (min, max)
  if min = 0 && max = some 0 then empty
  else if min = 1 && max = some 1 then body
  else repeated min max greedy body

/-- Expressions one after another. -/
def concat : List Expr → Expr
  | [] => empty
  | [e] => e
  | e :: es => seq e (concat es)

/-- One of several expressions, the first that leads to a match. -/
def choice : List Expr → Expr
  | [] => empty
  | [e] => e
  | e :: es => alt e (choice es)

end Expr

/-- A fresh mark, if one is needed. -/
def freshMark (marked : Bool) : StateM Nat (Option Nat) := fun n =>
  if marked then (some n, n + 1) else (none, n)

/-- Two ways, of which a greedy choice takes the first and a reluctant one the second. -/
def Node.either (mark : Option Nat) (greedy : Bool) (a b : Node) : Node :=
  if greedy then .alt mark a b else .alt mark b a

/-- A number of copies of an expression, and then `last`. -/
def copies (one : StateM Nat Node) (last : StateM Nat Node) : Nat → StateM Nat Node
  | 0 => last
  | n + 1 => do return .seq (← one) (← copies one last n)

/-- Up to a number of copies of an expression, each of them only after the one before. -/
def optionalCopies (mark : StateM Nat (Option Nat)) (greedy : Bool) (one : StateM Nat Node) :
    Nat → StateM Nat Node
  | 0 => pure .empty
  | n + 1 => do
    let m ← mark
    let first ← one
    return .either m greedy (.seq first (← optionalCopies mark greedy one n)) .empty

/-- The nodes of an expression. Branching points are marked inside a loop whose body can match
nothing. -/
def Expr.expand (marked : Bool) : Expr → StateM Nat Node
  | .empty => pure .empty
  | .set s => pure (.set s)
  | .assertion a => pure (.assertion a)
  | .seq a b => do return .seq (← a.expand marked) (← b.expand marked)
  | .alt a b => do
    let m ← freshMark marked
    return .alt m (← a.expand marked) (← b.expand marked)
  | .repeated 0 none greedy body => do
    let m ← freshMark marked
    if body.nullable then
      let around ← freshMark marked
      let pass ← body.expand true
      return .either around greedy (.seq pass (.loop m greedy pass)) .empty
    else
      return .loop m greedy (← body.expand marked)
  | .repeated (min + 1) none greedy body =>
    let last : StateM Nat Node := do
      let m ← freshMark marked
      let pass ← body.expand (marked || body.nullable)
      return .seq pass (.loop m greedy pass)
    copies (body.expand marked) last min
  | .repeated min (some max) greedy body =>
    copies (body.expand marked)
      (optionalCopies (freshMark marked) greedy (body.expand marked) (max - min)) min
  | .group i body => do return .group i (← body.expand marked)

end Backtrack.Regex
