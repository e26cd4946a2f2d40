/-!
# Rules and their owners

A rule is a place for a definition that is filled at most once. It exists as long as it has an
owner: one outside, or one inside the definition of a rule that exists. A definition may own
rules, its own included, which then keep each other in existence; a mere reference owns nothing.

The store keeps the rules by number. What a rule is defined by is of a type that goes with its
number (`δ`), since rules may have values of different types. A rule that has lost its last owner is
removed together with its definition, and so are the rules that only its definition owned.
-/

namespace Backtrack

universe u

/-- What a rule is defined by, with the rules that the definition owns. -/
structure Definition (δ : Type u) where
  body : δ
  owns : List Nat := []

/-- A rule: its definition, if it has one, and the number of its owners outside of all
definitions. -/
structure Cell (δ : Type u) where
  definition : Option (Definition δ) := none
  owners : Nat := 0

/-- Rules by number, as many as were created; those that have ceased to exist leave a gap. -/
structure RuleStore (δ : Nat → Type u) where
  created : Nat
  cells : (i : Fin created) → Option (Cell (δ i))

/-- Why a rule cannot be defined. -/
inductive RuleError where
  | alreadyDefined
  deriving DecidableEq, Repr

/-- The error as a message. -/
def RuleError.message : RuleError → String
  | alreadyDefined => "rule is already defined"

namespace RuleStore

variable {δ : Nat → Type u}

/-- The store without rules. -/
def empty : RuleStore δ := ⟨0, nofun⟩

/-- The rule of a number, if it exists. -/
def cell? (store : RuleStore δ) (i : Nat) : Option (Cell (δ i)) :=
  if h : i < store.created then store.cells ⟨i, h⟩ else none

/-- Whether a rule exists. -/
def isAlive (store : RuleStore δ) (i : Nat) : Bool := (store.cell? i).isSome

/-- The definition of a rule, if it exists and has one. -/
def definition? (store : RuleStore δ) (i : Nat) : Option (Definition (δ i)) :=
  match store.cell? i with
  | some c => c.definition
  | none => none

/-- Whether a rule exists and is defined. -/
def isDefined (store : RuleStore δ) (i : Nat) : Bool := (store.definition? i).isSome

/-- The parser of a rule, if it exists and is defined. -/
def body? (store : RuleStore δ) (i : Nat) : Option (δ i) := (store.definition? i).map (·.body)

/-- The rules that some definition owns. -/
def owned (store : RuleStore δ) : List Nat :=
  (List.finRange store.created).flatMap fun i =>
    match store.cells i with
    | some { definition := some d, .. } => d.owns
    | _ => []

/-- Removes the rules that have no owner, with their definitions. -/
def prune (store : RuleStore δ) : RuleStore δ :=
  let owned := store.owned
  ⟨store.created, fun i => (store.cells i).filter fun c => 0 < c.owners || owned.contains i.val⟩

/-- Removes rules until every rule has an owner. Every round that changes something removes a
rule, so there are at most as many rounds as rules. -/
def sweep (store : RuleStore δ) : RuleStore δ := Nat.repeat prune store.created store

/-- Changes a rule that exists. -/
def update (store : RuleStore δ) (i : Nat) (f : Cell (δ i) → Cell (δ i)) : RuleStore δ :=
  ⟨store.created, fun j => if h : i = j then h ▸ (store.cell? i).map f else store.cells j⟩

/-- A new rule with one owner. -/
def create (store : RuleStore δ) : Nat × RuleStore δ :=
  (store.created, ⟨store.created + 1, fun i =>
    if h : i < store.created then store.cells ⟨i, h⟩ else some { owners := 1 }⟩)

/-- One more owner. -/
def acquire (store : RuleStore δ) (i : Nat) : RuleStore δ :=
  store.update i fun c => { c with owners := c.owners + 1 }

/-- One owner less. -/
def release (store : RuleStore δ) (i : Nat) : RuleStore δ :=
  (store.update i fun c => { c with owners := c.owners - 1 }).sweep

/-- Defines a rule that has no definition yet. A definition that is refused changes nothing. -/
def define (store : RuleStore δ) (i : Nat) (d : Definition (δ i)) :
    Except RuleError (RuleStore δ) :=
  if store.isDefined i then .error .alreadyDefined
  else .ok (store.update i fun c => { c with definition := some d })

end RuleStore

end Backtrack
