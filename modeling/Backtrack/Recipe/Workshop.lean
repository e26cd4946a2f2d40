import Backtrack.ParseResult
import Backtrack.Recipe.Build
import Backtrack.RuleStore

/-!
# A workshop of rules

Rules are declared, defined and dropped under names. A name of a rule stands for an owner of it;
the name of a handle stands for a mere reference, and outlives the rule.
-/

namespace Backtrack

namespace Recipe

/-- Rules with their definitions, and the names in use. -/
structure Workshop (σ : Type) where
  store : RuleStore (fun _ => Built σ) := .empty
  scope : Scope := {}

/-- Why a rule cannot be given a definition. -/
inductive DefineError where
  | build (e : BuildError)
  | rule (e : RuleError)
  deriving DecidableEq, Repr

/-- Associates a name with a rule, in place of what it stood for. -/
def rename (name : String) (i : Nat) (names : List (String × Nat)) : List (String × Nat) :=
  (name, i) :: names.filter (·.1 != name)

namespace Workshop

variable {σ : Type}

/-- The rule that is owned under a name. -/
def rule? (w : Workshop σ) (name : String) : Option Nat := w.scope.rules.lookup name

/-- The rule that the handle of a name refers to. -/
def handle? (w : Workshop σ) (name : String) : Option Nat := w.scope.handles.lookup name

/-- Gives up the owner that a name stands for. The handle of that name is kept. -/
def drop (w : Workshop σ) (name : String) : Workshop σ :=
  match w.rule? name with
  | some i =>
    { store := w.store.release i
      scope := { w.scope with rules := w.scope.rules.filter (·.1 != name) } }
  | none => w

/-- Names an owner of a rule, and its handle. What the name stood for is dropped. -/
def own (w : Workshop σ) (name : String) (i : Nat) : Workshop σ :=
  let w := w.drop name
  { w with scope := ⟨rename name i w.scope.rules, rename name i w.scope.handles⟩ }

/-- Declares a new rule, in place of an older one of that name. -/
def declare (w : Workshop σ) (name : String) : Workshop σ :=
  let (i, store) := w.store.create
  own { w with store } name i

/-- Names another owner of a rule. -/
def share (w : Workshop σ) (new old : String) : Workshop σ :=
  match w.rule? old with
  | some i => own { w with store := w.store.acquire i } new i
  | none => w

/-- Names a copy of a handle. -/
def copyHandle (w : Workshop σ) (new old : String) : Workshop σ :=
  match w.handle? old with
  | some i => { w with scope := { w.scope with handles := rename new i w.scope.handles } }
  | none => w

/-- Whether the rule of a name is defined. -/
def isDefined (w : Workshop σ) (name : String) : Bool := (w.rule? name).any w.store.isDefined

/-- Whether the rule that a handle refers to exists. -/
def isAlive (w : Workshop σ) (name : String) : Bool := (w.handle? name).any w.store.isAlive

/-- A rule spelled out for a diagnostic. -/
def inspectRule (w : Workshop σ) (name : String) : String :=
  "Rule \x7b defined: " ++ (if w.isDefined name then "true" else "false") ++ " \x7d"

/-- A handle spelled out for a diagnostic. -/
def inspectHandle (w : Workshop σ) (name : String) : String :=
  "RuleRef \x7b alive: " ++ (if w.isAlive name then "true" else "false") ++ " \x7d"

/-- What a parser runs in. -/
def env (w : Workshop σ) (source : Source σ) (config : Config) :
    Env σ (fun _ : Nat => Value) where
  source := source
  config := config
  rules i := w.store.body? i

variable [Symbol σ]

/-- Builds the parser of a recipe, with the rules that it owns. -/
def build (w : Workshop σ) (p : Recipe σ) : Except BuildError (Definition (Built σ)) :=
  match (Recipe.build w.scope p).run {} with
  | .ok (body, ledger) => .ok { body, owns := ledger.owned }
  | .error e => .error e

/-- Defines the rule of a name. -/
def define (w : Workshop σ) (name : String) (p : Recipe σ) : Except DefineError (Workshop σ) :=
  match w.build p with
  | .error e => .error (.build e)
  | .ok d =>
    match w.rule? name with
    | none => .ok w
    | some i =>
      match w.store.define i d with
      | .ok store => .ok { w with store }
      | .error e => .error (.rule e)

/-- Defines rules in order. A rule that has a definition keeps it. -/
def defineAll (w : Workshop σ) : List (String × Recipe σ) → Except BuildError (Workshop σ)
  | [] => .ok w
  | (name, p) :: rules =>
    match w.define name p with
    | .ok w => w.defineAll rules
    | .error (.rule _) => w.defineAll rules
    | .error (.build e) => .error e

/-- The workshop of a list of rules, which may refer to each other. -/
def ofList (rules : List (String × Recipe σ)) : Except BuildError (Workshop σ) :=
  defineAll (rules.foldl (fun w (name, _) => w.declare name) {}) rules

end Workshop

/-- A parser together with what it runs in. -/
structure Prepared (σ : Type) where
  env : Env σ (fun _ : Nat => Value)
  parser : Built σ

/-- Prepares a parse of a source, with rules. The rules are built before the parser. -/
def prepare {σ : Type} [Symbol σ] (source : Source σ) (config : Config)
    (rules : List (String × Recipe σ)) (p : Recipe σ) : Except BuildError (Prepared σ) :=
  match Workshop.ofList rules with
  | .error e => .error e
  | .ok w =>
    match w.build p with
    | .error e => .error e
    | .ok d => .ok ⟨w.env source config, d.body⟩

namespace Prepared

variable {σ : Type} [Symbol σ]

/-- Parses the source. -/
def parse? (fuel : Nat) (p : Prepared σ) : Option (ParseResult Value) :=
  p.parser.parse? fuel p.env

/-- Parses the source twice with the same parser. Gives the first result, whether the second one
equals it, and how many lazy parsers were built in all. -/
def parseTwice? (fuel : Nat) (p : Prepared σ) : Option (ParseResult Value × Bool × Nat) :=
  match p.parser.parseFrom? fuel p.env [] with
  | none => none
  | some (first, built) =>
    match p.parser.parseFrom? fuel p.env built with
    | none => none
    | some (second, built) => some (first, first == second, built.length)

end Prepared

end Recipe

end Backtrack
