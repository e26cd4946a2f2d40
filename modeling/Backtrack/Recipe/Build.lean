import Backtrack.Grapheme
import Backtrack.Parser.Block
import Backtrack.Recipe

/-!
# From recipes to parsers

Building a parser resolves the names of rules, reads the regular expressions, and numbers the lazy
parsers. The parts of a recipe are built in the order in which they are written, and the first
error ends it.
-/

namespace Backtrack

namespace Recipe

/-- Parsers of values, over rules by number. -/
abbrev Built (σ : Type) := Parser σ (fun _ : Nat => Value) Value

/-- What the names of rules and of handles stand for. -/
structure Scope where
  rules : List (String × Nat) := []
  handles : List (String × Nat) := []

/-- What building keeps track of: the number of the next lazy parser, and the rules that the
parser owns. -/
structure Ledger : Type 1 where
  nextLazy : Nat := 0
  owned : List Nat := []

/-- A step of building, which may fail. -/
abbrev Build := StateT Ledger (Except BuildError)

/-! ## Variables -/

/-- The variables of a block, and the failures that it remembers. -/
structure Variables where
  values : List (String × Value) := []
  aborts : List (String × Abort) := []

namespace Variables

/-- The value of a variable. -/
def get (vars : Variables) (x : String) : Value := (vars.values.lookup x).getD .unit

/-- Sets a variable. -/
def assign (vars : Variables) (x : String) (v : Value) : Variables :=
  { vars with values := (x, v) :: vars.values.filter (·.1 != x) }

/-- Remembers a failure. -/
def remember (vars : Variables) (x : String) (e : Abort) : Variables :=
  { vars with aborts := (x, e) :: vars.aborts.filter (·.1 != x) }

/-- The failure that is remembered. -/
def abort? (vars : Variables) (x : String) : Option Abort := vars.aborts.lookup x

end Variables

/-- The steps of a block on variables. -/
abbrev Steps (σ α : Type) := Block σ (fun _ : Nat => Value) Variables α

namespace Steps

variable {σ α : Type}

/-- Sets a variable to what steps produce, and goes on. -/
def store (x : String) (steps : Steps σ Value) : Steps σ (Option Value) := do
  let v ← steps
  Block.modify (·.assign x v)
  return none

/-- Sets a variable to a function of the variables, and goes on. -/
def compute (x : String) (f : Variables → Value) : Steps σ (Option Value) :=
  store x do return f (← Block.vars)

/-- Takes steps and, unless they end the block, others after them. -/
def followedBy (steps rest : Steps σ (Option Value)) : Steps σ (Option Value) := do
  match ← steps with
  | some v => return some v
  | none => rest

/-- The value of a body, which is unit if no step ends it with another. -/
def result (body : Steps σ (Option Value)) : Steps σ Value := do return (← body).getD .unit

/-- Runs a parser and stores whether it succeeded, with its value or its failure. -/
def probe (x : String) (p : Built σ) (allowPartial : Bool) : Steps σ (Option Value) := do
  match ← Block.try' p allowPartial with
  | .ok v => store x (return .tuple [.bool true, v])
  | .error e =>
    Block.modify (·.remember x e)
    store x (return .tuple [.bool false, .ofNat e.position, .bool e.allowPartial])

/-- Leaves the block with a failure that is remembered. -/
def raise (x : String) : Steps σ (Option Value) := do
  match (← Block.vars).abort? x with
  | some e => Block.abort e
  | none => return none

end Steps

/-! ## Parsers -/

section Parsers

variable {σ : Type}

/-- Fills the sink before a parser runs. -/
def reporting (notes : List Note) (p : Built σ) : Built σ :=
  .function fun pos => do
    notes.forM fun note =>
      match note.record with
      | some e => Routine.report e
      | none => Routine.addError note.index
    Routine.run p pos

/-- Counts the records that a parser adds. -/
def counting (p : Built σ) : Built σ :=
  .function fun pos => do
    let before := (← Routine.sink).checkpoint
    let r ← Routine.run p pos
    let count := (← Routine.sink).countSince before
    let stop := if r.isOk then r.position else pos
    return .ok stop (.tuple [.ofNat count, .ofNat r.position, .ofOption r.value?])

/-- The value of a setting. -/
def settingValue (key : String) (cfg : Config) : Value := .ofOption ((cfg.get? key).map .ofSetting)

/-- The first parser if a setting is true, else the second. -/
def dependingOn (key : String) (p q : Built σ) : Built σ :=
  .function fun pos => do
    if (← Routine.settings).getBool? key = some true then Routine.run p pos
    else Routine.run q pos

/-- The parser of the first arm for a value. -/
def arm (v : Value) (other : Built σ) : List (Value × Built σ) → Built σ
  | [] => other
  | (w, p) :: arms => if w == v then p else arm v other arms

/-- As many runs of a parser as a value says. -/
def repeated (v : Value) (p : Built σ) : Built σ :=
  let n := v.num.toInt.toNat
  (Parser.many p { min := n, max := some n }).map .list

/-- Builds a parser from a regular expression. -/
def withRegex (pattern : String) (parser : Regex → Except BuildError (Built σ)) :
    Build (Built σ) :=
  match Regex.ofPattern pattern with
  | .ok re => monadLift (parser re)
  | .error e => throw e

/-- The parser of a rule, if there is one of that name. -/
def ofRule : Option Nat → Built σ
  | some i => .rule i
  | none => .fail none

end Parsers

/-! ## Building -/

variable {σ : Type} [Symbol σ]

mutual

/-- Builds the parser of a recipe. -/
def build (scope : Scope) : Recipe σ → Build (Built σ)
  | .any => return Parser.any.map Symbol.toValue
  | .eoi => return Parser.eoi.map fun _ => .unit
  | .el x => return (Parser.el x).map Symbol.toValue
  | .literal pattern => return (Parser.literal pattern).map .ofPattern
  | .oneOf set => return (Parser.oneOf set).map Symbol.toValue
  | .noneOf set => return (Parser.noneOf set).map Symbol.toValue
  | .satisfy pred =>
    return (Parser.satisfy fun x => pred.holds (Symbol.toValue x)).map Symbol.toValue
  | .value v => return .pure v
  | .fail expected => return .fail expected
  | .char => return Parser.char.map .char
  | .grapheme => return (Grapheme.parser .unicode).map .str
  | .charWith property => return (Parser.charWith property.contains).map .char
  | .regex pattern => withRegex pattern fun re => return (Parser.regex re).map .str
  | .regexCapture pattern group =>
    withRegex pattern fun re =>
      match re.groupIndex group with
      | .ok i => return (Parser.regexGroup re i).map .ofText?
      | .error e => throw e
  | .regexGroups pattern names =>
    withRegex pattern fun re => return (Parser.regexGroups re).map (.groups · names)
  | .advance n => return .function fun pos => return .ok (pos + n) (.ofNat n)
  | .goto n => return .function fun _ => return .ok n (.ofNat n)
  | .position => return .function fun pos => return .ok pos (.ofNat pos)
  | .failAt n => return .function fun _ => return .fail n
  | .report notes p => return reporting notes (← build scope p)
  | .counted p => return counting (← build scope p)
  | .setting key =>
    return .function fun pos => return .ok pos (settingValue key (← Routine.settings))
  | .ifSet key p q => return dependingOn key (← build scope p) (← build scope q)
  | .map p f => return (← build scope p).map f.apply
  | .withValue p v => return (← build scope p).withValue v
  | .select p arms other => do
    let p ← build scope p
    let arms ← buildArms scope arms
    let other ← build scope other
    return p.flatMap fun v => arm v other arms
  | .times p q => do
    let p ← build scope p
    let q ← build scope q
    return p.flatMap fun v => repeated v q
  | .andMap p q f => return .andMap (← build scope p) (← build scope q) f.apply
  | .andThen p q => return (← build scope p).andThen (← build scope q)
  | .skip p q => return (← build scope p).skip (← build scope q)
  | .between p pre post =>
    return (← build scope p).between (← build scope pre) (← build scope post)
  | .surroundedBy p delim => return (← build scope p).surroundedBy (← build scope delim)
  | .either p q => return .either (← build scope p) (← build scope q)
  | .choice ps => return .choiceOf (← buildAll scope ps)
  | .alternatives ps => return .alternatives (← buildAll scope ps)
  | .seq ps allowPartial =>
    return (Parser.seq (.ofList (← buildAll scope ps)) allowPartial).map .list
  | .tuple ps => return (Parser.tuple (← buildAll scope ps)).map .tuple
  | .option p default => return (← build scope p).option default
  | .opt p => return (← build scope p).opt.map .ofOption
  | .many p bounds => return ((← build scope p).many bounds).map .list
  | .manyAccum p fold bounds => return (← build scope p).manyAccum fold.start fold.step bounds
  | .sepBy p sep bounds =>
    return (Parser.sepBy (← build scope p) (← build scope sep) bounds).map .list
  | .lookAhead p => return (← build scope p).lookAhead
  | .notFollowedBy p => return (← build scope p).notFollowedBy.map fun _ => .unit
  | .label p name => return (← build scope p).label name
  | .recognize p => return (← build scope p).recognize.map .span
  | .lazy p => do
    let ledger ← get
    set { ledger with nextLazy := ledger.nextLazy + 1 }
    return .lazy ledger.nextLazy (← build scope p)
  | .again p => do
    let p ← build scope p
    return .andMap p p.opt fun v w => .tuple [v, .ofOption w]
  | .block body => return .block {} (Steps.result (← buildBody scope body))
  | .ref name => return ofRule (scope.handles.lookup name)
  | .rule name => do
    let i := scope.rules.lookup name
    modify fun ledger => { ledger with owned := i.toList ++ ledger.owned }
    return ofRule i

/-- Builds the parsers of a list. -/
def buildAll (scope : Scope) : List (Recipe σ) → Build (List (Built σ))
  | [] => return []
  | p :: ps => do
    let p ← build scope p
    let ps ← buildAll scope ps
    return p :: ps

/-- Builds the parsers of a list of arms. -/
def buildArms (scope : Scope) : List (Value × Recipe σ) → Build (List (Value × Built σ))
  | [] => return []
  | (v, p) :: arms => do
    let p ← build scope p
    let arms ← buildArms scope arms
    return (v, p) :: arms

/-- Builds a step of a block, with the value that ends the block, if it does. -/
def buildStatement (scope : Scope) : Statement σ → Build (Steps σ (Option Value))
  | .perform x p allowPartial => return .store x (Block.step (← build scope p) allowPartial)
  | .option x p => do
    let p ← build scope p
    return .store x do return .ofOption (← Block.option p)
  | .optionOr x p default => return .store x (Block.optionOr (← build scope p) default)
  | .many x p => do
    let p ← build scope p
    return .store x do return .list (← Block.collect p)
  | .attempt x body => do
    let body ← buildBody scope body
    return .store x do return .ofOption (← Block.recover body.result)
  | .attemptOr x default body =>
    return .store x (Block.recoverOr default (Steps.result (← buildBody scope body)))
  | .passes body => do
    let body ← buildBody scope body
    return do
      Block.passes do let _ ← body
      return none
  | .branch x yes no => do
    let yes ← buildBody scope yes
    let no ← buildBody scope no
    return do if ((← Block.vars).get x).truth then yes else no
  | .probe x p allowPartial => return .probe x (← build scope p) allowPartial
  | .raise x => return .raise x
  | .position x => return .store x do return .ofNat (← Block.currentPosition)
  | .length x => return .store x do return .ofNat (← Block.sourceLength)
  | .records x => return .store x do return .ofNat (← Block.records).length
  | .setting x key => return .store x do return settingValue key (← Block.settings)
  | .assign x v => return .compute x fun _ => v
  | .push xs x =>
    return .compute xs fun vars =>
      match vars.get xs with
      | .list vs => .list (vs ++ [vars.get x])
      | _ => .list [vars.get x]
  | .increment x =>
    return .compute x fun vars =>
      match vars.get x with
      | .int n => .int (n + 1)
      | _ => .int 1
  | .ret x => return do return some ((← Block.vars).get x)
  | .report expected =>
    return do
      let pos ← Block.currentPosition
      Block.report (match expected with
        | some what => .expected pos what
        | none => .unknown pos)
      return none
  | .addError distance =>
    return do
      Block.addError ((← Block.currentPosition) + distance)
      return none

/-- Builds the steps of a body. -/
def buildBody (scope : Scope) : List (Statement σ) → Build (Steps σ (Option Value))
  | [] => return do return none
  | s :: ss => do
    let s ← buildStatement scope s
    let ss ← buildBody scope ss
    return s.followedBy ss

end

end Recipe

end Backtrack
