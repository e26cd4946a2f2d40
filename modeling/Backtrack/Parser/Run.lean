import Backtrack.Parser.Block

/-!
# Running parsers

`Parser.run` runs a parser at a position. It threads a state, which is the sink of expectations
and the set of parsers built so far, and it has an explicit bound on the depth of the run; a run
that exceeds the bound has no result, which is not a failure of the parser. A larger bound never
changes a result.

The loops behind repetition and the list combinators are functions of the step they repeat, so
that their laws hold of every parser.
-/

namespace Backtrack

variable {σ ι : Type} {τ : ι → Type} {α β γ ν : Type}

/-- What a run changes: the sink, and the lazy parsers that have been built. The entries are the
history of the sink, the latest first. No parser sees them; statements about runs do. -/
structure State where
  sink : Sink := .empty
  built : List Nat := []
  entries : List Entry := []
  deriving DecidableEq, Repr

/-- A part of a run, which has no result if the bound on its depth is exceeded. -/
abbrev Act := StateT State Option

/-- What a run reads: the source, the configuration, and the rules of the grammar, where a rule
without a parser is undefined or has ceased to exist. -/
structure Env (σ : Type) {ι : Type} (τ : ι → Type) where
  source : Source σ
  config : Config := {}
  rules : (i : ι) → Option (Parser σ τ (τ i))

namespace Act

/-- The bound on the depth is exceeded. -/
def exceeded : Act α := fun _ => none

/-- Registers a failure. -/
def register (index : Nat) (record : Option Expectation) : Act Unit :=
  modify fun s =>
    { s with sink := s.sink.add index record, entries := ⟨index, record⟩ :: s.entries }

/-- Fails after a report. -/
def failWith (e : Expectation) (pos : Nat) : Act (Outcome α) := do
  register e.index (some e)
  return .fail pos

/-- Fails without an explanation. -/
def mismatch (pos : Nat) : Act (Outcome α) := failWith (.unknown pos) pos

/-- The sink as it is now. -/
def currentSink : Act Sink := do return (← get).sink

/-- Notes that a lazy parser has been built. -/
def build (id : Nat) : Act Unit :=
  modify fun s => { s with built := if s.built.contains id then s.built else id :: s.built }

/-- Runs a part against a sink of its own, and leaves the sink and its history as they were. -/
def isolated (part : Act α) : Act α := do
  let outer ← get
  set { outer with sink := .empty, entries := [] }
  let a ← part
  modify fun s => { outer with built := s.built }
  return a

end Act

open Act

/-! ## Leaves -/

/-- The position behind the given symbols, if the source has them at `pos`. -/
def Source.matchSymbols? [BEq σ] (src : Source σ) : List σ → Nat → Option Nat
  | [], pos => some pos
  | x :: xs, pos =>
    match src.symbolAt? pos with
    | some (y, width) => if y == x then src.matchSymbols? xs (pos + width) else none
    | none => none

/-- The symbol at a position, if it is acceptable. -/
def symbolWhere (src : Source σ) (pos : Nat) (accept : σ → Bool) (reject : Act (Outcome σ)) :
    Act (Outcome σ) :=
  match src.symbolAt? pos with
  | some (x, width) => if accept x then return .ok (pos + width) x else reject
  | none => reject

/-- Fails with a record for each of the given symbols, or with none. -/
def expectEach [Describe σ] (xs : List σ) (pos : Nat) : Act (Outcome α) := do
  if xs.isEmpty then register pos none
  xs.forM fun x => register pos (some (.expected pos (describe x)))
  return .fail pos

/-- The character of a text at a position, if it is acceptable. -/
def charWhere (src : Source σ) (pos : Nat) (accept : Char → Bool) : Act (Outcome Char) :=
  match src.textFrom? pos with
  | some (c :: _) => if accept c then return .ok (pos + c.utf8Size) c else mismatch pos
  | _ => mismatch pos

/-- The match of a regular expression in the text at a position. -/
def regexWhere (src : Source σ) (re : Regex) (pos : Nat)
    (value : Regex.Match → List Char → α) : Act (Outcome α) :=
  match src.textFrom? pos with
  | some rest =>
    match re.match? rest with
    | some m => return .ok (pos + m.stop) (value m rest)
    | none => mismatch pos
  | none => mismatch pos

/-! ## Repetition -/

/-- Fails unless there were at least `min` repetitions. -/
def atLeast (min count pos : Nat) (a : α) : Act (Outcome α) :=
  if count < min then do
    register pos none
    return .fail pos
  else return .ok pos a

/-- Repeats a step until it fails, does not advance, or has succeeded `limit` times. -/
def manyLoop (item : Nat → Act (Outcome α)) : Nat → Option Nat → Nat → Act (List α × Nat)
  | 0, _, _ => exceeded
  | n + 1, limit, pos =>
    if limit = some 0 then return ([], pos) else do
      match ← item pos with
      | .ok q a =>
        if pos < q then
          let (as, e) ← manyLoop item n (limit.map (· - 1)) q
          return (a :: as, e)
        else return ([], pos)
      | .fail _ => return ([], pos)

/-- Repeats a step as `manyLoop` does, with the values folded and counted. -/
def foldLoop (item : Nat → Act (Outcome α)) (f : β → α → β) :
    Nat → Option Nat → β → Nat → Nat → Act (β × Nat × Nat)
  | 0, _, _, _, _ => exceeded
  | n + 1, limit, acc, count, pos =>
    if limit = some 0 then return (acc, count, pos) else do
      match ← item pos with
      | .ok q a =>
        if pos < q then foldLoop item f n (limit.map (· - 1)) (f acc a) (count + 1) q
        else return (acc, count, pos)
      | .fail _ => return (acc, count, pos)

/-- Repeats a separator and an item until one of them fails, they do not advance together, or
there were `limit` items. A separator without an item is not kept. -/
def sepLoop (item : Nat → Act (Outcome α)) (sep : Nat → Act (Outcome β)) :
    Nat → Option Nat → Nat → Act (List α × Nat)
  | 0, _, _ => exceeded
  | n + 1, limit, pos =>
    if limit = some 0 then return ([], pos) else do
      match ← sep pos with
      | .fail _ => return ([], pos)
      | .ok s _ =>
        match ← item s with
        | .fail _ => return ([], pos)
        | .ok q a =>
          if pos < q then
            let (as, e) ← sepLoop item sep n (limit.map (· - 1)) q
            return (a :: as, e)
          else return ([], pos)

/-- Repeats the pass of a block as long as it succeeds and advances. -/
def passLoop (pass : Nat → ν → Act (Except Abort Unit × Nat × ν)) :
    Nat → Nat → ν → Act (Nat × ν)
  | 0, _, _ => exceeded
  | n + 1, pos, v => do
    let (r, q, v) ← pass pos v
    match r with
    | .ok () => if pos < q then passLoop pass n q v else return (q, v)
    | .error e => return (if e.allowPartial then q else pos, v)

/-! ## Lists, blocks and functions

Each is a function of `call`, which runs a parser. -/

/-- How parsers are run. -/
abbrev Call (σ : Type) {ι : Type} (τ : ι → Type) :=
  {α : Type} → Parser σ τ α → Nat → Act (Outcome α)

namespace Parsers

/-- The first of the parsers that succeeds. -/
def firstOf (call : Call σ τ) : Parsers σ τ α → Nat → Act (Outcome α)
  | nil, pos => return .fail pos
  | cons p ps, pos => do
    match ← call p pos with
    | .ok q a => return .ok q a
    | .fail _ => ps.firstOf call pos

/-- The parsers in order or, with `allowPartial`, as many of them as succeed. -/
def inOrder (call : Call σ τ) (allowPartial : Bool) :
    Parsers σ τ α → Nat → Act (Outcome (List α))
  | nil, pos => return .ok pos []
  | cons p ps, pos => do
    match ← call p pos with
    | .ok q a =>
      match ← ps.inOrder call allowPartial q with
      | .ok e as => return .ok e (a :: as)
      | .fail e => return .fail e
    | .fail q => return if allowPartial then .ok pos [] else .fail q

end Parsers

/-- Runs the steps of a block from a position and with variables, to the value or the signal that
ended them, the position reached, and the variables. -/
def Block.exec (call : Call σ τ) (source : Source σ) (config : Config) (fuel : Nat) :
    {ν α : Type} → Block σ τ ν α → Nat → ν → Act (Except Abort α × Nat × ν)
  | _, _, .ret a, pos, v => return (.ok a, pos, v)
  | _, _, .abort e, pos, v => return (.error e, pos, v)
  | _, _, .perform p allowPartial next, pos, v => do
    match ← call p pos with
    | .ok q a => (next (.ok a)).exec call source config fuel q v
    | .fail _ => (next (.error ⟨pos, allowPartial⟩)).exec call source config fuel pos v
  | _, _, .many p next, pos, v => do
    let (as, q) ← manyLoop (call p) fuel none pos
    (next as).exec call source config fuel q v
  | _, _, .attempt body next, pos, v => do
    let (r, q, v) ← body.exec call source config fuel pos v
    match r with
    | .ok a => (next (some a)).exec call source config fuel q v
    | .error e => (next none).exec call source config fuel (if e.allowPartial then q else pos) v
  | _, _, .loop body next, pos, v => do
    let (q, v) ← passLoop (fun q w => body.exec call source config fuel q w) fuel pos v
    next.exec call source config fuel q v
  | _, _, .position next, pos, v => (next pos).exec call source config fuel pos v
  | _, _, .ask next, pos, v => (next source config).exec call source config fuel pos v
  | _, _, .inspect next, pos, v => do (next (← currentSink)).exec call source config fuel pos v
  | _, _, .register index record _ next, pos, v => do
    Act.register index record
    next.exec call source config fuel pos v
  | _, _, .get next, pos, v => (next v).exec call source config fuel pos v
  | _, _, .set w next, pos, _ => next.exec call source config fuel pos w

/-- Runs a function on the parse context. -/
def Routine.exec (call : Call σ τ) (source : Source σ) (config : Config) :
    Routine σ τ α → Act α
  | .ret a => return a
  | .ask next => (next source config).exec call source config
  | .inspect next => do (next (← currentSink)).exec call source config
  | .register index record _ next => do
    Act.register index record
    next.exec call source config
  | .call p pos next => do (next (← call p pos)).exec call source config

/-! ## Parsers -/

/-- Runs a parser at a position. The number bounds the depth of the run and the passes of each of
its loops. -/
def Parser.run [BEq σ] [Describe σ] (env : Env σ τ) :
    Nat → {α : Type} → Parser σ τ α → Nat → Act (Outcome α)
  | 0, _, _, _ => exceeded
  | n + 1, _, p, pos =>
    match p with
    | .pure a => return .ok pos a
    | .fail none => mismatch pos
    | .fail (some what) => failWith (.expected pos what) pos
    | .any => symbolWhere env.source pos (fun _ => true) (mismatch pos)
    | .eoi =>
      if env.source.len ≤ pos then return .ok pos ()
      else failWith (.expected pos "end of input") pos
    | .el x =>
      symbolWhere env.source pos (· == x) (failWith (.expected pos (describe x)) pos)
    | .oneOf set =>
      symbolWhere env.source pos set.contains (expectEach set.toList pos)
    | .noneOf set => symbolWhere env.source pos (fun x => !set.contains x) (mismatch pos)
    | .satisfy pred => symbolWhere env.source pos pred (mismatch pos)
    | .literal pattern =>
      match env.source.matchSymbols? pattern.toList pos with
      | some q => return .ok q pattern
      | none => failWith (.expected pos pattern.describe) pos
    | .charWith pred => charWhere env.source pos pred
    | .regexGroup re i => regexWhere env.source re pos fun m rest => m.text? rest i
    | .regexGroups re => regexWhere env.source re pos fun m rest => .ofMatch re m rest pos
    | .covered p => do
      match ← isolated (run env n p pos) with
      | .ok q _ =>
        match env.source.textBetween? pos q with
        | some text => return .ok q (String.ofList text)
        | none => mismatch pos
      | .fail _ => mismatch pos
    | .map p f => do return (← run env n p pos).map f
    | .flatMap p next => do
      match ← run env n p pos with
      | .ok q a => run env n (next a) q
      | .fail q => return .fail q
    | .andMap p q f => do
      match ← run env n p pos with
      | .ok e a => return (← run env n q e).map (f a)
      | .fail e => return .fail e
    | .between p pre post => do
      match ← run env n pre pos with
      | .ok e _ =>
        match ← run env n p e with
        | .ok e a => return (← run env n post e).map fun _ => a
        | .fail e => return .fail e
      | .fail e => return .fail e
    | .either p q => do
      match ← run env n p pos with
      | .ok e a => return .ok e a
      | .fail _ =>
        match ← run env n q pos with
        | .ok e a => return .ok e a
        | .fail _ => return .fail pos
    | .choice .nil => do
      register pos none
      return .fail pos
    | .choice (.cons p ps) => (Parsers.cons p ps).firstOf (fun p q => run env n p q) pos
    | .option p default => do
      match ← run env n p pos with
      | .ok e a => return .ok e a
      | .fail _ => return .ok pos default
    | .opt p => do
      match ← run env n p pos with
      | .ok e a => return .ok e (some a)
      | .fail _ => return .ok pos none
    | .seq ps allowPartial => ps.inOrder (fun p q => run env n p q) allowPartial pos
    | .many p bounds => do
      let (as, e) ← manyLoop (fun q => run env n p q) n bounds.max pos
      atLeast bounds.min as.length e as
    | .manyAccum p init f bounds => do
      let (acc, count, e) ← foldLoop (fun q => run env n p q) f n bounds.max init 0 pos
      atLeast bounds.min count e acc
    | .sepBy p sep bounds =>
      if bounds.max = some 0 then atLeast bounds.min 0 pos [] else do
        match ← run env n p pos with
        | .fail _ => atLeast bounds.min 0 pos []
        | .ok q a =>
          let (as, e) ←
            sepLoop (fun q => run env n p q) (fun q => run env n sep q) n
              (bounds.max.map (· - 1)) q
          atLeast bounds.min (as.length + 1) e (a :: as)
    | .lookAhead p => do
      match ← run env n p pos with
      | .ok _ a => return .ok pos a
      | .fail q => return .fail q
    | .notFollowedBy p => do
      match ← run env n p pos with
      | .ok .. => mismatch pos
      | .fail _ => return .ok pos ()
    | .label p name => do
      let before := (← currentSink).checkpoint
      match ← run env n p pos with
      | .ok q a => return .ok q a
      | .fail q =>
        let length := (← currentSink).countSince before
        failWith (.label pos length name) q
    | .recognize p => do
      match ← run env n p pos with
      | .ok q _ => return .ok q (.new pos q)
      | .fail q => return .fail q
    | .lazy id p => do
      build id
      run env n p pos
    | .rule i =>
      match env.rules i with
      | some p => run env n p pos
      | none => mismatch pos
    | .block init body => do
      let (r, q, _) ←
        body.exec (fun p q => run env n p q) env.source env.config n pos init
      match r with
      | .ok a => return .ok q a
      | .error e => return .fail e.position
    | .function body =>
      (body pos).exec (fun p q => run env n p q) env.source env.config

end Backtrack
