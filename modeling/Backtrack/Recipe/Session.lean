import Backtrack.Recipe.Workshop

/-!
# Sessions

A session takes steps on a state and answers each. There are sessions on a sink, on a parse
context that parsers are run on one after another, and on the rules of a workshop.
-/

namespace Backtrack

namespace Recipe

/-- The answer to a step of a session. -/
inductive Answer where
  | nothing
  | number (n : Nat)
  | flag (b : Bool)
  | text (s : String)
  | outcome (r : Outcome Value)
  | result (r : ParseResult Value)
  | defined
  | refused (e : RuleError)
  | unbuildable (e : BuildError)
  /-- The bound on the depth of the run was exceeded. -/
  | exceeded

namespace Answer

/-- The answer to a run. -/
def ofOutcome? : Option (Outcome Value) → Answer
  | some r => outcome r
  | none => exceeded

/-- The answer to a parse. -/
def ofResult? : Option (ParseResult Value) → Answer
  | some r => result r
  | none => exceeded

end Answer

/-! ## Checkpoints -/

/-- The checkpoints that were taken, numbered from zero. -/
abbrev Checkpoints := List Checkpoint

/-- The number of records since a checkpoint. -/
def Checkpoints.countSince (marks : Checkpoints) (sink : Sink) (k : Nat) : Answer :=
  match marks[k]? with
  | some mark => .number (sink.countSince mark)
  | none => .nothing

/-- Whether two checkpoints are equal. -/
def Checkpoints.same (marks : Checkpoints) (k l : Nat) : Answer :=
  match marks[k]?, marks[l]? with
  | some a, some b => .flag (a == b)
  | _, _ => .nothing

/-! ## Sinks -/

/-- A step on a sink. -/
inductive SinkStep where
  | add (note : Note)
  | checkpoint
  | countSince (k : Nat)
  /-- Goes on with a copy. -/
  | fork
  /-- Whether the sink equals the one that the session started with, as that one was left. -/
  | sameAsFirst
  /-- The error message of a parse that would end here. -/
  | message

/-- A session on a sink. The first sink is kept once the session goes on with a copy. -/
structure SinkSession where
  sink : Sink := .empty
  first : Option Sink := none
  marks : Checkpoints := []

/-- Takes a step on a sink. -/
def SinkSession.step (s : SinkSession) : SinkStep → Answer × SinkSession
  | .add note => (.nothing, { s with sink := s.sink.add note.index note.record })
  | .checkpoint =>
    (.number s.marks.length, { s with marks := s.marks ++ [s.sink.checkpoint] })
  | .countSince k => (s.marks.countSince s.sink k, s)
  | .fork => (.nothing, { s with first := some (s.first.getD s.sink) })
  | .sameAsFirst => (.flag (s.first.getD s.sink == s.sink), s)
  | .message => (.text (ParseError.message ⟨s.sink.farthest.getD 0, s.sink.finish⟩), s)

/-! ## Contexts -/

variable {σ : Type}

/-- A step on a parse context. -/
inductive ContextStep (σ : Type) where
  | run (pos : Nat) (p : Recipe σ)
  | checkpoint
  | countSince (k : Nat)
  | sameCheckpoint (k l : Nat)
  | sourceLength
  | configSize
  | inspect
  | note (n : Note)

/-- A session on a parse context: a source, a configuration and rules, with the sink that the runs
share. -/
structure ContextSession (σ : Type) where
  source : Source σ
  config : Config
  workshop : Workshop σ
  sink : Sink := .empty
  marks : Checkpoints := []

namespace ContextSession

/-- The context spelled out for a diagnostic. -/
def inspect (s : ContextSession σ) : String :=
  "Context \x7b len: " ++ toString s.source.len ++ ", cfg: " ++ s.config.inspect ++
    ", errors: " ++ s.sink.inspect ++ " \x7d"

/-- Runs the parser of a recipe at a position. -/
def run [Symbol σ] (fuel : Nat) (s : ContextSession σ) (pos : Nat) (p : Recipe σ) :
    Answer × ContextSession σ :=
  match s.workshop.build p with
  | .error e => (.unbuildable e, s)
  | .ok d =>
    match d.body.run (s.workshop.env s.source s.config) fuel pos { sink := s.sink } with
    | some (r, state) => (.outcome r, { s with sink := state.sink })
    | none => (.exceeded, s)

/-- Takes a step on a parse context. -/
def step [Symbol σ] (fuel : Nat) (s : ContextSession σ) :
    ContextStep σ → Answer × ContextSession σ
  | .run pos p => s.run fuel pos p
  | .checkpoint =>
    (.number s.marks.length, { s with marks := s.marks ++ [s.sink.checkpoint] })
  | .countSince k => (s.marks.countSince s.sink k, s)
  | .sameCheckpoint k l => (s.marks.same k l, s)
  | .sourceLength => (.number s.source.len, s)
  | .configSize => (.number s.config.size, s)
  | .inspect => (.text s.inspect, s)
  | .note n => (.nothing, { s with sink := s.sink.add n.index n.record })

end ContextSession

/-! ## Rules -/

/-- A step in a workshop. -/
inductive RuleStep (σ : Type) where
  | declare (name : String)
  | define (name : String) (p : Recipe σ)
  | isDefined (name : String)
  | share (new old : String)
  | copyHandle (new old : String)
  | drop (name : String)
  | inspectRule (name : String)
  | inspectHandle (name : String)
  | inspectParser (p : Recipe σ)
  | parse (p : Recipe σ)

namespace Workshop

variable [Symbol σ]

/-- A parser spelled out for a diagnostic, which tells nothing but whether it can be built. -/
def inspectParser (w : Workshop σ) (p : Recipe σ) : Answer :=
  match w.build p with
  | .ok _ => .text "BoxedParser"
  | .error e => .unbuildable e

/-- Parses a source with the parser of a recipe. -/
def parse (fuel : Nat) (source : Source σ) (w : Workshop σ) (p : Recipe σ) : Answer :=
  match w.build p with
  | .ok d => .ofResult? (d.body.parse? fuel (w.env source {}))
  | .error e => .unbuildable e

/-- Takes a step in a workshop. -/
def step (fuel : Nat) (source : Source σ) (w : Workshop σ) : RuleStep σ → Answer × Workshop σ
  | .declare name => (.nothing, w.declare name)
  | .define name p =>
    match w.define name p with
    | .ok w => (.defined, w)
    | .error (.build e) => (.unbuildable e, w)
    | .error (.rule e) => (.refused e, w)
  | .isDefined name => (.flag (w.isDefined name), w)
  | .share new old => (.nothing, w.share new old)
  | .copyHandle new old => (.nothing, w.copyHandle new old)
  | .drop name => (.nothing, w.drop name)
  | .inspectRule name => (.text (w.inspectRule name), w)
  | .inspectHandle name => (.text (w.inspectHandle name), w)
  | .inspectParser p => (w.inspectParser p, w)
  | .parse p => (w.parse fuel source p, w)

end Workshop

/-! ## Whole sessions -/

/-- Takes steps one after another. Gives every answer with the state after it. -/
def takeSteps {State Step : Type _} (step : State → Step → Answer × State) :
    State → List Step → List (Answer × State)
  | _, [] => []
  | s, x :: xs =>
    let r := step s x
    r :: takeSteps step r.2 xs

end Recipe

end Backtrack
