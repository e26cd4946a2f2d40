import Backtrack.Parser

/-!
# Writing blocks

Blocks of steps are written in `do` notation. `Block.perform` runs a parser and leaves the block
where it fails; `Block.attempt` and `Block.loop` recover from that. The variables of a block are
not rolled back by a recovery.
-/

namespace Backtrack

variable {σ ι : Type} {τ : ι → Type} {α β ν : Type}

namespace Block

/-- Goes on with steps that depend on the value. -/
protected def bind : Block σ τ ν α → (α → Block σ τ ν β) → Block σ τ ν β
  | ret a, f => f a
  | abort e, _ => abort e
  | perform p allowPartial next, f => perform p allowPartial fun r => (next r).bind f
  | many p next, f => many p fun as => (next as).bind f
  | attempt body next, f => attempt body fun r => (next r).bind f
  | loop body next, f => loop body (next.bind f)
  | position next, f => position fun pos => (next pos).bind f
  | ask next, f => ask fun src cfg => (next src cfg).bind f
  | inspect next, f => inspect fun s => (next s).bind f
  | register index record inPlace next, f => register index record inPlace (next.bind f)
  | get next, f => get fun v => (next v).bind f
  | set v next, f => set v (next.bind f)

instance : Monad (Block σ τ ν) where
  pure := ret
  bind := Block.bind

/-- Runs a parser, and gives the value or the signal of the failure. -/
def try' (p : Parser σ τ α) (allowPartial : Bool) : Block σ τ ν (Except Abort α) :=
  perform p allowPartial ret

/-- The value, or leaves the block with the signal. -/
def orAbort : Except Abort α → Block σ τ ν α
  | .ok a => ret a
  | .error e => abort e

/-- Runs a parser, or leaves the block if it fails. A recovery then keeps the position if
`allowPartial` is set. -/
def step (p : Parser σ τ α) (allowPartial : Bool) : Block σ τ ν α :=
  perform p allowPartial orAbort

/-- Runs a parser, with nothing in place of a failure. -/
def option (p : Parser σ τ α) : Block σ τ ν (Option α) := perform p false fun r => ret r.toOption

/-- Runs a parser, with a value in place of a failure. -/
def optionOr (p : Parser σ τ α) (default : α) : Block σ τ ν α :=
  perform p false fun r => ret (r.toOption.getD default)

/-- Runs a parser as often as it advances. -/
def collect (p : Parser σ τ α) : Block σ τ ν (List α) := many p ret

/-- Recovers from a failure of the steps. -/
def recover (body : Block σ τ ν α) : Block σ τ ν (Option α) := attempt body ret

/-- Recovers from a failure of the steps, with a value in its place. -/
def recoverOr (default : α) (body : Block σ τ ν α) : Block σ τ ν α :=
  attempt body fun r => ret (r.getD default)

/-- Passes through the steps as long as they advance. -/
def passes (body : Block σ τ ν Unit) : Block σ τ ν Unit := loop body (ret ())

/-- The current position. -/
def currentPosition : Block σ τ ν Nat := position ret

/-- The length of the source. -/
def sourceLength : Block σ τ ν Nat := ask fun src _ => ret src.len

/-- The configuration. -/
def settings : Block σ τ ν Config := ask fun _ cfg => ret cfg

/-- The records of the sink. -/
def records : Block σ τ ν (List Expectation) := inspect fun s => ret s.records

/-- Registers a failure without a record. -/
def addError (index : Nat) : Block σ τ ν Unit := register index none nofun (ret ())

/-- Reports an expectation. -/
def report (e : Expectation) : Block σ τ ν Unit :=
  register e.index (some e) (fun _ h => Option.some.inj h ▸ rfl) (ret ())

/-- The variables. -/
def vars : Block σ τ ν ν := get ret

/-- Changes the variables. -/
def modify (f : ν → ν) : Block σ τ ν Unit := get fun v => set (f v) (ret ())

end Block

namespace Routine

/-- Goes on with what depends on the value. -/
protected def bind : Routine σ τ α → (α → Routine σ τ β) → Routine σ τ β
  | ret a, f => f a
  | ask next, f => ask fun src cfg => (next src cfg).bind f
  | inspect next, f => inspect fun s => (next s).bind f
  | register index record inPlace next, f => register index record inPlace (next.bind f)
  | call p pos next, f => call p pos fun r => (next r).bind f

instance : Monad (Routine σ τ) where
  pure := ret
  bind := Routine.bind

/-- Runs a parser at a position. -/
def run (p : Parser σ τ α) (pos : Nat) : Routine σ τ (Outcome α) := call p pos ret

/-- The configuration. -/
def settings : Routine σ τ Config := ask fun _ cfg => ret cfg

/-- The sink. -/
def sink : Routine σ τ Sink := inspect ret

/-- Registers a failure without a record. -/
def addError (index : Nat) : Routine σ τ Unit := register index none nofun (ret ())

/-- Reports an expectation. -/
def report (e : Expectation) : Routine σ τ Unit :=
  register e.index (some e) (fun _ h => Option.some.inj h ▸ rfl) (ret ())

end Routine

end Backtrack
