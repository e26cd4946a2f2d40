import Backtrack.Proofs.Act

/-!
# Running blocks in do notation

A block that was put together by `bind` runs the one part and then the other (`exec_bind`). What a
block is seen to do from outside is `Block.observe`: the position and the value that it comes to, or
nothing, and what became of the state. Each step has an equation for what is observed of it in front
of the rest of a block, so that a block in do notation is run without looking into how it is put
together.
-/

namespace Backtrack

variable {σ ι : Type} {τ : ι → Type} {α β ν : Type}

/-- The position reached and the value of a success. -/
def Outcome.state? : Outcome α → Option (Nat × α)
  | .ok q a => some (q, a)
  | .fail _ => none

/-- Two ways to go on with an outcome are the same if they are for successes and for failures. -/
theorem Act.bind_congr_outcome {a : Act (Outcome α)} {f g : Outcome α → Act β}
    (hok : ∀ q x, f (.ok q x) = g (.ok q x)) (hfail : ∀ q, f (.fail q) = g (.fail q)) :
    a >>= f = a >>= g := by
  refine bind_congr fun r => ?_
  cases r with
  | ok q x => exact hok q x
  | fail q => exact hfail q

namespace Block

theorem bind_eq (body : Block σ τ ν α) (f : α → Block σ τ ν β) : body >>= f = body.bind f := rfl

section Exec

variable (call : Call σ τ) (src : Source σ) (cfg : Config) (n : Nat)

/-- Goes on with a block where another one has come to a value. -/
def execThen (f : α → Block σ τ ν β) : Except Abort α × Nat × ν → Act (Except Abort β × Nat × ν)
  | (.ok a, q, w) => (f a).exec call src cfg n q w
  | (.error e, q, w) => return (.error e, q, w)

/-- The induction is on the steps of the first block. -/
theorem exec_bind : ∀ {ν α β : Type} (body : Block σ τ ν α) (f : α → Block σ τ ν β) (pos : Nat)
    (v : ν), (body.bind f).exec call src cfg n pos v =
      body.exec call src cfg n pos v >>= execThen call src cfg n f
  | _, _, _, .ret a, f, pos, v => by
    rw [exec, Block.bind, pure_bind, execThen]
  | _, _, _, .abort e, f, pos, v => by
    rw [exec, Block.bind, exec, pure_bind, execThen]
  | _, _, _, .perform p allowPartial next, f, pos, v => by
    rw [Block.bind, exec, exec, bind_assoc]
    refine bind_congr fun r => ?_
    cases r with
    | ok q a => exact exec_bind (next (.ok a)) f q v
    | fail q => exact exec_bind (next (.error ⟨pos, allowPartial⟩)) f pos v
  | _, _, _, .many p next, f, pos, v => by
    rw [Block.bind, exec, exec, bind_assoc]
    exact bind_congr fun r => exec_bind (next r.1) f r.2 v
  | _, _, _, .attempt body next, f, pos, v => by
    rw [Block.bind, exec, exec, bind_assoc]
    refine bind_congr fun ⟨r, q, w⟩ => ?_
    cases r with
    | ok a => exact exec_bind (next (some a)) f q w
    | error e => exact exec_bind (next none) f _ w
  | _, _, _, .loop body next, f, pos, v => by
    rw [Block.bind, exec, exec, bind_assoc]
    exact bind_congr fun r => exec_bind next f r.1 r.2
  | _, _, _, .position next, f, pos, v => by
    rw [Block.bind, exec, exec, exec_bind (next pos)]
  | _, _, _, .ask next, f, pos, v => by
    rw [Block.bind, exec, exec, exec_bind (next src cfg)]
  | _, _, _, .inspect next, f, pos, v => by
    rw [Block.bind, exec, exec, bind_assoc]
    exact bind_congr fun s => exec_bind (next s) f pos v
  | _, _, _, .register index record _ next, f, pos, v => by
    rw [Block.bind, exec, exec, bind_assoc]
    exact bind_congr fun _ => exec_bind next f pos v
  | _, _, _, .get next, f, pos, v => by
    rw [Block.bind, exec, exec, exec_bind (next v)]
  | _, _, _, .set w next, f, pos, v => by
    rw [Block.bind, exec, exec, exec_bind next]

/-- A parser that is performed leads on if it succeeds, or the block is left. -/
theorem exec_step_bind (p : Parser σ τ α) (allowPartial : Bool) (f : α → Block σ τ ν β) (pos : Nat)
    (v : ν) : (step p allowPartial >>= f).exec call src cfg n pos v = (do
      match ← call p pos with
      | .ok q a => (f a).exec call src cfg n q v
      | .fail _ => return (.error ⟨pos, allowPartial⟩, pos, v)) := by
  rw [bind_eq, exec_bind, step, exec, bind_assoc]
  exact Act.bind_congr_outcome (fun _ _ => rfl) fun _ => rfl

theorem exec_modify_bind (g : ν → ν) (f : Unit → Block σ τ ν β) (pos : Nat) (v : ν) :
    (modify g >>= f).exec call src cfg n pos v = (f ()).exec call src cfg n pos (g v) := by
  rw [bind_eq, exec_bind, modify, exec, exec, exec, pure_bind, execThen]

end Exec

section Observe

variable {call : Call σ τ} {src : Source σ} {cfg : Config} {n : Nat}

/-- What is seen of a block from outside. -/
def observe (call : Call σ τ) (src : Source σ) (cfg : Config) (n : Nat) (body : Block σ τ ν α)
    (pos : Nat) (v : ν) : Act (Option (Nat × α)) := do
  let (r, q, _) ← body.exec call src cfg n pos v
  match r with
  | .ok a => return some (q, a)
  | .error _ => return none

/-- A parser that is performed leads on if it succeeds; else nothing more is seen of the block. -/
theorem observe_step_bind (p : Parser σ τ α) (allowPartial : Bool) (f : α → Block σ τ ν β)
    (pos : Nat) (v : ν) :
    observe call src cfg n (step p allowPartial >>= f) pos v = (do
      match ← call p pos with
      | .ok q a => observe call src cfg n (f a) q v
      | .fail _ => return none) := by
  rw [observe, bind_eq, exec_bind, step, exec, bind_assoc, bind_assoc]
  exact Act.bind_congr_outcome (fun _ _ => rfl) fun _ => rfl

theorem observe_step (p : Parser σ τ α) (allowPartial : Bool) (pos : Nat) (v : ν) :
    observe call src cfg n (step p allowPartial) pos v = Outcome.state? <$> call p pos := by
  rw [observe, step, exec, bind_assoc, map_eq_pure_bind]
  exact Act.bind_congr_outcome (fun _ _ => rfl) fun _ => rfl

/-- A value that is changed at the end. -/
theorem observe_bind_pure (body : Block σ τ ν α) (f : α → β) (pos : Nat) (v : ν) :
    observe call src cfg n (body >>= fun a => Pure.pure (f a)) pos v =
      (Option.map fun (q, a) => (q, f a)) <$> observe call src cfg n body pos v := by
  rw [observe, bind_eq, exec_bind, observe, map_bind, bind_assoc]
  refine bind_congr fun ⟨r, q, w⟩ => ?_
  cases r with
  | ok a => rfl
  | error e => rfl

theorem observe_option (p : Parser σ τ α) (pos : Nat) (v : ν) :
    observe call src cfg n (option p) pos v = (do
      match ← call p pos with
      | .ok q a => return some (q, some a)
      | .fail _ => return some (pos, none)) := by
  rw [observe, option, exec, bind_assoc]
  exact Act.bind_congr_outcome (fun _ _ => rfl) fun _ => rfl

theorem observe_optionOr (p : Parser σ τ α) (default : α) (pos : Nat) (v : ν) :
    observe call src cfg n (optionOr p default) pos v = (do
      match ← call p pos with
      | .ok q a => return some (q, a)
      | .fail _ => return some (pos, default)) := by
  rw [observe, optionOr, exec, bind_assoc]
  exact Act.bind_congr_outcome (fun _ _ => rfl) fun _ => rfl

theorem observe_collect (p : Parser σ τ α) (pos : Nat) (v : ν) :
    observe call src cfg n (collect p) pos v = (do
      let (as, q) ← manyLoop (call p) n none pos
      return some (q, as)) := by
  rw [observe, collect, exec, bind_assoc]
  rfl

/-- A parser that is performed in an attempt, and recovered from where it started. -/
theorem observe_recover_step_bind (p : Parser σ τ α) (f : Option α → Block σ τ ν β) (pos : Nat)
    (v : ν) : observe call src cfg n (recover (step p false) >>= f) pos v = (do
      match ← call p pos with
      | .ok q a => observe call src cfg n (f (some a)) q v
      | .fail _ => observe call src cfg n (f none) pos v) := by
  rw [observe, bind_eq, exec_bind, recover, exec, step, exec, bind_assoc, bind_assoc, bind_assoc]
  exact Act.bind_congr_outcome (fun _ _ => rfl) fun _ => rfl

/-- Passes that are made first; the rest of the block goes on with what they come to. -/
theorem observe_passes_bind (body : Block σ τ ν Unit) (f : Unit → Block σ τ ν β) (pos : Nat)
    (v : ν) : observe call src cfg n (passes body >>= f) pos v = (do
      let (q, w) ← passLoop (fun q w => body.exec call src cfg n q w) n pos v
      observe call src cfg n (f ()) q w) := by
  rw [observe, bind_eq, exec_bind, passes, exec, bind_assoc, bind_assoc]
  rfl

end Observe

end Block

/-- What is seen of a block parser. -/
theorem Parser.state?_run_block [BEq σ] [Describe σ] (env : Env σ τ) (n : Nat) (init : ν)
    (body : Block σ τ ν α) (pos : Nat) :
    Outcome.state? <$> (block init body).run env (n + 1) pos =
      body.observe (fun p q => p.run env n q) env.source env.config n pos init := by
  rw [run, Block.observe, map_eq_pure_bind, bind_assoc]
  refine bind_congr fun ⟨r, q, w⟩ => ?_
  cases r with
  | ok a => rfl
  | error e => rfl

end Backtrack
