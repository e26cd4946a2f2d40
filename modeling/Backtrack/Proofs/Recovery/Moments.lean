import Backtrack.Proofs.ComesTo
import Mathlib.Logic.Relation

/-!
# Blocks, step by step

`Block.exec` says what a block comes to. To speak of what happens on the way, a block is run here
one step after another. At any moment there is an innermost body, the steps of it that are left, and
what lies around it (`Block.Frames`): the attempts and passes that were entered, each with the
position where its body started, up to the block itself.

Parsers are run in one step, and so is the repetition of a parser. There is no step where the block
has come to its end, or where a parser never returns.

What the block comes to is where the steps lead (`Parser.comesTo_block`). In one direction a run is
cut into steps, whatever lies around the body (`Block.reaches_of_exec`). In the other, what is left
to do at a moment is put together again (`Moment.finish`), and a step backwards does not change what
that comes to.
-/

namespace Backtrack

variable {σ ι : Type} {τ : ι → Type} {α β γ ν : Type}

open Act Relation

namespace Block

/-- What lies around the innermost body, which has values in the last type, up to a block with
values in `α`. Every body has a position where it started. -/
inductive Frames (σ : Type) {ι : Type} (τ : ι → Type) (ν α : Type) : Type → Type 1 where
  /-- The body is that of the block. -/
  | block (start : Nat) : Frames σ τ ν α α
  /-- The body is tried, and what comes after it is known. -/
  | attempt {β γ : Type} (start : Nat) (next : Option β → Block σ τ ν γ)
    (outer : Frames σ τ ν α γ) : Frames σ τ ν α β
  /-- The body is a pass of a loop. -/
  | pass {γ : Type} (start : Nat) (body : Block σ τ ν Unit) (next : Block σ τ ν γ)
    (outer : Frames σ τ ν α γ) : Frames σ τ ν α Unit

/-- Where the innermost body started. -/
def Frames.start : Frames σ τ ν α β → Nat
  | block start | attempt start .. | pass start .. => start

/-- A moment in the run of a block: the steps that are left in the innermost body, and where they
stand. -/
structure Moment (σ : Type) {ι : Type} (τ : ι → Type) (ν α : Type) where
  {β : Type}
  frames : Frames σ τ ν α β
  rest : Block σ τ ν β
  position : Nat
  vars : ν
  state : State

/-- Where a recovery goes on from a signal: at the position reached if the signal allows a partial
result, and else where the body started. -/
def resumed (e : Abort) (start pos : Nat) : Nat := if e.allowPartial then pos else start

variable [BEq σ] [Describe σ]

/-- One step of a block. -/
inductive Moment.Step (env : Env σ τ) : Moment σ τ ν α → Moment σ τ ν α → Prop where
  | succeed {β γ : Type} {F : Frames σ τ ν α γ} {p : Parser σ τ β} {allowPartial : Bool}
    {next : Except Abort β → Block σ τ ν γ} {pos q : Nat} {v : ν} {s t : State} {b : β}
    (hrun : p.ComesTo env pos s (.ok q b) t) :
    Step env ⟨F, .perform p allowPartial next, pos, v, s⟩ ⟨F, next (.ok b), q, v, t⟩
  | fail {β γ : Type} {F : Frames σ τ ν α γ} {p : Parser σ τ β} {allowPartial : Bool}
    {next : Except Abort β → Block σ τ ν γ} {pos f : Nat} {v : ν} {s t : State}
    (hrun : p.ComesTo env pos s (.fail f) t) :
    Step env ⟨F, .perform p allowPartial next, pos, v, s⟩
      ⟨F, next (.error ⟨pos, allowPartial⟩), pos, v, t⟩
  | many {β γ : Type} {F : Frames σ τ ν α γ} {p : Parser σ τ β}
    {next : List β → Block σ τ ν γ} {pos q : Nat} {v : ν} {s t : State} {bs : List β}
    (hrun : p.Repeats env none pos s bs q t) :
    Step env ⟨F, .many p next, pos, v, s⟩ ⟨F, next bs, q, v, t⟩
  | tryBody {β γ : Type} {F : Frames σ τ ν α γ} {body : Block σ τ ν β}
    {next : Option β → Block σ τ ν γ} {pos : Nat} {v : ν} {s : State} :
    Step env ⟨F, .attempt body next, pos, v, s⟩ ⟨.attempt pos next F, body, pos, v, s⟩
  | triedBody {β γ : Type} {F : Frames σ τ ν α γ} {next : Option β → Block σ τ ν γ}
    {start pos : Nat} {b : β} {v : ν} {s : State} :
    Step env ⟨.attempt start next F, .ret b, pos, v, s⟩ ⟨F, next (some b), pos, v, s⟩
  | recover {β γ : Type} {F : Frames σ τ ν α γ} {next : Option β → Block σ τ ν γ}
    {start pos : Nat} {e : Abort} {v : ν} {s : State} :
    Step env ⟨.attempt start next F, .abort e, pos, v, s⟩
      ⟨F, next none, resumed e start pos, v, s⟩
  | firstPass {γ : Type} {F : Frames σ τ ν α γ} {body : Block σ τ ν Unit} {next : Block σ τ ν γ}
    {pos : Nat} {v : ν} {s : State} :
    Step env ⟨F, .loop body next, pos, v, s⟩ ⟨.pass pos body next F, body, pos, v, s⟩
  | nextPass {γ : Type} {F : Frames σ τ ν α γ} {body : Block σ τ ν Unit} {next : Block σ τ ν γ}
    {start pos : Nat} {v : ν} {s : State} (hlt : start < pos) :
    Step env ⟨.pass start body next F, .ret (), pos, v, s⟩ ⟨.pass pos body next F, body, pos, v, s⟩
  | lastPass {γ : Type} {F : Frames σ τ ν α γ} {body : Block σ τ ν Unit} {next : Block σ τ ν γ}
    {start pos : Nat} {v : ν} {s : State} (hle : pos ≤ start) :
    Step env ⟨.pass start body next F, .ret (), pos, v, s⟩ ⟨F, next, pos, v, s⟩
  | leaveLoop {γ : Type} {F : Frames σ τ ν α γ} {body : Block σ τ ν Unit} {next : Block σ τ ν γ}
    {start pos : Nat} {e : Abort} {v : ν} {s : State} :
    Step env ⟨.pass start body next F, .abort e, pos, v, s⟩ ⟨F, next, resumed e start pos, v, s⟩
  | position {γ : Type} {F : Frames σ τ ν α γ} {next : Nat → Block σ τ ν γ} {pos : Nat} {v : ν}
    {s : State} : Step env ⟨F, .position next, pos, v, s⟩ ⟨F, next pos, pos, v, s⟩
  | ask {γ : Type} {F : Frames σ τ ν α γ} {next : Source σ → Config → Block σ τ ν γ} {pos : Nat}
    {v : ν} {s : State} :
    Step env ⟨F, .ask next, pos, v, s⟩ ⟨F, next env.source env.config, pos, v, s⟩
  | inspect {γ : Type} {F : Frames σ τ ν α γ} {next : Sink → Block σ τ ν γ} {pos : Nat} {v : ν}
    {s : State} : Step env ⟨F, .inspect next, pos, v, s⟩ ⟨F, next s.sink, pos, v, s⟩
  | register {γ : Type} {F : Frames σ τ ν α γ} {index : Nat} {record : Option Expectation}
    {inPlace : ∀ e, record = some e → e.index = index} {next : Block σ τ ν γ} {pos : Nat} {v : ν}
    {s t : State} (hrun : Act.register index record s = some ((), t)) :
    Step env ⟨F, .register index record inPlace next, pos, v, s⟩ ⟨F, next, pos, v, t⟩
  | get {γ : Type} {F : Frames σ τ ν α γ} {next : ν → Block σ τ ν γ} {pos : Nat} {v : ν}
    {s : State} : Step env ⟨F, .get next, pos, v, s⟩ ⟨F, next v, pos, v, s⟩
  | set {γ : Type} {F : Frames σ τ ν α γ} {next : Block σ τ ν γ} {pos : Nat} {v w : ν}
    {s : State} : Step env ⟨F, .set w next, pos, v, s⟩ ⟨F, next, pos, w, s⟩

/-- Some steps, or none. -/
def Moment.Reaches (env : Env σ τ) : Moment σ τ ν α → Moment σ τ ν α → Prop :=
  ReflTransGen (Step env)

/-- The start of a block. -/
def Moment.begin (init : ν) (body : Block σ τ ν α) (pos : Nat) (s : State) : Moment σ τ ν α :=
  ⟨.block pos, body, pos, init, s⟩

variable {env : Env σ τ}

open Moment

section Signals

variable {F : Frames σ τ ν α γ} {start pos : Nat} {e : Abort} {v : ν} {s : State}
  {m : Moment σ τ ν α}

/-- From a signal in the body of an attempt there is one way on. -/
theorem Moment.step_attempt_abort {next : Option β → Block σ τ ν γ} :
    Step env ⟨.attempt start next F, .abort e, pos, v, s⟩ m ↔
      m = ⟨F, next none, resumed e start pos, v, s⟩ := by
  constructor
  · intro h
    cases h
    rfl
  · rintro rfl
    exact .recover

/-- And so from a signal in a pass. -/
theorem Moment.step_pass_abort {body : Block σ τ ν Unit} {next : Block σ τ ν γ} :
    Step env ⟨.pass start body next F, .abort e, pos, v, s⟩ m ↔
      m = ⟨F, next, resumed e start pos, v, s⟩ := by
  constructor
  · intro h
    cases h
    rfl
  · rintro rfl
    exact .leaveLoop

end Signals

/-! ## Where bodies started -/

/-- Every body around was entered at a moment in `M`, at the position where it is said to have
started. -/
def Frames.Entered (M : Moment σ τ ν α → Prop) : {β : Type} → Frames σ τ ν α β → Prop
  | _, .block _ => True
  | _, .attempt start next outer =>
    (∃ body v s, M ⟨outer, .attempt body next, start, v, s⟩) ∧ outer.Entered M
  | _, .pass start body next outer =>
    (∃ v s, M ⟨.pass start body next outer, body, start, v, s⟩) ∧ outer.Entered M

theorem Moment.Step.entered {M : Moment σ τ ν α → Prop} (hM : ∀ m m', M m → Step env m m' → M m')
    {m m' : Moment σ τ ν α} (h : Step env m m') (hm : M m) (hframes : m.frames.Entered M) :
    m'.frames.Entered M := by
  cases h with
  | tryBody => exact ⟨⟨_, _, _, hm⟩, hframes⟩
  | firstPass => exact ⟨⟨_, _, hM _ _ hm .firstPass⟩, hframes⟩
  | nextPass hlt => exact ⟨⟨_, _, hM _ _ hm (.nextPass hlt)⟩, hframes.2⟩
  | triedBody | recover | lastPass _ | leaveLoop => exact hframes.2
  | _ => exact hframes

/-- In the run of a block every body was entered where it is said to have started. -/
theorem Moment.Reaches.entered {init : ν} {body : Block σ τ ν α} {pos : Nat} {s : State}
    {m : Moment σ τ ν α} (h : Reaches env (.begin init body pos s) m) :
    m.frames.Entered (Reaches env (.begin init body pos s)) := by
  induction h with
  | refl => exact trivial
  | tail hreach hstep ih => exact hstep.entered (fun _ _ => .tail) hreach ih

/-! ## A run is a sequence of steps -/

/-- If each pass is a sequence of steps, the passes of a loop are one. The induction is on the bound
on the passes. -/
theorem reaches_of_passLoop {n : Nat} {body : Block σ τ ν Unit} {next : Block σ τ ν γ}
    {F : Frames σ τ ν α γ} {pass : Nat → ν → Act (Except Abort Unit × Nat × ν)}
    (hpass : ∀ start q v s r q' w t, pass q v s = some ((r, q', w), t) →
      Reaches env ⟨.pass start body next F, body, q, v, s⟩
        ⟨.pass start body next F, orAbort r, q', w, t⟩)
    {pos q : Nat} {v w : ν} {s t : State} (h : passLoop pass n pos v s = some ((q, w), t)) :
    Reaches env ⟨.pass pos body next F, body, pos, v, s⟩ ⟨F, next, q, w, t⟩ := by
  induction n generalizing pos v s with
  | zero => cases h
  | succ n ih =>
    rw [passLoop] at h
    obtain ⟨⟨r, q', w'⟩, u, hbody, h⟩ := bind_eq_some.mp h
    have hfirst := hpass pos pos v s r q' w' u hbody
    cases r with
    | error e =>
      cases h
      exact hfirst.tail .leaveLoop
    | ok x =>
      dsimp only at h
      by_cases hlt : pos < q'
      · rw [if_pos hlt] at h
        exact (hfirst.tail (.nextPass hlt)).trans (ih h)
      · rw [if_neg hlt] at h
        cases h
        exact hfirst.tail (.lastPass (Nat.le_of_not_lt hlt))

/-- What a body comes to, the steps of the body lead to, whatever lies around it. -/
theorem reaches_of_exec {n : Nat} : ∀ {γ : Type} (body : Block σ τ ν γ) (F : Frames σ τ ν α γ)
    {pos q : Nat} {v w : ν} {s t : State} {r : Except Abort γ},
    body.exec (fun p q => p.run env n q) env.source env.config n pos v s = some ((r, q, w), t) →
      Reaches env ⟨F, body, pos, v, s⟩ ⟨F, orAbort r, q, w, t⟩
  | _, .ret a, F, pos, q, v, w, s, t, r, h => by
    rw [exec] at h
    cases h
    exact .refl
  | _, .abort e, F, pos, q, v, w, s, t, r, h => by
    rw [exec] at h
    cases h
    exact .refl
  | _, .perform p allowPartial next, F, pos, q, v, w, s, t, r, h => by
    rw [exec] at h
    obtain ⟨x, u, hrun, h⟩ := bind_eq_some.mp h
    cases x with
    | ok e b => exact .head (.succeed ⟨n, hrun⟩) (reaches_of_exec (next (.ok b)) F h)
    | fail f => exact .head (.fail ⟨n, hrun⟩) (reaches_of_exec (next (.error _)) F h)
  | _, .many p next, F, pos, q, v, w, s, t, r, h => by
    rw [exec] at h
    obtain ⟨⟨bs, e⟩, u, hloop, h⟩ := bind_eq_some.mp h
    exact .head (.many ⟨n, hloop⟩) (reaches_of_exec (next bs) F h)
  | _, .attempt body next, F, pos, q, v, w, s, t, r, h => by
    rw [exec] at h
    obtain ⟨⟨x, e, v'⟩, u, hbody, h⟩ := bind_eq_some.mp h
    -- The inner steps run with one frame more around them.
    have htried := reaches_of_exec body (.attempt pos next F) hbody
    cases x with
    | ok b =>
      exact .head .tryBody ((htried.tail .triedBody).trans (reaches_of_exec (next (some b)) F h))
    | error e' =>
      exact .head .tryBody ((htried.tail .recover).trans (reaches_of_exec (next none) F h))
  | _, .loop body next, F, pos, q, v, w, s, t, r, h => by
    rw [exec] at h
    obtain ⟨⟨e, v'⟩, u, hloop, h⟩ := bind_eq_some.mp h
    have hpasses : Reaches env ⟨.pass pos body next F, body, pos, v, s⟩ ⟨F, next, e, v', u⟩ :=
      reaches_of_passLoop
        (fun start _ _ _ _ _ _ _ h => reaches_of_exec body (.pass start body next F) h) hloop
    exact .head .firstPass (hpasses.trans (reaches_of_exec next F h))
  | _, .position next, F, pos, q, v, w, s, t, r, h => by
    rw [exec] at h
    exact .head .position (reaches_of_exec (next pos) F h)
  | _, .ask next, F, pos, q, v, w, s, t, r, h => by
    rw [exec] at h
    exact .head .ask (reaches_of_exec (next env.source env.config) F h)
  | _, .inspect next, F, pos, q, v, w, s, t, r, h => by
    rw [exec] at h
    exact .head .inspect (reaches_of_exec (next s.sink) F h)
  | _, .register index record inPlace next, F, pos, q, v, w, s, t, r, h => by
    rw [exec] at h
    obtain ⟨_, u, hregister, h⟩ := bind_eq_some.mp h
    exact .head (.register hregister) (reaches_of_exec next F h)
  | _, .get next, F, pos, q, v, w, s, t, r, h => by
    rw [exec] at h
    exact .head .get (reaches_of_exec (next v) F h)
  | _, .set w' next, F, pos, q, v, w, s, t, r, h => by
    rw [exec] at h
    exact .head .set (reaches_of_exec next F h)

/-! ## Steps are those of a run -/

/-- A block in an environment, with a bound on the depth. -/
abbrev execIn (env : Env σ τ) (n : Nat) (body : Block σ τ ν β) (pos : Nat) (v : ν) :
    Act (Except Abort β × Nat × ν) :=
  body.exec (fun p q => p.run env n q) env.source env.config n pos v

/-- What a loop does after a pass that started at `start`. -/
def afterPass (pass : Nat → ν → Act (Except Abort Unit × Nat × ν)) (n start : Nat) :
    Except Abort Unit × Nat × ν → Act (Nat × ν)
  | (.ok (), q, v) => if start < q then passLoop pass n q v else return (q, v)
  | (.error e, q, v) => return (resumed e start q, v)

theorem passLoop_succ (pass : Nat → ν → Act (Except Abort Unit × Nat × ν)) (n pos : Nat) (v : ν) :
    passLoop pass (n + 1) pos v = pass pos v >>= afterPass pass n pos := by
  rw [passLoop]
  congr 1
  funext x
  obtain ⟨r, q, w⟩ := x
  cases r <;> rfl

/-- What is left to do when the innermost body has come to its end. -/
def Frames.resume (env : Env σ τ) (n : Nat) : {β : Type} → Frames σ τ ν α β →
    Except Abort β × Nat × ν → Act (Except Abort α × Nat × ν)
  | _, .block _, x => return x
  | _, .attempt _ next outer, (.ok b, q, v) => do
    outer.resume env n (← (next (some b)).execIn env n q v)
  | _, .attempt start next outer, (.error e, q, v) => do
    outer.resume env n (← (next none).execIn env n (resumed e start q) v)
  | _, .pass start body next outer, x => do
    let (q, v) ← afterPass (body.execIn env n) n start x
    outer.resume env n (← next.execIn env n q v)

/-- What is left to do at a moment. -/
def Moment.finish (env : Env σ τ) (n : Nat) (m : Moment σ τ ν α) :
    Act (Except Abort α × Nat × ν) := do
  m.frames.resume env n (← m.rest.execIn env n m.position m.vars)

section Bounds

variable {m n : Nat}

theorem execIn_simulates_of_le (hmn : m ≤ n) (body : Block σ τ ν β) (pos : Nat) (v : ν) :
    Simulates (Both fun _ => True) (body.execIn env m pos v) (body.execIn env n pos v) :=
  exec_of_le .trivial _ _ hmn (fun p q => Parser.run_simulates_of_le .trivial hmn p q) body pos v

theorem afterPass_simulates_of_le (hmn : m ≤ n) (body : Block σ τ ν Unit) (start : Nat)
    (x : Except Abort Unit × Nat × ν) :
    Simulates (Both fun _ => True) (afterPass (body.execIn env m) m start x)
      (afterPass (body.execIn env n) n start x) := by
  obtain ⟨r, q, v⟩ := x
  cases r with
  | error e => exact .pure _
  | ok _ =>
    rw [afterPass, afterPass]
    split
    · exact .passLoop (execIn_simulates_of_le hmn body) hmn q v
    · exact .pure _

theorem Frames.resume_simulates_of_le (hmn : m ≤ n) (F : Frames σ τ ν α β)
    (x : Except Abort β × Nat × ν) :
    Simulates (Both fun _ => True) (F.resume env m x) (F.resume env n x) := by
  induction F with
  | block start => exact .pure _
  | attempt start next outer ih =>
    obtain ⟨r, q, v⟩ := x
    cases r with
    | ok b =>
      rw [resume, resume]
      exact (execIn_simulates_of_le hmn (next (some b)) q v).bind fun y => ih y
    | error e =>
      rw [resume, resume]
      exact (execIn_simulates_of_le hmn (next none) _ v).bind fun y => ih y
  | pass start body next outer ih =>
    rw [resume, resume]
    refine (afterPass_simulates_of_le hmn body start x).bind fun y => ?_
    exact (execIn_simulates_of_le hmn next y.1 y.2).bind fun z => ih z

end Bounds

/-- With some bound, what is left to do at the moment comes to `x`. -/
def Moment.Finishes (env : Env σ τ) (m : Moment σ τ ν α) (x : Except Abort α × Nat × ν)
    (t : State) : Prop :=
  Returns (fun n => m.finish env n) m.state x t

theorem Moment.growing_finish (env : Env σ τ) (m : Moment σ τ ν α) :
    Growing fun n => m.finish env n :=
  Simulates.growing fun _ _ hmn =>
    (execIn_simulates_of_le hmn m.rest _ _).bind fun x => m.frames.resume_simulates_of_le hmn x

/-- The passes of a loop, from `pos` on, come to an end at `q`. -/
def Passes (env : Env σ τ) (body : Block σ τ ν Unit) (pos : Nat) (v : ν) (s : State) (q : Nat)
    (w : ν) (t : State) : Prop :=
  Returns (fun n => passLoop (body.execIn env n) n pos v) s (q, w) t

theorem growing_passLoop (env : Env σ τ) (body : Block σ τ ν Unit) (pos : Nat) (v : ν) :
    Growing fun n => passLoop (body.execIn env n) n pos v :=
  Simulates.growing fun _ _ hmn => .passLoop (execIn_simulates_of_le hmn body) hmn pos v

/-- At the start of a pass, the loop is left to do and then what comes after it. -/
theorem Moment.Finishes.of_pass {body : Block σ τ ν Unit} {next : Block σ τ ν γ}
    {F : Frames σ τ ν α γ} {pos : Nat} {v : ν} {s t : State} {x : Except Abort α × Nat × ν}
    (h : Finishes env ⟨.pass pos body next F, body, pos, v, s⟩ x t) :
    ∃ q w u, Passes env body pos v s q w u ∧ Finishes env ⟨F, next, q, w, u⟩ x t := by
  obtain ⟨n, h⟩ := h
  obtain ⟨y, s', hbody, h⟩ := bind_eq_some.mp h
  rw [Frames.resume] at h
  obtain ⟨⟨q, w⟩, u, hafter, h⟩ := bind_eq_some.mp h
  have hloop : passLoop (body.execIn env n) (n + 1) pos v s = some ((q, w), u) := by
    rw [passLoop_succ]
    exact bind_eq_some.mpr ⟨y, s', hbody, hafter⟩
  -- The first pass had the bound `n`, and so had the passes after it: one more for the loop.
  have hmore : Simulates (Both fun _ => True) (passLoop (body.execIn env n) (n + 1) pos v)
      (passLoop (body.execIn env (n + 1)) (n + 1) pos v) :=
    .passLoop (execIn_simulates_of_le (Nat.le_succ n) body) (Nat.le_refl _) pos v
  exact ⟨q, w, u, ⟨n + 1, hmore.eq_some hloop⟩, n, h⟩

/-- A step backwards does not change what is left to do. -/
theorem Moment.Step.finishes {m m' : Moment σ τ ν α} (h : Step env m m')
    {x : Except Abort α × Nat × ν} {t : State} (hx : m'.Finishes env x t) :
    m.Finishes env x t := by
  have hgrowing := Moment.growing_finish env m'
  cases h with
  | succeed hrun | fail hrun =>
    obtain ⟨n, hrun, hx⟩ := Returns.both (Parser.growing_run env _ _) hgrowing hrun hx
    obtain ⟨y, u, hrest, hresume⟩ := bind_eq_some.mp hx
    refine ⟨n, bind_eq_some.mpr ⟨y, u, ?_, hresume⟩⟩
    rw [execIn, exec]
    exact bind_eq_some.mpr ⟨_, _, hrun, hrest⟩
  | many hrun =>
    obtain ⟨n, hrun, hx⟩ := Returns.both (Parser.growing_manyLoop env _ _ _) hgrowing hrun hx
    obtain ⟨y, u, hrest, hresume⟩ := bind_eq_some.mp hx
    refine ⟨n, bind_eq_some.mpr ⟨y, u, ?_, hresume⟩⟩
    rw [execIn, exec]
    exact bind_eq_some.mpr ⟨_, _, hrun, hrest⟩
  | tryBody =>
    obtain ⟨n, hx⟩ := hx
    obtain ⟨⟨r, q, w⟩, u, hbody, hresume⟩ := bind_eq_some.mp hx
    cases r with
    | ok b | error e =>
      obtain ⟨y, u', hnext, hresume⟩ := bind_eq_some.mp hresume
      refine ⟨n, bind_eq_some.mpr ⟨y, u', ?_, hresume⟩⟩
      rw [execIn, exec]
      exact bind_eq_some.mpr ⟨_, _, hbody, hnext⟩
  | triedBody | recover =>
    obtain ⟨n, hx⟩ := hx
    have hresume : (Moment.finish env n _) _ = some (x, t) := hx
    refine ⟨n, ?_⟩
    dsimp only
    rw [finish, execIn, exec, pure_bind]
    exact hresume
  | firstPass =>
    obtain ⟨q, w, u, hloop, hnext⟩ := Finishes.of_pass hx
    obtain ⟨n, hloop, hnext⟩ :=
      Returns.both (growing_passLoop env _ _ _) (Moment.growing_finish env _) hloop hnext
    obtain ⟨y, u', hnext, hresume⟩ := bind_eq_some.mp hnext
    refine ⟨n, bind_eq_some.mpr ⟨y, u', ?_, hresume⟩⟩
    rw [execIn, exec]
    exact bind_eq_some.mpr ⟨(q, w), u, hloop, hnext⟩
  | nextPass hlt =>
    obtain ⟨q, w, u, hloop, hnext⟩ := Finishes.of_pass hx
    obtain ⟨n, hloop, hnext⟩ :=
      Returns.both (growing_passLoop env _ _ _) (Moment.growing_finish env _) hloop hnext
    refine ⟨n, ?_⟩
    dsimp only
    rw [finish, execIn, exec, pure_bind, Frames.resume, afterPass, if_pos hlt]
    exact bind_eq_some.mpr ⟨(q, w), u, hloop, hnext⟩
  | lastPass hle =>
    obtain ⟨n, hx⟩ := hx
    refine ⟨n, ?_⟩
    dsimp only
    rw [finish, execIn, exec, pure_bind, Frames.resume, afterPass, if_neg (Nat.not_lt_of_le hle)]
    exact hx
  | leaveLoop =>
    obtain ⟨n, hx⟩ := hx
    refine ⟨n, ?_⟩
    dsimp only
    rw [finish, execIn, exec, pure_bind, Frames.resume, afterPass]
    exact hx
  | register hrun =>
    obtain ⟨n, hx⟩ := hx
    obtain ⟨y, u, hrest, hresume⟩ := bind_eq_some.mp hx
    refine ⟨n, bind_eq_some.mpr ⟨y, u, ?_, hresume⟩⟩
    rw [execIn, exec]
    exact bind_eq_some.mpr ⟨_, _, hrun, hrest⟩
  | position | ask | inspect | get | set =>
    obtain ⟨n, hx⟩ := hx
    obtain ⟨y, u, hrest, hresume⟩ := bind_eq_some.mp hx
    refine ⟨n, bind_eq_some.mpr ⟨y, u, ?_, hresume⟩⟩
    rw [execIn, exec]
    exact hrest

theorem Moment.Reaches.finishes {m m' : Moment σ τ ν α} (h : Reaches env m m')
    {x : Except Abort α × Nat × ν} {t : State} (hx : m'.Finishes env x t) :
    m.Finishes env x t := by
  induction h using ReflTransGen.head_induction_on with
  | refl => exact hx
  | head hstep _ ih => exact hstep.finishes ih

/-- What the body of a block comes to is where its steps lead. -/
theorem exec_iff_reaches {init : ν} {body : Block σ τ ν α} {pos q : Nat} {w : ν} {s t : State}
    {r : Except Abort α} :
    Returns (fun n => body.execIn env n pos init) s (r, q, w) t ↔
      Reaches env (.begin init body pos s) ⟨.block pos, orAbort r, q, w, t⟩ := by
  constructor
  · rintro ⟨n, h⟩
    exact reaches_of_exec body (.block pos) h
  · intro h
    have hend : Finishes env ⟨.block pos, orAbort r, q, w, t⟩ (r, q, w) t := by
      refine ⟨0, ?_⟩
      dsimp only
      rw [finish, execIn]
      cases r <;> rw [orAbort, exec] <;> rfl
    obtain ⟨n, hn⟩ := h.finishes hend
    obtain ⟨y, u, hbody, hresume⟩ := bind_eq_some.mp hn
    cases hresume
    exact ⟨n, hbody⟩

end Block

namespace Parser

variable [BEq σ] [Describe σ] {env : Env σ τ} {init : ν} {body : Block σ τ ν α}
  {pos e : Nat} {a : α} {s t : State} {r : Outcome α}

open Block Moment

/-- A block comes to the value or the signal that ends its body, at the position reached or where
the signal was raised. -/
theorem comesTo_block :
    (block init body).ComesTo env pos s r t ↔
      ∃ x q w, Reaches env (.begin init body pos s) ⟨.block pos, orAbort x, q, w, t⟩ ∧
        r = match x with
          | .ok a => .ok q a
          | .error e => .fail e.position := by
  simp only [← exec_iff_reaches]
  constructor
  · intro h
    obtain ⟨n, h⟩ := h.exists_run
    rw [run] at h
    obtain ⟨⟨x, q, w⟩, u, hbody, h⟩ := bind_eq_some.mp h
    cases x <;> cases h <;> exact ⟨_, q, w, ⟨n, hbody⟩, rfl⟩
  · rintro ⟨x, q, w, ⟨n, hbody⟩, rfl⟩
    refine .of_run (n := n + 1) ?_
    rw [run]
    refine bind_eq_some.mpr ⟨(x, q, w), t, hbody, ?_⟩
    cases x <;> rfl

end Parser

end Backtrack
