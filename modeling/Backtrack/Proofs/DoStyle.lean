import Backtrack.Proofs.Soundness
import Backtrack.Proofs.Steps

/-!
# Combinators and blocks

A combinator hands positions from one parser to the next; a block moves a position along, and leaves
by a signal. `DoStyle p body` lists the combinators that can be written as a block. Both come to the
same position and value and leave the same state, or both fail (`DoStyle.state?_run`). The positions
that they name when they fail may differ, but a parse does not show them
(`DoStyle.parseFrom?_eq`), unless a block fails by the signal of another block, with nothing in the
sink (`DoStyle.disagrees`).

Repetition can also be written as passes of a block. The two loops stop by the same rule but apply
it at different moments: a success that does not advance ends both, and only the passes keep its
value (`Parser.run_repeated_of_many`).
-/

namespace Backtrack

variable {σ ι : Type} {τ : ι → Type} {α β γ ν : Type}

/-- Performs the parsers of a list in order. -/
def Block.performAll : List (Parser σ τ α) → Block σ τ ν (List α)
  | [] => return []
  | p :: ps => do
    let a ← step p false
    let as ← performAll ps
    return a :: as

open Block in
/-- The block is the combinator, written as steps. -/
inductive DoStyle : {α : Type} → Parser σ τ α → Block σ τ Unit α → Prop where
  | pure {α : Type} (a : α) : DoStyle (.pure a) (return a)
  | map {α β : Type} (p : Parser σ τ α) (f : α → β) :
    DoStyle (p.map f) (do return f (← step p false))
  | flatMap {α β : Type} (p : Parser σ τ α) (next : α → Parser σ τ β) :
    DoStyle (p.flatMap next) (do step (next (← step p false)) false)
  | andMap {α β γ : Type} (p : Parser σ τ α) (q : Parser σ τ β) (f : α → β → γ) :
    DoStyle (p.andMap q f) (do return f (← step p false) (← step q false))
  | pair {α β : Type} (p : Parser σ τ α) (q : Parser σ τ β) :
    DoStyle (p.pair q) (do return (← step p false, ← step q false))
  | andThen {α β : Type} (p : Parser σ τ α) (q : Parser σ τ β) :
    DoStyle (p.andThen q) (do let _ ← step p false; step q false)
  | skip {α β : Type} (p : Parser σ τ α) (q : Parser σ τ β) :
    DoStyle (p.skip q) (do let a ← step p false; let _ ← step q false; return a)
  | between {α β γ : Type} (p : Parser σ τ α) (pre : Parser σ τ β) (post : Parser σ τ γ) :
    DoStyle (p.between pre post) (do
      let _ ← step pre false
      let a ← step p false
      let _ ← step post false
      return a)
  | either {α : Type} (p q : Parser σ τ α) :
    DoStyle (p.either q) (do
      match ← recover (step p false) with
      | some a => return a
      | none => step q false)
  | option {α : Type} (p : Parser σ τ α) (default : α) :
    DoStyle (p.option default) (optionOr p default)
  | opt {α : Type} (p : Parser σ τ α) : DoStyle p.opt (Block.option p)
  | many {α : Type} (p : Parser σ τ α) : DoStyle (p.many {}) (collect p)
  | sequence {α : Type} (ps : List (Parser σ τ α)) : DoStyle (.sequence ps) (performAll ps)

/-- A list of parsers in order, performed one by one. -/
theorem Parsers.state?_inOrder (call : Call σ τ) (src : Source σ) (cfg : Config) (n : Nat)
    (ps : List (Parser σ τ α)) (pos : Nat) (v : ν) :
    Outcome.state? <$> (ofList ps).inOrder call false pos =
      (Block.performAll ps).observe call src cfg n pos v := by
  induction ps generalizing pos with
  | nil => rfl
  | cons p ps ih =>
    rw [ofList, inOrder, map_bind, Block.performAll, Block.observe_step_bind]
    refine Act.bind_congr_outcome (fun q a => ?_) fun _ => rfl
    dsimp only
    rw [Block.observe_bind_pure, ← ih, map_bind, Functor.map_map, map_eq_pure_bind]
    exact Act.bind_congr_outcome (fun _ _ => rfl) fun _ => rfl

section

variable [BEq σ] [Describe σ] {env : Env σ τ}

open Block in
theorem Parser.state?_run_andMap (p : Parser σ τ α) (q : Parser σ τ β) (f : α → β → γ) (n pos : Nat)
    (v : ν) : Outcome.state? <$> (p.andMap q f).run env (n + 1) pos =
      observe (fun p q => p.run env n q) env.source env.config n
        (do return f (← step p false) (← step q false)) pos v := by
  rw [run, map_bind, observe_step_bind]
  refine Act.bind_congr_outcome (fun e a => ?_) fun _ => rfl
  dsimp only
  rw [map_bind, observe_step_bind]
  exact Act.bind_congr_outcome (fun _ _ => rfl) fun _ => rfl

/-- What is seen of a combinator is what is seen of the block. -/
theorem DoStyle.state?_run {p : Parser σ τ α} {body : Block σ τ Unit α} (h : DoStyle p body)
    (n pos : Nat) : Outcome.state? <$> p.run env n pos =
      Outcome.state? <$> (Parser.block () body).run env n pos := by
  cases n with
  | zero => rfl
  | succ n =>
    rw [Parser.state?_run_block]
    cases h with
    | pure a => rfl
    | map p f =>
      rw [Parser.run, map_bind, Block.observe_step_bind]
      exact Act.bind_congr_outcome (fun _ _ => rfl) fun _ => rfl
    | flatMap p next =>
      rw [Parser.run, map_bind, Block.observe_step_bind]
      refine Act.bind_congr_outcome (fun q a => ?_) fun _ => rfl
      exact (Block.observe_step (next a) false q ()).symm
    | andMap p q f => exact Parser.state?_run_andMap p q f n pos ()
    | pair p q => exact Parser.state?_run_andMap p q Prod.mk n pos ()
    | skip p q => exact Parser.state?_run_andMap p q (fun a _ => a) n pos ()
    | andThen p q =>
      rw [Parser.andThen, Parser.run, map_bind, Block.observe_step_bind]
      refine Act.bind_congr_outcome (fun e a => ?_) fun _ => rfl
      dsimp only
      rw [Block.observe_step, map_bind, map_eq_pure_bind]
      exact Act.bind_congr_outcome (fun _ _ => rfl) fun _ => rfl
    | between p pre post =>
      rw [Parser.run, map_bind, Block.observe_step_bind]
      refine Act.bind_congr_outcome (fun e b => ?_) fun _ => rfl
      dsimp only
      rw [map_bind, Block.observe_step_bind]
      refine Act.bind_congr_outcome (fun e a => ?_) fun _ => rfl
      dsimp only
      rw [map_bind, Block.observe_step_bind]
      exact Act.bind_congr_outcome (fun _ _ => rfl) fun _ => rfl
    | either p q =>
      rw [Parser.run, map_bind, Block.observe_recover_step_bind]
      refine Act.bind_congr_outcome (fun _ _ => rfl) fun e => ?_
      dsimp only
      rw [Block.observe_step, map_bind, map_eq_pure_bind]
      exact Act.bind_congr_outcome (fun _ _ => rfl) fun _ => rfl
    | option p default =>
      rw [Parser.run, map_bind, Block.observe_optionOr]
      exact Act.bind_congr_outcome (fun _ _ => rfl) fun _ => rfl
    | opt p =>
      rw [Parser.run, map_bind, Block.observe_option]
      exact Act.bind_congr_outcome (fun _ _ => rfl) fun _ => rfl
    | many p =>
      rw [Parser.run, map_bind, Block.observe_collect]
      rfl
    | sequence ps =>
      rw [Parser.sequence, Parser.run]
      exact Parsers.state?_inOrder _ _ _ _ ps pos ()

/-- The combinator and the block parse every source to the same result. Where they fail, they may
name different positions, but the result takes its index from the sink. -/
theorem DoStyle.parseFrom?_eq (henv : env.SelfContained) {p : Parser σ τ α}
    {body : Block σ τ Unit α} (h : DoStyle p body) (hp : p.SelfContained) (n : Nat)
    (built : List Nat) :
    p.parseFrom? n env built = (Parser.block () body).parseFrom? n env built := by
  have hstate : Outcome.state? <$> p.run env n 0 =
      Outcome.state? <$> (Parser.block () body).run env n 0 := h.state?_run n 0
  have hrun := congrFun hstate { built := built }
  rw [Act.map_apply, Act.map_apply] at hrun
  rw [Parser.parseFrom?, Parser.parseFrom?]
  cases hp' : p.run env n 0 { built := built } with
  | none =>
    rw [hp', Option.map_none, eq_comm, Option.map_eq_none_iff] at hrun
    rw [hrun]
  | some rt =>
    obtain ⟨r, t⟩ := rt
    rw [hp', Option.map_some, eq_comm, Option.map_eq_some_iff] at hrun
    obtain ⟨⟨r', t'⟩, hbody, heq⟩ := hrun
    rw [hbody]
    obtain ⟨hstate, rfl⟩ := Prod.mk.inj heq
    cases r with
    | ok q a =>
      cases r' with
      | ok q' a' => cases hstate; rfl
      | fail q' => cases hstate
    | fail q =>
      cases r' with
      | ok q' a' => cases hstate
      | fail q' =>
        obtain ⟨-, -, f, hf, -⟩ :=
          Parser.explained_of_fail henv hp env.source.isBoundary_zero hp'
        simp only [Option.map_some, ParseResult.ofOutcome, hf, Option.getD_some]

end

/-! ## Repetition -/

section

variable {item : Nat → Act (Outcome α)}

/-- A pass that runs an item and adds its value to the variables. -/
def pushPass (item : Nat → Act (Outcome α)) (pos : Nat) (as : List α) :
    Act (Except Abort Unit × Nat × List α) := do
  match ← item pos with
  | .ok q a => return (.ok (), q, as ++ [a])
  | .fail _ => return (.error ⟨pos, false⟩, pos, as)

/-- Passes that add the values of an item to the variables end where the repetition of the item
does, in the same state. They add the same values, or one more, which is that of an item that did
not advance. -/
theorem passLoop_pushPass
    (hitem : ∀ {pos e s t a}, item pos s = some (.ok e a, t) → pos ≤ e) (n : Nat)
    (pos : Nat) (as₀ : List α) (s : State) :
    (manyLoop item n none pos s = none → passLoop (pushPass item) n pos as₀ s = none) ∧
      ∀ {as e t}, manyLoop item n none pos s = some ((as, e), t) →
        passLoop (pushPass item) n pos as₀ s = some ((e, as₀ ++ as), t) ∨
        ∃ a u, item e u = some (.ok e a, t) ∧
          passLoop (pushPass item) n pos as₀ s = some ((e, as₀ ++ as ++ [a]), t) := by
  induction n generalizing pos as₀ s with
  | zero => exact ⟨fun _ => rfl, by simp [manyLoop, Act.exceeded]⟩
  | succ n ih =>
    rw [manyLoop, passLoop, if_neg (by simp), pushPass, bind_assoc, Act.bind_apply, Act.bind_apply]
    cases hi : item pos s with
    | none => exact ⟨fun _ => rfl, by simp⟩
    | some rt =>
      obtain ⟨r, t⟩ := rt
      cases r with
      | fail q =>
        refine ⟨fun h => (Option.some_ne_none _ h).elim, fun h => .inl ?_⟩
        cases h
        rw [List.append_nil]
        rfl
      | ok q a =>
        by_cases hlt : pos < q
        · simp only [Option.bind_some, if_pos hlt, Option.map_none, pure_bind]
          obtain ⟨hnone, hsome⟩ := ih q (as₀ ++ [a]) t
          refine ⟨fun h => hnone ?_, fun {as e t'} h => ?_⟩
          · rw [Act.bind_apply, Option.bind_eq_none_iff] at h
            exact Option.eq_none_iff_forall_ne_some.mpr fun x hx => Option.some_ne_none _ (h x hx)
          · obtain ⟨⟨as', e'⟩, t'', hrest, h⟩ := Act.bind_eq_some.mp h
            cases h
            simpa only [List.append_assoc, List.singleton_append] using hsome hrest
        · -- The item did not advance, and its value is the one that only the passes keep.
          have hq : q = pos := Nat.le_antisymm (Nat.le_of_not_lt hlt) (hitem hi)
          subst hq
          simp only [Option.bind_some, if_neg hlt, pure_bind]
          refine ⟨fun h => (Option.some_ne_none _ h).elim, fun h => .inr ?_⟩
          cases h
          rw [List.append_nil]
          exact ⟨a, s, hi, rfl⟩

end

/-- Performs a parser as long as it advances, and keeps the values. -/
def Parser.repeated (p : Parser σ τ α) : Parser σ τ (List α) :=
  .block [] do
    Block.passes do
      let a ← Block.step p false
      Block.modify (· ++ [a])
    Block.vars

section

variable [BEq σ] [Describe σ] {env : Env σ τ}

/-- A block of passes that keep the values of a parser, as passes over its runs. -/
theorem Parser.run_repeated (env : Env σ τ) (p : Parser σ τ α) (n pos : Nat) :
    p.repeated.run env (n + 1) pos = (do
      let (q, as) ← passLoop (pushPass fun q => p.run env n q) n pos []
      return .ok q as) := by
  have hpass : ∀ q (as : List α), (do let a ← Block.step p false; Block.modify (· ++ [a])).exec
      (fun p q => p.run env n q) env.source env.config n q as =
        pushPass (fun q => p.run env n q) q as := by
    intro q as
    rw [Block.bind_eq, Block.exec_bind, Block.step, Block.exec, bind_assoc, pushPass]
    exact Act.bind_congr_outcome (fun _ _ => rfl) fun _ => rfl
  rw [repeated, run, Block.bind_eq, Block.exec_bind, Block.passes, Block.exec, bind_assoc,
    bind_assoc]
  simp only [hpass]
  exact bind_congr fun _ => rfl

/-- Performing a parser again and again, and keeping the values, ends where the repetition of the
parser does, in the same state. The values are the same, or there is one more, of a success that
did not advance. -/
theorem Parser.run_repeated_of_many (henv : env.LibraryBuilt) {p : Parser σ τ α}
    (hp : p.LibraryBuilt) (n pos : Nat) (s : State) :
    ((p.many {}).run env n pos s = none → p.repeated.run env n pos s = none) ∧
      ∀ {r t}, (p.many {}).run env n pos s = some (r, t) → ∃ e as, r = .ok e as ∧
        (p.repeated.run env n pos s = some (.ok e as, t) ∨
          ∃ a m u, p.run env m e u = some (.ok e a, t) ∧
            p.repeated.run env n pos s = some (.ok e (as ++ [a]), t)) := by
  cases n with
  | zero => exact ⟨fun _ => rfl, by simp [run, Act.exceeded]⟩
  | succ n =>
    have hitem : ∀ {pos e s t a}, p.run env n pos s = some (.ok e a, t) → pos ≤ e :=
      fun hrun => (run_forward henv hp hrun).2.1
    obtain ⟨hnone, hsome⟩ := passLoop_pushPass hitem n pos [] s
    rw [run_repeated, run, Act.bind_apply, Act.bind_apply]
    cases hmany : manyLoop (fun q => p.run env n q) n none pos s with
    | none =>
      refine ⟨fun _ => ?_, by simp⟩
      rw [hnone hmany]
      rfl
    | some rt =>
      obtain ⟨⟨as, e⟩, t⟩ := rt
      refine ⟨fun h => (Option.some_ne_none _ h).elim, fun h => ?_⟩
      cases h
      refine ⟨e, as, rfl, ?_⟩
      rcases hsome hmany with h | ⟨a, u, hitem, h⟩
      · exact .inl (by rw [h]; rfl)
      · exact .inr ⟨a, n, u, hitem, by rw [h]; rfl⟩

/-- The passes keep the value of the last success, which did not advance. -/
example : (Parser.opt (.el 'a')).repeated.run (Env.bare (.text ['a', 'b'])) 4 0 {} =
    some (.ok 1 [some 'a', none], {
      sink := .reached 1 [.expected 1 "'a'"], entries := [⟨1, some (.expected 1 "'a'")⟩] }) := by
  decide +kernel

/-- If a parser never succeeds without advancing, performing it again and again is its
repetition. -/
theorem Parser.run_repeated_eq (henv : env.LibraryBuilt) {p : Parser σ τ α} (hp : p.LibraryBuilt)
    (hadvances : ∀ {m q s t a}, p.run env m q s ≠ some (.ok q a, t)) (n pos : Nat) :
    p.repeated.run env n pos = (p.many {}).run env n pos := by
  funext s
  obtain ⟨hnone, hsome⟩ := run_repeated_of_many henv hp n pos s
  cases hmany : (p.many {}).run env n pos s with
  | none => exact hnone hmany
  | some rt =>
    obtain ⟨e, as, hr, h | ⟨a, m, u, hstuck, -⟩⟩ := hsome hmany
    · rw [h, ← hr]
    · exact absurd hstuck hadvances

/-- A combinator and its block do the same, up to the position that a failure names, and parse every
source to the same result. Performing a parser again and again keeps what its repetition gives, and
at most one value more. -/
theorem DoStyle.agrees :
    (∀ {α : Type} {p : Parser σ τ α} {body : Block σ τ Unit α}, DoStyle p body → ∀ n pos,
      Outcome.state? <$> p.run env n pos =
        Outcome.state? <$> (Parser.block () body).run env n pos) ∧
    (env.SelfContained → ∀ {α : Type} {p : Parser σ τ α} {body : Block σ τ Unit α},
      DoStyle p body → p.SelfContained → ∀ n built,
      p.parseFrom? n env built = (Parser.block () body).parseFrom? n env built) ∧
    (env.LibraryBuilt → ∀ {α : Type} {p : Parser σ τ α}, p.LibraryBuilt → ∀ n pos,
      (∀ s, ((p.many {}).run env n pos s = none → p.repeated.run env n pos s = none) ∧
        ∀ {r t}, (p.many {}).run env n pos s = some (r, t) → ∃ e as, r = .ok e as ∧
          (p.repeated.run env n pos s = some (.ok e as, t) ∨
            ∃ a m u, p.run env m e u = some (.ok e a, t) ∧
              p.repeated.run env n pos s = some (.ok e (as ++ [a]), t))) ∧
      ((∀ {m q s t a}, p.run env m q s ≠ some (.ok q a, t)) →
        p.repeated.run env n pos = (p.many {}).run env n pos)) :=
  ⟨fun h n pos => h.state?_run n pos,
    fun henv _ _ _ h hp n built => h.parseFrom?_eq henv hp n built,
    fun henv _ _ hp n pos => ⟨fun s => Parser.run_repeated_of_many henv hp n pos s,
      fun hadvances => Parser.run_repeated_eq henv hp hadvances n pos⟩⟩

end

/-- Alternatives that share a prefix, and a parser that can succeed without advancing. -/
theorem DoStyle.agrees_prefix :
    let env := Env.bare (.text ['a', 'a', 'c'])
    let p : Parser Char (Empty.elim : Empty → Type) Char := (.andThen (.el 'a') (.el 'b'))
    let q : Parser Char (Empty.elim : Empty → Type) Char := .el 'a'
    let r : Parser Char (Empty.elim : Empty → Type) Unit := .fail none
    (∃ body, DoStyle (p.either q) body ∧ (p.either q).SelfContained ∧
      (p.either q).parseFrom? 4 env [] = (Parser.block () body).parseFrom? 4 env []) ∧
      (q.opt.LibraryBuilt ∧ ∃ e as t, (q.opt.many {}).run env 5 0 {} = some (.ok e as, t) ∧
        (q.opt.repeated.run env 5 0 {} = some (.ok e as, t) ∨
          ∃ a m u, q.opt.run env m e u = some (.ok e a, t) ∧
            q.opt.repeated.run env 5 0 {} = some (.ok e (as ++ [a]), t))) ∧
      r.LibraryBuilt ∧ (∀ {m q s t a}, r.run env m q s ≠ some (.ok q a, t)) ∧
        r.repeated.run env 5 0 = (r.many {}).run env 5 0 := by
  intro env p q r
  have henv : env.SelfContained := Env.bare_builtFrom _ _
  have henv' : env.LibraryBuilt := Env.bare_builtFrom _ _
  have hp : (p.either q).SelfContained := ⟨⟨trivial, trivial⟩, trivial⟩
  have hq : q.opt.LibraryBuilt := trivial
  have hr : r.LibraryBuilt := trivial
  have hadvances : ∀ {m q s t a}, r.run env m q s ≠ some (.ok q a, t) := by
    intro m q s t a h
    cases m <;> cases h
  obtain ⟨-, hparse, hrepeat⟩ := @DoStyle.agrees Char Empty Empty.elim _ _ env
  obtain ⟨r', t, hmany⟩ : ∃ r' t, (q.opt.many {}).run env 5 0 {} = some (r', t) := ⟨_, _, rfl⟩
  obtain ⟨e, as, rfl, hends⟩ := ((hrepeat henv' hq 5 0).1 {}).2 hmany
  exact ⟨⟨_, .either p q, hp, hparse henv (.either p q) hp 4 []⟩, ⟨hq, e, as, t, hmany, hends⟩, hr,
    hadvances, (hrepeat henv' hr 5 0).2 hadvances⟩

/-- A block that raises a signal of another block leaves nothing in the sink, and then a parse shows
the position that a failure names: a combinator hands it on, and the block that performs its parts
names the position where it has come to. -/
theorem DoStyle.disagrees :
    let env := Env.bare (.text ['a'])
    let given : Abort := ⟨0, false⟩
    let p : Parser Char (Empty.elim : Empty → Type) Char := .any
    let q : Parser Char (Empty.elim : Empty → Type) Unit := .raising given
    let body : Block Char (Empty.elim : Empty → Type) Unit (Char × Unit) := do
      return (← Block.step p false, ← Block.step q false)
    (∃ t, (Parser.signalOf (.el 'x') : Parser Char (Empty.elim : Empty → Type) _).run env 2 0 {} =
      some (.ok 0 (.error given), t)) ∧
      (p.LibraryBuilt ∧ q.LibraryBuilt ∧ DoStyle (p.pair q) body) ∧
      (p.pair q).parseFrom? 3 env [] = some (.failure 0 [], []) ∧
      (Parser.block () body).parseFrom? 3 env [] = some (.failure 1 [], []) := by
  intro env given p q body
  have hpair : (p.pair q).parseFrom? 3 env [] = some (.failure 0 [], []) := by decide +kernel
  have hblock : (Parser.block () body).parseFrom? 3 env [] = some (.failure 1 [], []) := by
    decide +kernel
  exact ⟨⟨_, Parser.run_signalOf_fail rfl⟩, ⟨trivial, Parser.raising_libraryBuilt given, .pair p q⟩,
    hpair, hblock⟩

end Backtrack
