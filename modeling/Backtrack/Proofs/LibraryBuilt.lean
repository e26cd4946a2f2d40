import Backtrack.Proofs.Act
import Mathlib.Data.Set.Insert

/-!
# Parsers that are made of the library

A parser is library-built if it is made of leaves, combinators, rules and blocks whose only contact
with the sink is that they run such parsers. It does not contain a function on the parse context,
and no block in it reads the sink or registers a failure by hand. A step that depends on a value
has to be library-built whatever the value is.

`Parser.BuiltFrom law` says this, and that every block in the parser and its initial variables
satisfy `law`. `Parser.LibraryBuilt` puts no further condition on blocks.

`Parser.Oblivious` allows blocks one thing more, to register failures by hand.

The other condition at hand is `Block.OwnAborts`: every signal that the block raises is one that it
got from a parser that it ran itself. It may keep the signal in a variable and raise it much later,
also after its position has moved on or has been rolled back. Nothing in the language of blocks
enforces this. A signal is a plain value, so a block can give it away as its result
(`Parser.signalOf`), and another block can raise it (`Parser.raising`), where its position says
nothing about that block. The early exit is meant to be passed on to the nearest recovery of the
same block or to its end, and to be seen nowhere else; results about where failures lie, and about
what they leave in the sink, hold of blocks that keep to this, and the others hold of all.
-/

namespace Backtrack

variable {σ ι : Type} {τ : ι → Type} {α β ν : Type}

/-- A condition on blocks and the variables they start with. -/
abbrev BlockLaw (σ : Type) {ι : Type} (τ : ι → Type) := {ν α : Type} → ν → Block σ τ ν α → Prop

mutual

/-- The parser is made of leaves, combinators, rules, and blocks that satisfy `law`. -/
def Parser.BuiltFrom (law : BlockLaw σ τ) : {α : Type} → Parser σ τ α → Prop
  | _, .pure _ | _, .fail _ | _, .any | _, .eoi | _, .el _ | _, .oneOf _ | _, .noneOf _
  | _, .satisfy _ | _, .literal _ | _, .charWith _ | _, .regexGroup .. | _, .regexGroups _
  | _, .rule _ => True
  | _, .covered p | _, .map p _ | _, .option p _ | _, .opt p | _, .many p _
  | _, .manyAccum p .. | _, .lookAhead p | _, .notFollowedBy p | _, .label p _
  | _, .recognize p | _, .lazy _ p => p.BuiltFrom law
  | _, .flatMap p next => p.BuiltFrom law ∧ ∀ a, (next a).BuiltFrom law
  | _, .andMap p q _ => p.BuiltFrom law ∧ q.BuiltFrom law
  | _, .sepBy p sep _ => p.BuiltFrom law ∧ sep.BuiltFrom law
  | _, .either p q => p.BuiltFrom law ∧ q.BuiltFrom law
  | _, .between p pre post => p.BuiltFrom law ∧ pre.BuiltFrom law ∧ post.BuiltFrom law
  | _, .choice ps | _, .seq ps _ => ps.BuiltFrom law
  | _, .block init body => body.BuiltFrom law ∧ law init body
  | _, .function _ => False

/-- Every parser of the list is. -/
def Parsers.BuiltFrom (law : BlockLaw σ τ) : {α : Type} → Parsers σ τ α → Prop
  | _, .nil => True
  | _, .cons p ps => p.BuiltFrom law ∧ ps.BuiltFrom law

/-- Every parser that the block runs is, and the block itself leaves the sink alone. -/
def Block.BuiltFrom (law : BlockLaw σ τ) : {ν α : Type} → Block σ τ ν α → Prop
  | _, _, .ret _ | _, _, .abort _ => True
  | _, _, .perform p _ next => p.BuiltFrom law ∧ ∀ r, (next r).BuiltFrom law
  | _, _, .many p next => p.BuiltFrom law ∧ ∀ as, (next as).BuiltFrom law
  | _, _, .attempt body next => body.BuiltFrom law ∧ ∀ r, (next r).BuiltFrom law
  | _, _, .loop body next => body.BuiltFrom law ∧ next.BuiltFrom law
  | _, _, .position next => ∀ pos, (next pos).BuiltFrom law
  | _, _, .ask next => ∀ src cfg, (next src cfg).BuiltFrom law
  | _, _, .get next => ∀ v, (next v).BuiltFrom law
  | _, _, .set _ next => next.BuiltFrom law
  | _, _, .inspect _ | _, _, .register .. => False

end

/-- The rules that are defined are made of leaves, combinators, rules, and blocks that satisfy
`law`. -/
def Env.BuiltFrom (law : BlockLaw σ τ) (env : Env σ τ) : Prop :=
  ∀ i p, env.rules i = some p → p.BuiltFrom law

/-- The parser is made of the library alone, with blocks of any kind that leave the sink alone. -/
def Parser.LibraryBuilt (p : Parser σ τ α) : Prop := p.BuiltFrom fun _ _ => True

/-- The rules are made of the library alone. -/
def Env.LibraryBuilt (env : Env σ τ) : Prop := env.BuiltFrom fun _ _ => True

/-- A source for a grammar without rules. -/
def Env.bare (src : Source σ) : Env σ (Empty.elim : Empty → Type) := ⟨src, {}, nofun⟩

theorem Env.bare_builtFrom (law : BlockLaw σ (Empty.elim : Empty → Type)) (src : Source σ) :
    (Env.bare src).BuiltFrom law := nofun

theorem Parsers.BuiltFrom.of_mem {law : BlockLaw σ τ} : ∀ {ps : Parsers σ τ α},
    ps.BuiltFrom law → ∀ p ∈ ps.toList, p.BuiltFrom law
  | .nil, _, p, hp => by simp [Parsers.toList] at hp
  | .cons q qs, h, p, hp => by
    rw [Parsers.BuiltFrom] at h
    rw [Parsers.toList, List.mem_cons] at hp
    rcases hp with rfl | hp
    · exact h.1
    · exact h.2.of_mem p hp

/-! ## Parsers that do not read the sink -/

mutual

/-- The parser does not read the sink. It is made of leaves, combinators, rules, and blocks that
satisfy `law` and register no failures by hand but those of `reports`. -/
def Parser.Oblivious (law : BlockLaw σ τ) (reports : Nat → Option Expectation → Prop) :
    {α : Type} → Parser σ τ α → Prop
  | _, .pure _ | _, .fail _ | _, .any | _, .eoi | _, .el _ | _, .oneOf _ | _, .noneOf _
  | _, .satisfy _ | _, .literal _ | _, .charWith _ | _, .regexGroup .. | _, .regexGroups _
  | _, .rule _ => True
  | _, .covered p | _, .map p _ | _, .option p _ | _, .opt p | _, .many p _
  | _, .manyAccum p .. | _, .lookAhead p | _, .notFollowedBy p | _, .label p _
  | _, .recognize p | _, .lazy _ p => p.Oblivious law reports
  | _, .flatMap p next => p.Oblivious law reports ∧ ∀ a, (next a).Oblivious law reports
  | _, .andMap p q _ => p.Oblivious law reports ∧ q.Oblivious law reports
  | _, .sepBy p sep _ => p.Oblivious law reports ∧ sep.Oblivious law reports
  | _, .either p q => p.Oblivious law reports ∧ q.Oblivious law reports
  | _, .between p pre post =>
    p.Oblivious law reports ∧ pre.Oblivious law reports ∧ post.Oblivious law reports
  | _, .choice ps | _, .seq ps _ => ps.Oblivious law reports
  | _, .block init body => body.Oblivious law reports ∧ law init body
  | _, .function _ => False

/-- No parser of the list does. -/
def Parsers.Oblivious (law : BlockLaw σ τ) (reports : Nat → Option Expectation → Prop) :
    {α : Type} → Parsers σ τ α → Prop
  | _, .nil => True
  | _, .cons p ps => p.Oblivious law reports ∧ ps.Oblivious law reports

/-- Neither the block nor a parser that it runs does. -/
def Block.Oblivious (law : BlockLaw σ τ) (reports : Nat → Option Expectation → Prop) :
    {ν α : Type} → Block σ τ ν α → Prop
  | _, _, .ret _ | _, _, .abort _ => True
  | _, _, .perform p _ next => p.Oblivious law reports ∧ ∀ r, (next r).Oblivious law reports
  | _, _, .many p next => p.Oblivious law reports ∧ ∀ as, (next as).Oblivious law reports
  | _, _, .attempt body next =>
    body.Oblivious law reports ∧ ∀ r, (next r).Oblivious law reports
  | _, _, .loop body next => body.Oblivious law reports ∧ next.Oblivious law reports
  | _, _, .position next => ∀ pos, (next pos).Oblivious law reports
  | _, _, .ask next => ∀ src cfg, (next src cfg).Oblivious law reports
  | _, _, .get next => ∀ v, (next v).Oblivious law reports
  | _, _, .set _ next => next.Oblivious law reports
  | _, _, .register i r _ next => reports i r ∧ next.Oblivious law reports
  | _, _, .inspect _ => False

end

/-- No rule that is defined reads the sink. -/
def Env.Oblivious (law : BlockLaw σ τ) (reports : Nat → Option Expectation → Prop)
    (env : Env σ τ) : Prop :=
  ∀ i p, env.rules i = some p → p.Oblivious law reports

theorem Parsers.Oblivious.of_mem {law : BlockLaw σ τ} {reports : Nat → Option Expectation → Prop} :
    ∀ {ps : Parsers σ τ α}, ps.Oblivious law reports → ∀ p ∈ ps.toList, p.Oblivious law reports
  | .nil, _, p, hp => by simp [Parsers.toList] at hp
  | .cons q qs, h, p, hp => by
    rw [Parsers.Oblivious] at h
    rw [Parsers.toList, List.mem_cons] at hp
    rcases hp with rfl | hp
    · exact h.1
    · exact h.2.of_mem p hp

section

variable {law : BlockLaw σ τ} {reports : Nat → Option Expectation → Prop}

mutual

theorem Parser.BuiltFrom.oblivious : ∀ {α : Type} {p : Parser σ τ α}, p.BuiltFrom law →
    p.Oblivious law reports
  | _, .pure _, _ | _, .fail _, _ | _, .any, _ | _, .eoi, _ | _, .el _, _ | _, .oneOf _, _
  | _, .noneOf _, _ | _, .satisfy _, _ | _, .literal _, _ | _, .charWith _, _
  | _, .regexGroup .., _ | _, .regexGroups _, _ | _, .rule _, _ => trivial
  | _, .covered p, h | _, .map p _, h | _, .option p _, h | _, .opt p, h | _, .many p _, h
  | _, .manyAccum p .., h | _, .lookAhead p, h | _, .notFollowedBy p, h | _, .label p _, h
  | _, .recognize p, h | _, .lazy _ p, h => Parser.BuiltFrom.oblivious (p := p) h
  | _, .flatMap _ _, h => ⟨h.1.oblivious, fun a => (h.2 a).oblivious⟩
  | _, .andMap .., h | _, .sepBy .., h | _, .either .., h => ⟨h.1.oblivious, h.2.oblivious⟩
  | _, .between .., h => ⟨h.1.oblivious, h.2.1.oblivious, h.2.2.oblivious⟩
  | _, .choice ps, h | _, .seq ps _, h => (show ps.BuiltFrom law from h).oblivious
  | _, .block .., h => ⟨h.1.oblivious, h.2⟩

theorem Parsers.BuiltFrom.oblivious : ∀ {α : Type} {ps : Parsers σ τ α}, ps.BuiltFrom law →
    ps.Oblivious law reports
  | _, .nil, _ => trivial
  | _, .cons .., h => ⟨h.1.oblivious, h.2.oblivious⟩

theorem Block.BuiltFrom.oblivious : ∀ {ν α : Type} {body : Block σ τ ν α}, body.BuiltFrom law →
    body.Oblivious law reports
  | _, _, .ret _, _ | _, _, .abort _, _ => trivial
  | _, _, .perform .., h => ⟨h.1.oblivious, fun r => (h.2 r).oblivious⟩
  | _, _, .many .., h => ⟨h.1.oblivious, fun as => (h.2 as).oblivious⟩
  | _, _, .attempt .., h => ⟨h.1.oblivious, fun r => (h.2 r).oblivious⟩
  | _, _, .loop .., h => ⟨h.1.oblivious, h.2.oblivious⟩
  | _, _, .position _, h => fun pos => (h pos).oblivious
  | _, _, .ask _, h => fun src cfg => (h src cfg).oblivious
  | _, _, .get _, h => fun v => (h v).oblivious
  | _, _, .set _ next, h => (show next.BuiltFrom law from h).oblivious

end

end

/-! ## The signals of a block -/

/-- Every signal that the block raises is in `known`, or is one that the block got from a parser
that failed. The variables `v` hold signals of `held v` only, and a value `a` of the block those of
`kept a`. -/
def Block.Raises : {ν α : Type} → (ν → Set Abort) → Block σ τ ν α → Set Abort →
    (α → Set Abort) → Prop
  | _, _, _, .ret a, known, kept => kept a ⊆ known
  | _, _, _, .abort e, known, _ => e ∈ known
  | _, _, held, .perform _ allowPartial next, known, kept =>
    (∀ a, (next (.ok a)).Raises held known kept) ∧
      ∀ pos, (next (.error ⟨pos, allowPartial⟩)).Raises held (known ∪ {⟨pos, allowPartial⟩}) kept
  | _, _, held, .many _ next, known, kept => ∀ as, (next as).Raises held known kept
  | _, _, held, .attempt body next, known, kept =>
    ∃ kept', body.Raises held known kept' ∧
      (∀ a, (next (some a)).Raises held (known ∪ kept' a) kept) ∧
      (next none).Raises held known kept
  | _, _, held, .loop body next, known, kept =>
    body.Raises held known (fun _ => ∅) ∧ next.Raises held known kept
  | _, _, held, .position next, known, kept => ∀ pos, (next pos).Raises held known kept
  | _, _, held, .ask next, known, kept => ∀ src cfg, (next src cfg).Raises held known kept
  | _, _, held, .inspect next, known, kept => ∀ s, (next s).Raises held known kept
  | _, _, held, .register _ _ _ next, known, kept => next.Raises held known kept
  | _, _, held, .get next, known, kept => ∀ v, (next v).Raises held (known ∪ held v) kept
  | _, _, held, .set v next, known, kept => held v ⊆ known ∧ next.Raises held known kept

/-- The block raises no signals but those that it got from its own parsers, and holds none of them
when it starts. This is a condition on the block: one that was handed the signal of another block
can raise it all the same (`Block.not_ownAborts_abort`). -/
def Block.OwnAborts (init : ν) (body : Block σ τ ν α) : Prop :=
  ∃ held : ν → Set Abort, held init = ∅ ∧ body.Raises held ∅ fun _ => ∅

theorem Block.not_ownAborts_abort (e : Abort) :
    ¬ (Block.abort e : Block σ τ Unit α).OwnAborts () := by
  rintro ⟨held, -, he⟩
  exact he

/-! ### Signals of other blocks -/

namespace Parser

/-- A block that gives the signal of a failure away, as its value. -/
def signalOf (p : Parser σ τ α) : Parser σ τ (Except Abort α) := .block () (Block.try' p false)

/-- A block that raises a signal it was handed. -/
def raising (e : Abort) : Parser σ τ α := .block () (.abort e)

theorem signalOf_libraryBuilt {p : Parser σ τ α} (hp : p.LibraryBuilt) :
    p.signalOf.LibraryBuilt := ⟨⟨hp, fun _ => trivial⟩, trivial⟩

theorem raising_libraryBuilt (e : Abort) : (raising e : Parser σ τ α).LibraryBuilt :=
  ⟨trivial, trivial⟩

section

variable [BEq σ] [Describe σ] {env : Env σ τ} {n pos : Nat} {s t : State}

/-- The signal names the place where the parser was run that failed. -/
theorem run_signalOf_fail {p : Parser σ τ α} {q : Nat} (h : p.run env n pos s = some (.fail q, t)) :
    p.signalOf.run env (n + 1) pos s = some (.ok pos (.error ⟨pos, false⟩), t) := by
  rw [signalOf, run, Block.try', Block.exec, bind_assoc]
  exact Act.bind_eq_some.mpr ⟨.fail q, t, h, rfl⟩

/-- The block fails where the signal says, wherever it runs itself, and registers nothing. -/
theorem run_raising (e : Abort) :
    (raising e : Parser σ τ α).run env (n + 1) pos s = some (.fail e.position, s) := rfl

end

end Parser

end Backtrack
