import Backtrack.Proofs.Returns
import Backtrack.Proofs.Sequences
import Backtrack.Proofs.Termination.Loops

/-!
# The calls of a run

A run of a parser runs its parts: which ones, where, and from which state, is said by
`Parser.Starts`, with a case for each way in which a parser may have parts. A rule that is run
somewhere among the parts, the parts of parts and so on is called (`Parser.Calls`); what its own
parser calls is not counted, so these are the direct calls.

Between a run and its calls there is nothing that could go on forever. A parser that is made of the
library, in at most `k` levels (`Parser.Shallow`), returns if the rules that it calls do, and `k`
more on the bound of the run is enough (`Parser.run_returns_of_calls`). So the calls are all that
matters for termination, which also shows that no part of a run was forgotten.
-/

namespace Backtrack

variable {σ ι : Type} {τ : ι → Type} {α β γ ν : Type}

open Act Block Relation

/-! ## The parts of a parser -/

/-- The block leaves the sink alone, and every parser that it runs is `good`. -/
structure Block.MadeOf (good : {β : Type} → Parser σ τ β → Prop) (body : Block σ τ ν α) : Prop where
  built : body.BuiltFrom fun _ _ => True
  uses : body.Uses good

namespace Block.MadeOf

variable {good : {β : Type} → Parser σ τ β → Prop}

theorem bind : ∀ {ν α β : Type} {body : Block σ τ ν α} {f : α → Block σ τ ν β},
    body.MadeOf good → (∀ a, (f a).MadeOf good) → (body >>= f).MadeOf good
  | _, _, _, .ret a, _, _, hf => hf a
  | _, _, _, .abort _, _, _, _ => ⟨trivial, trivial⟩
  | _, _, _, .perform .., _, ⟨hbuilt, huses⟩, hf => by
    have hrest := fun r => bind ⟨hbuilt.2 r, huses.2 r⟩ hf
    exact ⟨⟨hbuilt.1, fun r => (hrest r).built⟩, huses.1, fun r => (hrest r).uses⟩
  | _, _, _, .many .., _, ⟨hbuilt, huses⟩, hf => by
    have hrest := fun as => bind ⟨hbuilt.2 as, huses.2 as⟩ hf
    exact ⟨⟨hbuilt.1, fun as => (hrest as).built⟩, huses.1, fun as => (hrest as).uses⟩
  | _, _, _, .attempt .., _, ⟨hbuilt, huses⟩, hf => by
    have hrest := fun r => bind ⟨hbuilt.2 r, huses.2 r⟩ hf
    exact ⟨⟨hbuilt.1, fun r => (hrest r).built⟩, huses.1, fun r => (hrest r).uses⟩
  | _, _, _, .loop .., _, ⟨hbuilt, huses⟩, hf => by
    have hrest := bind ⟨hbuilt.2, huses.2⟩ hf
    exact ⟨⟨hbuilt.1, hrest.built⟩, huses.1, hrest.uses⟩
  | _, _, _, .position _, _, ⟨hbuilt, huses⟩, hf => by
    have hrest := fun pos => bind ⟨hbuilt pos, huses pos⟩ hf
    exact ⟨fun pos => (hrest pos).built, fun pos => (hrest pos).uses⟩
  | _, _, _, .ask _, _, ⟨hbuilt, huses⟩, hf => by
    have hrest := fun src cfg => bind ⟨hbuilt src cfg, huses src cfg⟩ hf
    exact ⟨fun src cfg => (hrest src cfg).built, fun src cfg => (hrest src cfg).uses⟩
  | _, _, _, .get _, _, ⟨hbuilt, huses⟩, hf => by
    have hrest := fun v => bind ⟨hbuilt v, huses v⟩ hf
    exact ⟨fun v => (hrest v).built, fun v => (hrest v).uses⟩
  | _, _, _, .set _ next, _, ⟨hbuilt, huses⟩, hf => by
    have hnext : next.MadeOf good := ⟨hbuilt, huses⟩
    have hrest := hnext.bind hf
    exact ⟨hrest.built, hrest.uses⟩

theorem step {p : Parser σ τ α} (hbuilt : p.LibraryBuilt) (hp : good p) (allowPartial : Bool) :
    (Block.step p allowPartial : Block σ τ ν α).MadeOf good :=
  ⟨⟨hbuilt, fun r => by cases r <;> trivial⟩, hp, fun r => by cases r <;> trivial⟩

theorem option {p : Parser σ τ α} (hbuilt : p.LibraryBuilt) (hp : good p) :
    (Block.option p : Block σ τ ν (Option α)).MadeOf good :=
  ⟨⟨hbuilt, fun _ => trivial⟩, hp, fun _ => trivial⟩

theorem passes {body : Block σ τ ν Unit} (hbody : body.MadeOf good) :
    (Block.passes body).MadeOf good :=
  ⟨⟨hbody.built, trivial⟩, hbody.uses, trivial⟩

theorem vars : (Block.vars : Block σ τ ν ν).MadeOf good := ⟨fun _ => trivial, fun _ => trivial⟩

theorem modify (f : ν → ν) : (Block.modify f : Block σ τ ν Unit).MadeOf good :=
  ⟨fun _ => trivial, fun _ => trivial⟩

end Block.MadeOf

/-- Every part of the parser is `good`, and if it is a rule, it is among `rules`. The blocks in it
leave the sink alone, and it is not a function on the parse context. -/
def Parser.EachPart (rules : ι → Prop) (good : {β : Type} → Parser σ τ β → Prop) :
    {α : Type} → Parser σ τ α → Prop
  | _, .pure _ | _, .fail _ | _, .any | _, .eoi | _, .el _ | _, .oneOf _ | _, .noneOf _
  | _, .satisfy _ | _, .literal _ | _, .charWith _ | _, .regexGroup .. | _, .regexGroups _ => True
  | _, .rule i => rules i
  | _, .covered p | _, .map p _ | _, .option p _ | _, .opt p | _, .many p _
  | _, .manyAccum p .. | _, .lookAhead p | _, .notFollowedBy p | _, .label p _
  | _, .recognize p | _, .lazy _ p => good p
  | _, .flatMap p next => good p ∧ ∀ a, good (next a)
  | _, .andMap p q _ => good p ∧ good q
  | _, .sepBy p sep _ => good p ∧ good (sep.andThen p)
  | _, .either p q => good p ∧ good q
  | _, .between p pre post => good p ∧ good pre ∧ good post
  | _, .choice ps | _, .seq ps _ => ∀ p ∈ ps.toList, good p
  | _, .block _ body => body.MadeOf good
  | _, .function _ => False

/-- The parser is made of the library in at most `n` levels, and refers to no rules but those of
`rules`. -/
def Parser.Shallow (rules : ι → Prop) : Nat → {α : Type} → Parser σ τ α → Prop
  | 0, _, _ => False
  | n + 1, _, p => p.EachPart rules (Shallow rules n)

theorem Parsers.builtFrom_of_forall {law : BlockLaw σ τ} : ∀ {ps : Parsers σ τ α},
    (∀ p ∈ ps.toList, p.BuiltFrom law) → ps.BuiltFrom law
  | .nil, _ => trivial
  | .cons p ps, h => by
    rw [toList] at h
    exact ⟨h p List.mem_cons_self, builtFrom_of_forall fun q hq => h q (List.mem_cons_of_mem p hq)⟩

/-- A parser is library-built if its parts are. -/
theorem Parser.EachPart.built {rules : ι → Prop} {good : {β : Type} → Parser σ τ β → Prop}
    (hgood : ∀ {β : Type} {p : Parser σ τ β}, good p → p.LibraryBuilt) {p : Parser σ τ α}
    (hp : p.EachPart rules good) : p.LibraryBuilt := by
  cases p with
  | flatMap p next => exact ⟨hgood hp.1, fun a => hgood (hp.2 a)⟩
  | andMap p q f | either p q => exact ⟨hgood hp.1, hgood hp.2⟩
  | sepBy p sep bounds => exact ⟨hgood hp.1, (hgood hp.2).1⟩
  | between p pre post => exact ⟨hgood hp.1, hgood hp.2.1, hgood hp.2.2⟩
  | choice ps | seq ps allowPartial =>
    exact Parsers.builtFrom_of_forall fun q hq => hgood (hp q hq)
  | block init body => exact ⟨hp.1, trivial⟩
  | function body => exact hp.elim
  | covered p | map p f | option p default | opt p | many p bounds | manyAccum p init f bounds
  | lookAhead p | notFollowedBy p | label p name | recognize p | lazy id p =>
    exact show p.LibraryBuilt from hgood hp
  | _ => trivial

/-- The parsers of a library-built block are library-built. -/
theorem Block.BuiltFrom.uses : ∀ {ν α : Type} {body : Block σ τ ν α},
    body.BuiltFrom (fun _ _ => True) → body.Uses fun p => p.LibraryBuilt
  | _, _, .ret _, _ | _, _, .abort _, _ => trivial
  | _, _, .perform .., h => ⟨h.1, fun r => (h.2 r).uses⟩
  | _, _, .many .., h => ⟨h.1, fun as => (h.2 as).uses⟩
  | _, _, .attempt .., h => ⟨h.1.uses, fun r => (h.2 r).uses⟩
  | _, _, .loop .., h => ⟨h.1.uses, h.2.uses⟩
  | _, _, .position _, h => fun pos => (h pos).uses
  | _, _, .ask _, h => fun src cfg => (h src cfg).uses
  | _, _, .get _, h => fun v => (h v).uses
  | _, _, .set _ next, h => (show next.BuiltFrom _ from h).uses

/-- The parts of a library-built parser are library-built. -/
theorem Parser.BuiltFrom.eachPart {p : Parser σ τ α} (hp : p.LibraryBuilt) :
    p.EachPart (fun _ => True) fun p => p.LibraryBuilt := by
  cases p with
  | sepBy p sep bounds => exact ⟨hp.1, hp.2, hp.1⟩
  | choice ps | seq ps allowPartial => exact fun q hq => Parsers.BuiltFrom.of_mem hp q hq
  | block init body => exact ⟨hp.1, hp.1.uses⟩
  | function body => exact hp.elim
  | _ => exact hp

theorem Parser.Shallow.built {rules : ι → Prop} {n : Nat} {p : Parser σ τ α}
    (hp : p.Shallow rules n) : p.LibraryBuilt := by
  induction n generalizing α with
  | zero => exact hp.elim
  | succ n ih => exact Parser.EachPart.built ih hp

/-- Two parts in order return if the first does, and the second does from where it has ended. -/
theorem Act.bind_returns {a : Act α} {f : α → Act β} {s : State} (ha : ∃ x, a s = some x)
    (hf : ∀ x u, a s = some (x, u) → ∃ y, f x u = some y) : ∃ y, (a >>= f) s = some y := by
  obtain ⟨⟨x, u⟩, hx⟩ := ha
  obtain ⟨⟨y, t⟩, hy⟩ := hf x u hx
  exact ⟨(y, t), bind_eq_some.mpr ⟨x, u, hx, hy⟩⟩

theorem Act.Yields.returns {a : Act α} {Q : α → Prop} (h : a.Yields Q) (s : State) :
    ∃ x, a s = some x := by
  obtain ⟨x, t, hx, -⟩ := h s
  exact ⟨(x, t), hx⟩

variable [BEq σ] [Describe σ]

namespace Parser

/-! ## The parts of a run -/

/-- The run of the first parser, at the position and from the state that follow, runs the second
one as a part of it, at the position and from the state that follow. -/
inductive Starts (env : Env σ τ) : {α : Type} → Parser σ τ α → Nat → State →
    {β : Type} → Parser σ τ β → Nat → State → Prop where
  | covered {α : Type} {p : Parser σ τ α} {pos : Nat} {s : State} :
    Starts env p.covered pos s p pos { s with sink := .empty, entries := [] }
  | map {α β : Type} {p : Parser σ τ α} {f : α → β} {pos : Nat} {s : State} :
    Starts env (p.map f) pos s p pos s
  | flatMap {α β : Type} {p : Parser σ τ α} {next : α → Parser σ τ β} {pos : Nat} {s : State} :
    Starts env (p.flatMap next) pos s p pos s
  | flatMapNext {α β : Type} {p : Parser σ τ α} {next : α → Parser σ τ β} {pos e : Nat} {a : α}
    {s u : State} (hrun : p.ComesTo env pos s (.ok e a) u) :
    Starts env (p.flatMap next) pos s (next a) e u
  | andMap {α β γ : Type} {p : Parser σ τ α} {q : Parser σ τ β} {f : α → β → γ} {pos : Nat}
    {s : State} : Starts env (p.andMap q f) pos s p pos s
  | andMapNext {α β γ : Type} {p : Parser σ τ α} {q : Parser σ τ β} {f : α → β → γ} {pos e : Nat}
    {a : α} {s u : State} (hrun : p.ComesTo env pos s (.ok e a) u) :
    Starts env (p.andMap q f) pos s q e u
  | betweenPre {α β γ : Type} {p : Parser σ τ α} {pre : Parser σ τ β} {post : Parser σ τ γ}
    {pos : Nat} {s : State} : Starts env (p.between pre post) pos s pre pos s
  | between {α β γ : Type} {p : Parser σ τ α} {pre : Parser σ τ β} {post : Parser σ τ γ}
    {pos e : Nat} {b : β} {s u : State} (hpre : pre.ComesTo env pos s (.ok e b) u) :
    Starts env (p.between pre post) pos s p e u
  | betweenPost {α β γ : Type} {p : Parser σ τ α} {pre : Parser σ τ β} {post : Parser σ τ γ}
    {pos e e' : Nat} {b : β} {a : α} {s u u' : State} (hpre : pre.ComesTo env pos s (.ok e b) u)
    (hrun : p.ComesTo env e u (.ok e' a) u') : Starts env (p.between pre post) pos s post e' u'
  | either {α : Type} {p q : Parser σ τ α} {pos : Nat} {s : State} :
    Starts env (p.either q) pos s p pos s
  | eitherNext {α : Type} {p q : Parser σ τ α} {pos f : Nat} {s u : State}
    (hrun : p.ComesTo env pos s (.fail f) u) : Starts env (p.either q) pos s q pos u
  | choice {α : Type} {ps : Parsers σ τ α} {before after : List (Parser σ τ α)}
    {p : Parser σ τ α} {pos : Nat} {s u : State} (hps : ps.toList = before ++ p :: after)
    (hbefore : Tries env pos s before (.fail pos) u) : Starts env (.choice ps) pos s p pos u
  | option {α : Type} {p : Parser σ τ α} {default : α} {pos : Nat} {s : State} :
    Starts env (p.option default) pos s p pos s
  | opt {α : Type} {p : Parser σ τ α} {pos : Nat} {s : State} : Starts env p.opt pos s p pos s
  | seq {α : Type} {ps : Parsers σ τ α} {allowPartial : Bool} {before after : List (Parser σ τ α)}
    {p : Parser σ τ α} {pos e : Nat} {as : List α} {s u : State}
    (hps : ps.toList = before ++ p :: after)
    (hbefore : (sequence before).ComesTo env pos s (.ok e as) u) :
    Starts env (.seq ps allowPartial) pos s p e u
  | many {α : Type} {p : Parser σ τ α} {bounds : Bounds} {pos q : Nat} {s u : State}
    (htried : p.Tried env bounds.max pos s q u) : Starts env (p.many bounds) pos s p q u
  | manyAccum {α β : Type} {p : Parser σ τ α} {init : β} {f : β → α → β} {bounds : Bounds}
    {pos q : Nat} {s u : State} (htried : p.Tried env bounds.max pos s q u) :
    Starts env (p.manyAccum init f bounds) pos s p q u
  | sepBy {α β : Type} {p : Parser σ τ α} {sep : Parser σ τ β} {bounds : Bounds} {pos : Nat}
    {s : State} (hmax : bounds.max ≠ some 0) : Starts env (p.sepBy sep bounds) pos s p pos s
  /-- A separator and the item behind it are one part. -/
  | sepByNext {α β : Type} {p : Parser σ τ α} {sep : Parser σ τ β} {bounds : Bounds}
    {pos e q : Nat} {a : α} {s u u' : State} (hmax : bounds.max ≠ some 0)
    (hrun : p.ComesTo env pos s (.ok e a) u)
    (htried : (sep.andThen p).Tried env (bounds.max.map (· - 1)) e u q u') :
    Starts env (p.sepBy sep bounds) pos s (sep.andThen p) q u'
  | lookAhead {α : Type} {p : Parser σ τ α} {pos : Nat} {s : State} :
    Starts env p.lookAhead pos s p pos s
  | notFollowedBy {α : Type} {p : Parser σ τ α} {pos : Nat} {s : State} :
    Starts env p.notFollowedBy pos s p pos s
  | label {α : Type} {p : Parser σ τ α} {name : String} {pos : Nat} {s : State} :
    Starts env (p.label name) pos s p pos s
  | recognize {α : Type} {p : Parser σ τ α} {pos : Nat} {s : State} :
    Starts env p.recognize pos s p pos s
  | lazy {α : Type} {id : Nat} {p : Parser σ τ α} {pos : Nat} {s u : State}
    (hbuild : build id s = some ((), u)) : Starts env (.lazy id p) pos s p pos u
  | perform {ν α β γ : Type} {init : ν} {body : Block σ τ ν α} {F : Frames σ τ ν α γ}
    {p : Parser σ τ β} {allowPartial : Bool} {next : Except Abort β → Block σ τ ν γ} {pos q : Nat}
    {v : ν} {s u : State}
    (hreach : Moment.Reaches env (.begin init body pos s)
      ⟨F, .perform p allowPartial next, q, v, u⟩) :
    Starts env (.block init body) pos s p q u
  | performMany {ν α β γ : Type} {init : ν} {body : Block σ τ ν α} {F : Frames σ τ ν α γ}
    {p : Parser σ τ β} {next : List β → Block σ τ ν γ} {pos q q' : Nat} {v : ν} {s u u' : State}
    (hreach : Moment.Reaches env (.begin init body pos s) ⟨F, .many p next, q, v, u⟩)
    (htried : p.Tried env none q u q' u') : Starts env (.block init body) pos s p q' u'

/-- A run of the parser calls the rule, at the position and from the state that follow. -/
inductive Calls (env : Env σ τ) : {α : Type} → Parser σ τ α → Nat → State →
    ι → Nat → State → Prop where
  | rule {i : ι} {pos : Nat} {s : State} : Calls env (.rule i) pos s i pos s
  | part {α β : Type} {p : Parser σ τ α} {q : Parser σ τ β} {pos e e' : Nat} {s u u' : State}
    {i : ι} (hpart : p.Starts env pos s q e u) (hcalls : Calls env q e u i e' u') :
    Calls env p pos s i e' u'

variable {env : Env σ τ} {rules : ι → Prop} {good : {β : Type} → Parser σ τ β → Prop}
  {p : Parser σ τ α} {q : Parser σ τ β} {pos e : Nat} {s u : State} {i : ι} {n : Nat}

omit [BEq σ] [Describe σ] in
theorem sequence_built {ps : List (Parser σ τ α)} (hps : ∀ p ∈ ps, p.LibraryBuilt) :
    (sequence ps).LibraryBuilt :=
  Parsers.builtFrom_of_forall fun p hp => hps p (by rwa [Parsers.toList_ofList] at hp)

/-- The parts of a run are parts of the parser, and are run ahead of its start. -/
theorem Starts.good_ahead (henv : env.LibraryBuilt)
    (hgood : ∀ {β : Type} {p : Parser σ τ β}, good p → p.LibraryBuilt)
    (h : p.Starts env pos s q e u) (hp : p.EachPart rules good) :
    good q ∧ env.source.Ahead pos e := by
  cases h with
  | covered | map | option | opt | lookAhead | notFollowedBy | label | recognize | lazy _ =>
    exact ⟨hp, .refl _ _⟩
  | flatMap => exact ⟨hp.1, .refl _ _⟩
  | flatMapNext hrun => exact ⟨hp.2 _, hrun.ahead henv (hgood hp.1)⟩
  | andMap => exact ⟨hp.1, .refl _ _⟩
  | andMapNext hrun => exact ⟨hp.2, hrun.ahead henv (hgood hp.1)⟩
  | betweenPre => exact ⟨hp.2.1, .refl _ _⟩
  | between hpre => exact ⟨hp.1, hpre.ahead henv (hgood hp.2.1)⟩
  | betweenPost hpre hrun =>
    exact ⟨hp.2.2, (hpre.ahead henv (hgood hp.2.1)).trans (hrun.ahead henv (hgood hp.1))⟩
  | either => exact ⟨hp.1, .refl _ _⟩
  | eitherNext _ => exact ⟨hp.2, .refl _ _⟩
  | choice hps _ => exact ⟨hp _ (hps ▸ List.mem_append_right _ List.mem_cons_self), .refl _ _⟩
  | seq hps hbefore =>
    have hbuilt := sequence_built fun q hq => hgood (hp q (hps ▸ List.mem_append_left _ hq))
    exact ⟨hp _ (hps ▸ List.mem_append_right _ List.mem_cons_self), hbefore.ahead henv hbuilt⟩
  | many htried | manyAccum htried => exact ⟨hp, htried.ahead henv (hgood hp)⟩
  | sepBy _ => exact ⟨hp.1, .refl _ _⟩
  | sepByNext _ hrun htried =>
    exact ⟨hp.2, (hrun.ahead henv (hgood hp.1)).trans (htried.ahead henv (hgood hp.2))⟩
  | perform hreach =>
    obtain ⟨hpos, hrest, -⟩ := hreach.uses henv hgood hp.2
    exact ⟨hrest.1, hpos⟩
  | performMany hreach htried =>
    obtain ⟨hpos, hrest, -⟩ := hreach.uses henv hgood hp.2
    exact ⟨hrest.1, hpos.trans (htried.ahead henv (hgood hrest.1))⟩

/-- What is called by the parts of a library-built parser is called ahead of its start. -/
theorem Calls.ahead (henv : env.LibraryBuilt) (hp : p.LibraryBuilt) (h : p.Calls env pos s i e u) :
    env.source.Ahead pos e := by
  induction h with
  | rule => exact .refl _ _
  | part hpart _ ih =>
    obtain ⟨hq, hahead⟩ := hpart.good_ahead henv id (BuiltFrom.eachPart hp)
    exact hahead.trans (ih hq)

/-- Only rules to which a parser refers are called. -/
theorem Calls.mem_rules (henv : env.LibraryBuilt) (hp : p.Shallow rules n)
    (h : p.Calls env pos s i e u) : rules i := by
  induction h generalizing n with
  | rule =>
    cases n with
    | zero => exact hp.elim
    | succ n => exact hp
  | part hpart _ ih =>
    cases n with
    | zero => exact hp.elim
    | succ n => exact ih (hpart.good_ahead henv (fun hq => hq.built) hp).1

/-! ## Runs return if their calls do -/

/-- Every part of the run returns, with the bound `n`. -/
def PartsReturn (env : Env σ τ) (n : Nat) (p : Parser σ τ α) (pos : Nat) (s : State) : Prop :=
  ∀ {β : Type} {q : Parser σ τ β} {e : Nat} {u : State}, p.Starts env pos s q e u →
    ∃ x, q.run env n e u = some x

/-- A search returns if the runs that it makes do. -/
theorem firstOf_returns {ps : Parsers σ τ α} {s : State}
    (hruns : ∀ before p after u, ps.toList = before ++ p :: after →
      Tries env pos s before (.fail pos) u → ∃ x, p.run env n pos u = some x) :
    ∃ x, ps.firstOf (fun p q => p.run env n q) pos s = some x := by
  match ps with
  | .nil => exact ⟨_, rfl⟩
  | .cons p ps =>
    rw [Parsers.firstOf]
    refine bind_returns (hruns [] p ps.toList s rfl .none) fun r u hrun => ?_
    cases r with
    | ok e a => exact ⟨_, rfl⟩
    | fail f =>
      refine firstOf_returns fun before q after v hps hbefore => ?_
      exact hruns (p :: before) q after v (congrArg (p :: ·) hps) (.next ⟨n, hrun⟩ hbefore)

/-- A list returns if the runs that it makes do. -/
theorem inOrder_returns {allowPartial : Bool} {ps : Parsers σ τ α} {pos : Nat} {s : State}
    (hruns : ∀ before p after e as u, ps.toList = before ++ p :: after →
      (sequence before).ComesTo env pos s (.ok e as) u → ∃ x, p.run env n e u = some x) :
    ∃ x, ps.inOrder (fun p q => p.run env n q) allowPartial pos s = some x := by
  match ps with
  | .nil => exact ⟨_, rfl⟩
  | .cons p ps =>
    have hfirst := hruns [] p ps.toList pos [] s rfl (comesTo_sequence_nil.mpr ⟨rfl, rfl⟩)
    rw [Parsers.inOrder]
    refine bind_returns hfirst fun r u hrun => ?_
    cases r with
    | fail f => exact ⟨_, rfl⟩
    | ok e a =>
      refine bind_returns (inOrder_returns fun before q after e' as v hps hbefore => ?_)
        fun r t _ => ?_
      · refine hruns (p :: before) q after e' (a :: as) v (congrArg (p :: ·) hps) ?_
        exact comesTo_sequence_cons.mpr (.inl ⟨e, a, u, _, ⟨n, hrun⟩, hbefore, rfl⟩)
      · cases r <;> exact ⟨_, rfl⟩

section Repetition

variable (henv : env.LibraryBuilt) (hn : env.source.len < n)

include henv hn

/-- The loop behind repetition returns if the runs that it makes do. -/
theorem manyLoop_returns {m : Nat} {limit : Option Nat} (hp : p.LibraryBuilt)
    (hruns : ∀ q u, p.Tried env limit pos s q u → ∃ x, p.run env m q u = some x) :
    ∃ x, manyLoop (fun q => p.run env m q) n limit pos s = some x := by
  have htried (q : Nat) (u : State) (h : p.Tried env limit pos s q u) :
      Answers (fun _ => fun p q => p.run env m q) p q u := by
    obtain ⟨⟨r, t⟩, hrun⟩ := hruns q u h
    exact ⟨r, t, 0, hrun⟩
  have hk : env.source.len - pos < n := Nat.lt_of_le_of_lt (Nat.sub_le _ _) hn
  obtain ⟨as, e, t, ⟨_, hloop⟩, -⟩ :=
    (Calling.within env m).manyLoop_returns henv hp hk htried
  exact ⟨_, hloop⟩

theorem many_returns {bounds : Bounds} (hp : p.LibraryBuilt)
    (hparts : (p.many bounds).PartsReturn env n pos s) :
    ∃ x, (p.many bounds).run env (n + 1) pos s = some x := by
  rw [run]
  refine bind_returns (manyLoop_returns henv hn hp fun q u h => hparts (.many h)) ?_
  exact fun (as, e) u _ => atLeast_returns bounds.min as.length e as u

theorem manyAccum_returns {init : β} {f : β → α → β} {bounds : Bounds} (hp : p.LibraryBuilt)
    (hparts : (p.manyAccum init f bounds).PartsReturn env n pos s) :
    ∃ x, (p.manyAccum init f bounds).run env (n + 1) pos s = some x := by
  rw [run, foldLoop_eq_manyLoop]
  refine bind_returns (bind_returns ?_ fun _ _ _ => ⟨_, rfl⟩) ?_
  · exact manyLoop_returns henv hn hp fun q u h => hparts (.manyAccum h)
  · exact fun (acc, count, e) u _ => atLeast_returns bounds.min count e acc u

theorem sepBy_returns {sep : Parser σ τ β} {bounds : Bounds} (hp : p.LibraryBuilt)
    (hsep : sep.LibraryBuilt) (hparts : (p.sepBy sep bounds).PartsReturn env n pos s) :
    ∃ x, (p.sepBy sep bounds).run env (n + 1) pos s = some x := by
  rw [run]
  by_cases hmax : bounds.max = some 0
  · rw [if_pos hmax]
    exact atLeast_returns bounds.min 0 pos ([] : List α) s
  · rw [if_neg hmax]
    refine bind_returns (hparts (.sepBy hmax)) fun r u hrun => ?_
    cases r with
    | fail f => exact atLeast_returns bounds.min 0 pos ([] : List α) u
    | ok e a =>
      have hbuilt : (sep.andThen p).LibraryBuilt := ⟨hsep, hp⟩
      dsimp only
      rw [sepLoop_eq_manyLoop]
      refine bind_returns (manyLoop_returns henv hn hbuilt fun q u' h => ?_) ?_
      · obtain ⟨x, hx⟩ := hparts (.sepByNext hmax ⟨n, hrun⟩ h)
        exact ⟨x, run_of_le (Nat.le_succ n) hx⟩
      · exact fun (as, e') v _ => atLeast_returns bounds.min (as.length + 1) e' (a :: as) v

/-- A block returns if the runs that it makes do. -/
theorem block_returns {init : ν} {body : Block σ τ ν α} (hbody : body.BuiltFrom fun _ _ => True)
    (hparts : (block init body).PartsReturn env n pos s) :
    ∃ x, (block init body).run env (n + 1) pos s = some x := by
  have hanswered (m : Moment σ τ ν α) (hm : Moment.Reaches env (.begin init body pos s) m) :
      m.Answered env fun _ => fun p q => p.run env n q := by
    obtain ⟨F, rest, q, v, u⟩ := m
    cases rest with
    | perform p allowPartial next =>
      obtain ⟨⟨r, t⟩, hrun⟩ := hparts (.perform hm)
      exact ⟨r, t, 0, hrun⟩
    | many p next =>
      intro q' u' htried
      obtain ⟨⟨r, t⟩, hrun⟩ := hparts (.performMany hm htried)
      exact ⟨r, t, 0, hrun⟩
    | _ => trivial
  obtain ⟨r, q, w, t, ⟨_, hexec⟩, -⟩ := (Calling.within env n).exec_returns henv id hn hanswered
    body (.block pos) hbody.uses .refl
  rw [run]
  refine bind_returns ⟨_, hexec⟩ fun (r, q, w) t _ => ?_
  cases r <;> exact ⟨_, rfl⟩

end Repetition

/-- A run returns if its parts do, and if it does where it is the run of a rule. -/
theorem run_returns_of_parts (henv : env.LibraryBuilt) (hn : env.source.len < n)
    (hp : p.LibraryBuilt) (hparts : p.PartsReturn env n pos s)
    (hcalls : ∀ i e u, p.Calls env pos s i e u → ∃ x, (rule i).run env (n + 1) e u = some x) :
    ∃ x, p.run env (n + 1) pos s = some x := by
  have hfail {γ : Type} (e : Expectation) (pos : Nat) :
      (failWith e pos : Act (Outcome γ)).Yields fun _ => True :=
    (Yields.register e.index _).bind fun _ _ => .pure trivial
  have hmismatch {γ : Type} : (mismatch pos : Act (Outcome γ)).Yields fun _ => True :=
    hfail (.unknown pos) pos
  cases p with
  | rule i => exact hcalls i pos s .rule
  | pure a => exact ⟨_, rfl⟩
  | fail expected =>
    cases expected with
    | none => exact hmismatch.returns s
    | some what => exact (hfail (.expected pos what) pos).returns s
  | eoi =>
    rw [run]
    split
    · exact ⟨_, rfl⟩
    · exact (hfail _ pos).returns s
  | any | noneOf set | satisfy pred =>
    rw [run]
    exact (Yields.symbolWhere hmismatch).returns s
  | el x =>
    rw [run]
    exact (Yields.symbolWhere (hfail (.expected pos (describe x)) pos)).returns s
  | oneOf set =>
    rw [run]
    exact (Yields.symbolWhere ((Yields.expectEach set.toList pos).imp fun _ _ => trivial)).returns s
  | literal pattern =>
    rw [run]
    cases env.source.matchSymbols? pattern.toList pos with
    | some q => exact ⟨_, rfl⟩
    | none => exact (hfail _ pos).returns s
  | charWith pred =>
    rw [run]
    exact (Yields.charWhere env.source pos pred).returns s
  | regexGroup re i | regexGroups re =>
    rw [run]
    exact (Yields.regexWhere env.source re pos _).returns s
  | covered p =>
    rw [run]
    refine bind_returns ?_ fun r u _ => ?_
    · obtain ⟨⟨r, u⟩, hrun⟩ := hparts .covered
      exact ⟨_, isolated_eq_some.mpr ⟨u, hrun, rfl⟩⟩
    · cases r with
      | fail f => exact hmismatch.returns u
      | ok e a =>
        dsimp only
        cases env.source.textBetween? pos e with
        | some text => exact ⟨_, rfl⟩
        | none => exact hmismatch.returns u
  | map p f =>
    rw [run]
    exact bind_returns (hparts .map) fun r u _ => ⟨_, rfl⟩
  | flatMap p next =>
    rw [run]
    refine bind_returns (hparts .flatMap) fun r u hrun => ?_
    cases r with
    | ok e a => exact hparts (.flatMapNext ⟨n, hrun⟩)
    | fail f => exact ⟨_, rfl⟩
  | andMap p q f =>
    rw [run]
    refine bind_returns (hparts .andMap) fun r u hrun => ?_
    cases r with
    | ok e a => exact bind_returns (hparts (.andMapNext ⟨n, hrun⟩)) fun r t _ => ⟨_, rfl⟩
    | fail f => exact ⟨_, rfl⟩
  | between p pre post =>
    rw [run]
    refine bind_returns (hparts .betweenPre) fun r u hpre => ?_
    cases r with
    | fail f => exact ⟨_, rfl⟩
    | ok e b =>
      refine bind_returns (hparts (.between ⟨n, hpre⟩)) fun r t hrun => ?_
      cases r with
      | fail f => exact ⟨_, rfl⟩
      | ok e' a =>
        exact bind_returns (hparts (.betweenPost ⟨n, hpre⟩ ⟨n, hrun⟩)) fun r v _ => ⟨_, rfl⟩
  | either p q =>
    rw [run]
    refine bind_returns (hparts .either) fun r u hrun => ?_
    cases r with
    | ok e a => exact ⟨_, rfl⟩
    | fail f =>
      refine bind_returns (hparts (.eitherNext ⟨n, hrun⟩)) fun r t _ => ?_
      cases r <;> exact ⟨_, rfl⟩
  | choice ps =>
    cases ps with
    | nil => exact ⟨_, rfl⟩
    | cons p ps =>
      rw [run]
      exact firstOf_returns fun before p after u hps hbefore => hparts (.choice hps hbefore)
  | seq ps allowPartial =>
    rw [run]
    exact inOrder_returns fun before p after e as u hps hbefore => hparts (.seq hps hbefore)
  | option p default =>
    rw [run]
    refine bind_returns (hparts .option) fun r u _ => ?_
    cases r <;> exact ⟨_, rfl⟩
  | opt p =>
    rw [run]
    refine bind_returns (hparts .opt) fun r u _ => ?_
    cases r <;> exact ⟨_, rfl⟩
  | many p bounds => exact many_returns henv hn hp hparts
  | manyAccum p init f bounds => exact manyAccum_returns henv hn hp hparts
  | sepBy p sep bounds => exact sepBy_returns henv hn hp.1 hp.2 hparts
  | lookAhead p =>
    rw [run]
    refine bind_returns (hparts .lookAhead) fun r u _ => ?_
    cases r <;> exact ⟨_, rfl⟩
  | notFollowedBy p =>
    rw [run]
    refine bind_returns (hparts .notFollowedBy) fun r u _ => ?_
    cases r with
    | ok e a => exact hmismatch.returns u
    | fail f => exact ⟨_, rfl⟩
  | label p name =>
    rw [run]
    refine bind_returns ⟨(s.sink, s), rfl⟩ fun before t hsink => ?_
    cases hsink
    refine bind_returns (hparts .label) fun r u _ => ?_
    cases r with
    | ok e a => exact ⟨_, rfl⟩
    | fail f => exact bind_returns ⟨_, rfl⟩ fun sink t _ => (hfail _ f).returns t
  | recognize p =>
    rw [run]
    refine bind_returns (hparts .recognize) fun r u _ => ?_
    cases r <;> exact ⟨_, rfl⟩
  | «lazy» id p =>
    rw [run]
    exact bind_returns ⟨_, rfl⟩ fun _ u hbuild => hparts (.lazy hbuild)
  | block init body => exact block_returns henv hn hp.1 hparts
  | function body => exact hp.elim

/-- A run returns if the rules that it calls do: `k` more on the bound is enough for a parser of `k`
levels. The induction is on the levels. -/
theorem run_returns_of_calls (henv : env.LibraryBuilt) {N k : Nat} (hN : env.source.len < N)
    (hp : p.Shallow rules k)
    (hcalls : ∀ i e u, p.Calls env pos s i e u → ∃ x, (rule i).run env N e u = some x) :
    ∃ x, p.run env (N + k) pos s = some x := by
  induction k generalizing α pos s with
  | zero => exact hp.elim
  | succ k ih =>
    have hn : env.source.len < N + k := Nat.lt_add_right k hN
    refine run_returns_of_parts henv hn hp.built ?_ fun i e u h => ?_
    · intro β q e u hpart
      have hq := (hpart.good_ahead henv (fun hq => hq.built) hp).1
      exact ih hq fun i e' u' h => hcalls i e' u' (.part hpart h)
    · obtain ⟨x, hx⟩ := hcalls i e u h
      exact ⟨x, run_of_le (Nat.le_add_right N (k + 1)) hx⟩

end Parser

end Backtrack
