import Backtrack.Parser.Block
import Backtrack.Proofs.Landing
import Backtrack.Proofs.Recovery.Moments
import Backtrack.Proofs.Repetition

/-!
# The discipline of recovery

A block is prompt if a signal leaves the innermost body as soon as it was obtained, or is dropped
for good (`Block.Prompt`). Straight-line steps, options, repetitions, attempts and loops make prompt
blocks, in any nesting.

In a prompt block position and signal agree whenever a body ends with a signal: the position is that
of the signal, where the parser was run that failed. For all that one step can do is move the
position forward, raise a signal where the position stands, or leave a body. So a recovery finds the
position where the discipline says it is, whatever happened inside (`Block.recovers`).
-/

namespace Backtrack

variable {σ ι : Type} {τ : ι → Type} {α β γ ν : Type}

open Act Relation

namespace Block

/-- The parsers in the block are library-built, and where one of them fails the block either passes
the signal on at once, or never does. -/
def Prompt : {ν α : Type} → Block σ τ ν α → Prop
  | _, _, .ret _ => True
  | _, _, .abort _ => False
  | _, _, .perform p allowPartial next =>
    p.LibraryBuilt ∧ (∀ b, (next (.ok b)).Prompt) ∧
      ∀ pos, next (.error ⟨pos, allowPartial⟩) = .abort ⟨pos, allowPartial⟩ ∨
        (next (.error ⟨pos, allowPartial⟩)).Prompt
  | _, _, .many p next => p.LibraryBuilt ∧ ∀ bs, (next bs).Prompt
  | _, _, .attempt body next => body.Prompt ∧ ∀ r, (next r).Prompt
  | _, _, .loop body next => body.Prompt ∧ next.Prompt
  | _, _, .position next => ∀ pos, (next pos).Prompt
  | _, _, .ask next => ∀ src cfg, (next src cfg).Prompt
  | _, _, .inspect next => ∀ s, (next s).Prompt
  | _, _, .register _ _ _ next => next.Prompt
  | _, _, .get next => ∀ v, (next v).Prompt
  | _, _, .set _ next => next.Prompt

namespace Prompt

theorem pure (a : α) : (Pure.pure a : Block σ τ ν α).Prompt := trivial

theorem bind : ∀ {ν α : Type} {body : Block σ τ ν α}, body.Prompt → ∀ {f : α → Block σ τ ν β},
    (∀ a, (f a).Prompt) → (body >>= f).Prompt
  | _, _, .ret a, _, f, hf => hf a
  | _, _, .perform p allowPartial next, h, f, hf => by
    refine ⟨h.1, fun b => (h.2.1 b).bind hf, fun pos => ?_⟩
    rcases h.2.2 pos with habort | hnext
    · refine .inl ?_
      dsimp only
      rw [habort, Block.bind]
    · exact .inr (hnext.bind hf)
  | _, _, .many p next, h, f, hf => ⟨h.1, fun bs => (h.2 bs).bind hf⟩
  | _, _, .attempt body next, h, f, hf => ⟨h.1, fun r => (h.2 r).bind hf⟩
  | _, _, .loop body next, h, f, hf => ⟨h.1, h.2.bind hf⟩
  | _, _, .position next, h, f, hf => fun pos => (h pos).bind hf
  | _, _, .ask next, h, f, hf => fun src cfg => (h src cfg).bind hf
  | _, _, .inspect next, h, f, hf => fun s => (h s).bind hf
  | _, _, .register _ _ _ next, h, f, hf => (show next.Prompt from h).bind hf
  | _, _, .get next, h, f, hf => fun v => (h v).bind hf
  | _, _, .set _ next, h, f, hf => (show next.Prompt from h).bind hf

variable {p : Parser σ τ α} {body : Block σ τ ν α}

theorem step (hp : p.LibraryBuilt) (allowPartial : Bool) :
    (Block.step p allowPartial : Block σ τ ν α).Prompt :=
  ⟨hp, fun _ => trivial, fun _ => .inl rfl⟩

theorem option (hp : p.LibraryBuilt) : (Block.option p : Block σ τ ν (Option α)).Prompt :=
  ⟨hp, fun _ => trivial, fun _ => .inr trivial⟩

theorem optionOr (hp : p.LibraryBuilt) (default : α) :
    (Block.optionOr p default : Block σ τ ν α).Prompt :=
  ⟨hp, fun _ => trivial, fun _ => .inr trivial⟩

theorem collect (hp : p.LibraryBuilt) : (Block.collect p : Block σ τ ν (List α)).Prompt :=
  ⟨hp, fun _ => trivial⟩

theorem recover (h : body.Prompt) : (Block.recover body).Prompt := ⟨h, fun _ => trivial⟩

theorem recoverOr (h : body.Prompt) (default : α) : (Block.recoverOr default body).Prompt :=
  ⟨h, fun _ => trivial⟩

theorem passes {body : Block σ τ ν Unit} (h : body.Prompt) : (Block.passes body).Prompt :=
  ⟨h, trivial⟩

end Prompt

/-! ## What holds at every moment -/

/-- Around a body that stands at `pos`, every body started where the one inside it starts or before,
and what comes after it is prompt. -/
def Frames.Fits : {β : Type} → Frames σ τ ν α β → Nat → Prop
  | _, .block start, pos => start ≤ pos
  | _, .attempt start next outer, pos => start ≤ pos ∧ (∀ r, (next r).Prompt) ∧ outer.Fits start
  | _, .pass start body next outer, pos =>
    start ≤ pos ∧ body.Prompt ∧ next.Prompt ∧ outer.Fits start

theorem Frames.Fits.start_le {F : Frames σ τ ν α β} {pos : Nat} (h : F.Fits pos) :
    F.start ≤ pos := by
  cases F with
  | block start => exact h
  | attempt start next outer => exact h.1
  | pass start body next outer => exact h.1

theorem Frames.Fits.mono {F : Frames σ τ ν α β} {pos q : Nat} (h : F.Fits pos) (hle : pos ≤ q) :
    F.Fits q := by
  cases F with
  | block start => exact Nat.le_trans h hle
  | attempt start next outer => exact ⟨Nat.le_trans h.1 hle, h.2⟩
  | pass start body next outer => exact ⟨Nat.le_trans h.1 hle, h.2⟩

/-- A recovery does not fall behind the start of the body. -/
theorem le_resumed {start pos : Nat} (h : start ≤ pos) (e : Abort) :
    start ≤ resumed e start pos := by
  unfold resumed
  split
  · exact h
  · exact Nat.le_refl start

/-- The position fits, and what is left to do is prompt, or a signal that was raised there. -/
structure Moment.Sound (m : Moment σ τ ν α) : Prop where
  fits : m.frames.Fits m.position
  ready : m.rest.Prompt ∨ ∃ e, m.rest = .abort e ∧ e.position = m.position

/-- A body that has steps left is prompt. -/
theorem Moment.Sound.prompt {m : Moment σ τ ν α} (h : m.Sound) (hrest : ∀ e, m.rest ≠ .abort e) :
    m.rest.Prompt := by
  rcases h.ready with hprompt | ⟨e, he, -⟩
  · exact hprompt
  · exact absurd he (hrest e)

/-- When a body ends with a signal, the position is that of the signal. -/
theorem Moment.Sound.position_eq {m : Moment σ τ ν α} (h : m.Sound) {e : Abort}
    (he : m.rest = .abort e) : m.position = e.position := by
  rcases h.ready with hprompt | ⟨e', he', hpos⟩
  · rw [he] at hprompt
    exact hprompt.elim
  · cases he.symm.trans he'
    exact hpos.symm

theorem Moment.sound_begin {body : Block σ τ ν α} (hbody : body.Prompt) (init : ν) (pos : Nat)
    (s : State) : (Moment.begin init body pos s).Sound :=
  ⟨Nat.le_refl pos, .inl hbody⟩

variable [BEq σ] [Describe σ] {env : Env σ τ}

open Moment

/-- What one step does to a body that is in order. Either the body is prompt after it, or a parser
has failed and the body ends with its signal. -/
theorem Moment.Step.kept (henv : env.LibraryBuilt) {m m' : Moment σ τ ν α} (h : Step env m m')
    (hm : m.Sound) :
    m'.frames.Fits m'.position ∧
      (m'.rest.Prompt ∨
        ∃ (β : Type) (p : Parser σ τ β) (allowPartial : Bool)
          (next : Except Abort β → Block σ τ ν m'.β) (f : Nat) (s : State),
          m = ⟨m'.frames, .perform p allowPartial next, m'.position, m'.vars, s⟩ ∧
          p.ComesTo env m'.position s (.fail f) m'.state ∧
          next (.error ⟨m'.position, allowPartial⟩) = m'.rest ∧
          m'.rest = .abort ⟨m'.position, allowPartial⟩) := by
  have hfits := hm.fits
  cases h with
  | succeed hrun =>
    have hprompt := hm.prompt nofun
    obtain ⟨n, hrun⟩ := hrun
    obtain ⟨-, hle, -⟩ := Parser.run_forward henv hprompt.1 hrun
    exact ⟨hfits.mono hle, .inl (hprompt.2.1 _)⟩
  | fail hrun =>
    have hprompt := hm.prompt nofun
    rcases hprompt.2.2 _ with habort | hnext
    · exact ⟨hfits, .inr ⟨_, _, _, _, _, _, rfl, hrun, rfl, habort⟩⟩
    · exact ⟨hfits, .inl hnext⟩
  | many hrun => exact ⟨hfits.mono hrun.le, .inl ((hm.prompt nofun).2 _)⟩
  | tryBody =>
    have hprompt := hm.prompt nofun
    exact ⟨⟨Nat.le_refl _, hprompt.2, hfits⟩, .inl hprompt.1⟩
  -- Leaving a body, the outer one stands at or behind the start of the inner one.
  | triedBody =>
    obtain ⟨hle, hnext, houter⟩ := hfits
    exact ⟨houter.mono hle, .inl (hnext _)⟩
  | recover =>
    obtain ⟨hle, hnext, houter⟩ := hfits
    exact ⟨houter.mono (le_resumed hle _), .inl (hnext none)⟩
  | firstPass =>
    have hprompt := hm.prompt nofun
    exact ⟨⟨Nat.le_refl _, hprompt.1, hprompt.2, hfits⟩, .inl hprompt.1⟩
  | nextPass hlt =>
    obtain ⟨hle, hbody, hnext, houter⟩ := hfits
    exact ⟨⟨Nat.le_refl _, hbody, hnext, houter.mono hle⟩, .inl hbody⟩
  | lastPass _ =>
    obtain ⟨hle, -, hnext, houter⟩ := hfits
    exact ⟨houter.mono hle, .inl hnext⟩
  | leaveLoop =>
    obtain ⟨hle, -, hnext, houter⟩ := hfits
    exact ⟨houter.mono (le_resumed hle _), .inl hnext⟩
  | position => exact ⟨hfits, .inl ((hm.prompt nofun) _)⟩
  | ask => exact ⟨hfits, .inl ((hm.prompt nofun) _ _)⟩
  | inspect => exact ⟨hfits, .inl ((hm.prompt nofun) _)⟩
  | get => exact ⟨hfits, .inl ((hm.prompt nofun) _)⟩
  | register _ => exact ⟨hfits, .inl (hm.prompt nofun)⟩
  | set => exact ⟨hfits, .inl (hm.prompt nofun)⟩

theorem Moment.Step.sound (henv : env.LibraryBuilt) {m m' : Moment σ τ ν α} (h : Step env m m')
    (hm : m.Sound) : m'.Sound := by
  obtain ⟨hfits, hprompt | ⟨_, _, _, _, _, _, -, -, -, habort⟩⟩ := h.kept henv hm
  · exact ⟨hfits, .inl hprompt⟩
  · exact ⟨hfits, .inr ⟨_, habort, rfl⟩⟩

section Run

variable {init : ν} {body : Block σ τ ν α} {pos : Nat} {s : State}

theorem Moment.Reaches.sound (henv : env.LibraryBuilt) {m m' : Moment σ τ ν α}
    (h : Reaches env m m') (hm : m.Sound) : m'.Sound := by
  induction h with
  | refl => exact hm
  | tail _ hstep ih => exact hstep.sound henv ih

/-- A signal comes from a parser that failed where the body stands. -/
theorem Moment.Reaches.raised (henv : env.LibraryBuilt) (hbody : body.Prompt)
    {F : Frames σ τ ν α γ} {e : Abort} {q : Nat} {v : ν} {u : State}
    (h : Reaches env (.begin init body pos s) ⟨F, .abort e, q, v, u⟩) :
    ∃ (β : Type) (p : Parser σ τ β) (next : Except Abort β → Block σ τ ν γ) (f : Nat) (u' : State),
      Reaches env (.begin init body pos s) ⟨F, .perform p e.allowPartial next, q, v, u'⟩ ∧
        p.ComesTo env q u' (.fail f) u ∧ next (.error e) = .abort e := by
  -- The last step was the failure: every other one leaves a prompt body.
  rcases ReflTransGen.cases_tail h with heq | ⟨m, hreach, hstep⟩
  · cases heq
    exact hbody.elim
  · have hm := Reaches.sound henv hreach (sound_begin hbody init pos s)
    obtain ⟨-, hprompt | ⟨β, p, allowPartial, next, f, u', rfl, hrun, hnext, habort⟩⟩ :=
      hstep.kept henv hm
    · exact hprompt.elim
    · have he : e = ⟨q, allowPartial⟩ := Block.abort.inj habort
      subst he
      exact ⟨β, p, next, f, u', hreach, hrun, hnext⟩

/-- What recovery keeps to in a block that starts at `pos`, at every moment of its run. -/
structure Recovers (env : Env σ τ) (init : ν) (body : Block σ τ ν α) (pos : Nat) (s : State) :
    Prop where
  /-- The position does not fall behind the start of the innermost body. -/
  inside : ∀ m, Reaches env (.begin init body pos s) m → m.frames.start ≤ m.position
  /-- When a body ends with a signal, the position is that of the signal, and the signal comes from
  a parser of that body, which was run there and failed. -/
  raised : ∀ {γ : Type} (F : Frames σ τ ν α γ) e q v u,
    Reaches env (.begin init body pos s) ⟨F, .abort e, q, v, u⟩ →
    q = e.position ∧
      ∃ (β : Type) (p : Parser σ τ β) (next : Except Abort β → Block σ τ ν γ) (f : Nat)
        (u' : State),
        Reaches env (.begin init body pos s) ⟨F, .perform p e.allowPartial next, q, v, u'⟩ ∧
          p.ComesTo env q u' (.fail f) u ∧ next (.error e) = .abort e
  /-- An attempt that recovers goes on where its body started, or at the position of the signal if
  that allows a partial result. -/
  attempt : ∀ {β γ : Type} (F : Frames σ τ ν α γ) (next : Option β → Block σ τ ν γ) start e q v u,
    Reaches env (.begin init body pos s) ⟨.attempt start next F, .abort e, q, v, u⟩ →
    (∃ inner v' u', Reaches env (.begin init body pos s) ⟨F, .attempt inner next, start, v', u'⟩) ∧
    ∀ m, Step env ⟨.attempt start next F, .abort e, q, v, u⟩ m ↔
      m = ⟨F, next none, if e.allowPartial then e.position else start, v, u⟩
  /-- So does a loop after its last pass. -/
  pass : ∀ {γ : Type} (F : Frames σ τ ν α γ) inner (next : Block σ τ ν γ) start e q v u,
    Reaches env (.begin init body pos s) ⟨.pass start inner next F, .abort e, q, v, u⟩ →
    (∃ v' u', Reaches env (.begin init body pos s)
      ⟨.pass start inner next F, inner, start, v', u'⟩) ∧
    ∀ m, Step env ⟨.pass start inner next F, .abort e, q, v, u⟩ m ↔
      m = ⟨F, next, if e.allowPartial then e.position else start, v, u⟩
  /-- The block succeeds where its body ends with a value, and fails where the signal was raised
  that its body ends with. -/
  returns : ∀ r t, (Parser.block init body).ComesTo env pos s r t ↔
    (∃ a q v, Reaches env (.begin init body pos s) ⟨.block pos, .ret a, q, v, t⟩ ∧
      r = .ok q a) ∨
    ∃ e v, Reaches env (.begin init body pos s) ⟨.block pos, .abort e, e.position, v, t⟩ ∧
      r = .fail e.position
  /-- A block that runs this one and sees it fail stays where it was. -/
  caller : ∀ {ν' α' γ : Type} (F : Frames σ τ ν' α' γ) allowPartial
    (next : Except Abort α → Block σ τ ν' γ) v e w t,
    Reaches env (.begin init body pos s) ⟨.block pos, .abort e, e.position, w, t⟩ →
    ∀ m, Step env ⟨F, .perform (.block init body) allowPartial next, pos, v, s⟩ m ↔
      m = ⟨F, next (.error ⟨pos, allowPartial⟩), pos, v, t⟩

theorem comesTo_block_of_prompt (henv : env.LibraryBuilt) (hbody : body.Prompt) {r : Outcome α}
    {t : State} :
    (Parser.block init body).ComesTo env pos s r t ↔
      (∃ a q v, Reaches env (.begin init body pos s) ⟨.block pos, .ret a, q, v, t⟩ ∧
        r = .ok q a) ∨
      ∃ e v, Reaches env (.begin init body pos s) ⟨.block pos, .abort e, e.position, v, t⟩ ∧
        r = .fail e.position := by
  rw [Parser.comesTo_block]
  constructor
  · rintro ⟨x, q, v, h, rfl⟩
    cases x with
    | ok a => exact .inl ⟨a, q, v, h, rfl⟩
    | error e =>
      have hpos : q = e.position := (h.sound henv (sound_begin hbody init pos s)).position_eq rfl
      exact .inr ⟨e, v, hpos ▸ h, rfl⟩
  · rintro (⟨a, q, v, h, rfl⟩ | ⟨e, v, h, rfl⟩)
    · exact ⟨.ok a, q, v, h, rfl⟩
    · exact ⟨.error e, e.position, v, h, rfl⟩

/-- In a prompt block, the positions are where the discipline of recovery says they are. -/
theorem recovers (henv : env.LibraryBuilt) (hbody : body.Prompt) (init : ν) (pos : Nat)
    (s : State) : Recovers env init body pos s where
  inside m h := (h.sound henv (sound_begin hbody init pos s)).fits.start_le
  raised F e q v u h :=
    ⟨(h.sound henv (sound_begin hbody init pos s)).position_eq rfl, h.raised henv hbody⟩
  attempt F next start e q v u h := by
    have hpos : q = e.position := (h.sound henv (sound_begin hbody init pos s)).position_eq rfl
    refine ⟨h.entered.1, fun m => ?_⟩
    rw [step_attempt_abort, resumed, hpos]
  pass F inner next start e q v u h := by
    have hpos : q = e.position := (h.sound henv (sound_begin hbody init pos s)).position_eq rfl
    refine ⟨h.entered.1, fun m => ?_⟩
    rw [step_pass_abort, resumed, hpos]
  returns r t := comesTo_block_of_prompt henv hbody
  caller F allowPartial next v e w t h m := by
    have hfail : (Parser.block init body).ComesTo env pos s (.fail e.position) t :=
      (comesTo_block_of_prompt henv hbody).mpr (.inr ⟨e, w, h, rfl⟩)
    constructor
    · intro hstep
      cases hstep with
      | succeed hrun =>
        obtain ⟨hr, -⟩ := hrun.unique hfail
        cases hr
      | fail hrun =>
        obtain ⟨-, rfl⟩ := hrun.unique hfail
        rfl
    · rintro rfl
      exact .fail hfail

end Run

/-- Passes that first look for an `x` as the second letter, and then take an `a` and a `b`. After
them there may be some `y`, and there has to be a `z`. An `a` without a `b` is kept. -/
def abPairs : Block Char τ Unit Char := do
  passes do
    let _ ← Block.recover do
      let _ ← Block.step .any false
      Block.step (.el 'x') false
    let _ ← Block.step (.el 'a') false
    let _ ← Block.step (.el 'b') true
  let _ ← Block.collect (.el 'y')
  let _ ← Block.option (.el 'y')
  let y ← Block.optionOr (.el 'y') 'n'
  let _ ← Block.recoverOr y (Block.step (.el 'y') true)
  Block.step (.el 'z') false

theorem prompt_abPairs : (abPairs : Block Char τ Unit Char).Prompt := by
  have hany : (Parser.any : Parser Char τ Char).LibraryBuilt := trivial
  have hel (c : Char) : (Parser.el c : Parser Char τ Char).LibraryBuilt := trivial
  refine .bind (.passes ?_) fun _ => ?_
  · refine .bind (.recover (.bind (.step hany false) fun _ => .step (hel 'x') false)) fun _ => ?_
    exact .bind (.step (hel 'a') false) fun _ => .bind (.step (hel 'b') true) fun _ => .pure ()
  · refine .bind (.collect (hel 'y')) fun _ => .bind (.option (hel 'y')) fun _ => ?_
    refine .bind (.optionOr (hel 'y') 'n') fun y => ?_
    exact .bind (.recoverOr (.step (hel 'y') true) y) fun _ => .step (hel 'z') false

/-- The first attempt looks one letter ahead and goes back to the start. The second pair is not
complete: its letter is kept, and the block fails behind it. -/
theorem recovers_abPairs :
    let env := Env.bare (.text ['a', 'b', 'a', 'c'])
    let begin : Moment Char (Empty.elim : Empty → Type) Unit Char := .begin () abPairs 0 {}
    (env.LibraryBuilt ∧ (abPairs : Block Char (Empty.elim : Empty → Type) Unit Char).Prompt) ∧
      (∃ (F : Frames Char (Empty.elim : Empty → Type) Unit Char Unit)
        (next : Option Char → Block Char (Empty.elim : Empty → Type) Unit Unit) (u : State),
        Reaches env begin ⟨.attempt 0 next F, .abort ⟨1, false⟩, 1, (), u⟩ ∧
          Step env ⟨.attempt 0 next F, .abort ⟨1, false⟩, 1, (), u⟩ ⟨F, next none, 0, (), u⟩) ∧
      ∃ e t, e.position = 3 ∧ Reaches env begin ⟨.block 0, .abort e, 3, (), t⟩ := by
  intro env begin
  have henv : env.LibraryBuilt := Env.bare_builtFrom _ _
  have hrecovers := recovers henv prompt_abPairs () 0 {}
  refine ⟨⟨henv, prompt_abPairs⟩, ?_, ?_⟩
  · have hx : (Parser.el 'x' : Parser Char (Empty.elim : Empty → Type) Char).ComesTo env 1 {}
        (.fail 1) _ := ⟨1, rfl⟩
    have hreach : Reaches env begin ⟨.attempt 0 _ _, .abort ⟨1, false⟩, 1, (), _⟩ :=
      .head .firstPass (.head .tryBody (.head (.succeed ⟨1, rfl⟩) (.head (.fail hx) .refl)))
    obtain ⟨-, hstep⟩ := hrecovers.attempt _ _ _ _ _ _ _ hreach
    exact ⟨_, _, _, hreach, (hstep _).mpr rfl⟩
  · have hrun : ((Parser.block () abPairs).run env 8 0 {}).map Prod.fst = some (.fail 3) := by
      decide +kernel
    obtain ⟨⟨_, t⟩, hrun, rfl⟩ := Option.map_eq_some_iff.mp hrun
    rcases (hrecovers.returns _ _).mp (.of_run hrun) with ⟨_, _, _, -, h⟩ | ⟨e, v, hreach, h⟩
    · cases h
    · have he : e.position = 3 := (Outcome.fail.inj h).symm
      exact ⟨e, t, he, he ▸ hreach⟩

end Block

end Backtrack
