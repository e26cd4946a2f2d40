import Backtrack.Proofs.Repetition
import Backtrack.Proofs.Returns
import Backtrack.Proofs.Sequences
import Backtrack.Proofs.Termination.Loops

/-!
# Repetition returns

A parser is reliable from `pos` on if it is library-built and every single run of it returns, at
`pos` or ahead of it, whatever the state (`Parser.Reliable`). It may succeed without advancing, and
what it returns may depend on the state. Still each repetition of it returns: there are at most as
many values as positions between the start and the end of the repetition, with one more for a
separated list, whose first item need not advance (`Parser.repetition_returns`).

The combinators that give up nothing, such as repetition itself, options, lookahead and partial
sequences, make reliable parsers of reliable ones, so that repetitions may be nested.
-/

namespace Backtrack

variable {σ ι : Type} {τ : ι → Type} {α β γ ν : Type} [BEq σ] [Describe σ]

open Act Block Relation

/-- The parser is library-built, and every single run of it at `pos` or ahead of it returns. -/
structure Parser.Reliable (env : Env σ τ) (pos : Nat) (p : Parser σ τ α) : Prop where
  built : p.LibraryBuilt
  returns : ∀ q, env.source.Ahead pos q → ∀ s, ∃ r t, p.ComesTo env q s r t

namespace Parser

variable {env : Env σ τ} {p : Parser σ τ α} {sep : Parser σ τ β} {pos q : Nat} {s t : State}

/-! ## Combinators -/

namespace Reliable

/-- From a position further ahead as well. -/
theorem later (hp : p.Reliable env pos) (hq : env.source.Ahead pos q) : p.Reliable env q :=
  ⟨hp.built, fun q' hq' => hp.returns q' (hq.trans hq')⟩

/-- To show that a combinator makes a reliable parser, it is enough to look at its runs at `pos`,
for every `pos`. -/
theorem of_runs {p' : Parser σ τ β} (hp : p.Reliable env pos) (hbuilt : p'.LibraryBuilt)
    (h : ∀ {q}, p.Reliable env q → ∀ s, ∃ r t, p'.ComesTo env q s r t) : p'.Reliable env pos :=
  ⟨hbuilt, fun _ hq => h (hp.later hq)⟩

theorem run (hp : p.Reliable env pos) (s : State) : ∃ r t, p.ComesTo env pos s r t :=
  hp.returns pos (.refl _ pos) s

theorem el (env : Env σ τ) (pos : Nat) (x : σ) : (Parser.el x).Reliable env pos := by
  refine ⟨trivial, fun q _ s => ?_⟩
  have hreject : (failWith (.expected q (describe x)) q : Act (Outcome σ)).Yields fun _ => True :=
    (Yields.register q _).bind fun _ _ => .pure trivial
  obtain ⟨r, t, hrun, -⟩ := Yields.symbolWhere hreject s
  refine ⟨r, t, .of_run (n := 1) ?_⟩
  rw [Parser.run]
  exact hrun

theorem lookAhead (hp : p.Reliable env pos) : p.lookAhead.Reliable env pos := by
  refine hp.of_runs hp.built fun hp s => ?_
  obtain ⟨r, t, hrun⟩ := hp.run s
  cases r with
  | ok e a => exact ⟨_, t, comesTo_lookAhead.mpr (.inl ⟨e, a, hrun, rfl⟩)⟩
  | fail f => exact ⟨_, t, comesTo_lookAhead.mpr (.inr ⟨f, hrun, rfl⟩)⟩

theorem option (hp : p.Reliable env pos) (default : α) : (p.option default).Reliable env pos := by
  refine hp.of_runs hp.built fun hp s => ?_
  obtain ⟨r, t, hrun⟩ := hp.run s
  cases r with
  | ok e a => exact ⟨_, t, comesTo_option.mpr (.inl ⟨e, a, hrun, rfl⟩)⟩
  | fail f => exact ⟨_, t, comesTo_option.mpr (.inr ⟨f, hrun, rfl⟩)⟩

theorem opt (hp : p.Reliable env pos) : p.opt.Reliable env pos := by
  refine hp.of_runs hp.built fun hp s => ?_
  obtain ⟨r, t, hrun⟩ := hp.run s
  cases r with
  | ok e a => exact ⟨_, t, comesTo_opt.mpr (.inl ⟨e, a, hrun, rfl⟩)⟩
  | fail f => exact ⟨_, t, comesTo_opt.mpr (.inr ⟨f, hrun, rfl⟩)⟩

theorem andThen (henv : env.LibraryBuilt) (hp : p.Reliable env pos) (hsep : sep.Reliable env pos) :
    (sep.andThen p).Reliable env pos := by
  refine ⟨⟨hsep.built, hp.built⟩, fun q hq s => ?_⟩
  obtain ⟨r, u, hrun⟩ := hsep.returns q hq s
  cases r with
  | fail f => exact ⟨_, u, comesTo_andMap.mpr (.inr ⟨f, hrun, rfl⟩)⟩
  | ok e b =>
    obtain ⟨r', t, hrest⟩ := hp.returns e (hq.trans (hrun.ahead henv hsep.built)) u
    exact ⟨_, t, comesTo_andMap.mpr (.inl ⟨e, b, u, r', hrun, hrest, rfl⟩)⟩

/-- The loop behind repetition returns. -/
theorem repeats (henv : env.LibraryBuilt) (hp : p.Reliable env pos) (limit : Option Nat)
    (s : State) : ∃ as e t, p.Repeats env limit pos s as e t := by
  have htried : ∀ q u, p.Tried env limit pos s q u →
      Answers (fun n => fun p q => Parser.run env n p q) p q u :=
    fun q u h => hp.returns q (h.ahead henv hp.built) u
  obtain ⟨as, e, t, -, hrepeats⟩ :=
    (Calling.run env).manyLoop_returns henv hp.built (Nat.lt_succ_self _) htried
  exact ⟨as, e, t, hrepeats⟩

theorem many (henv : env.LibraryBuilt) (hp : p.Reliable env pos) (bounds : Bounds) :
    (p.many bounds).Reliable env pos := by
  refine hp.of_runs hp.built fun hp s => ?_
  obtain ⟨as, e, u, hrepeats⟩ := hp.repeats henv bounds.max s
  obtain ⟨⟨r, t⟩, hend⟩ := atLeast_returns bounds.min as.length e as u
  exact ⟨r, t, comesTo_many.mpr ⟨as, e, u, hrepeats, hend⟩⟩

theorem manyAccum (henv : env.LibraryBuilt) (hp : p.Reliable env pos) (init : γ) (f : γ → α → γ)
    (bounds : Bounds) : (p.manyAccum init f bounds).Reliable env pos := by
  refine hp.of_runs hp.built fun hp s => ?_
  obtain ⟨as, e, u, hrepeats⟩ := hp.repeats henv bounds.max s
  obtain ⟨⟨r, t⟩, hend⟩ := atLeast_returns bounds.min as.length e (as.foldl f init) u
  exact ⟨r, t, comesTo_manyAccum.mpr ⟨as, e, u, hrepeats, hend⟩⟩

/-- After the first item, the separator and the item are repeated together. -/
theorem sepBy (henv : env.LibraryBuilt) (hp : p.Reliable env pos) (hsep : sep.Reliable env pos)
    (bounds : Bounds) : (p.sepBy sep bounds).Reliable env pos := by
  refine ⟨⟨hp.built, hsep.built⟩, fun q hq s => ?_⟩
  by_cases hmax : bounds.max = some 0
  · obtain ⟨⟨r, t⟩, hend⟩ := atLeast_returns bounds.min 0 q ([] : List α) s
    refine ⟨r, t, 1, ?_⟩
    dsimp only
    rw [Parser.run, if_pos hmax]
    exact hend
  · obtain ⟨r, u, hrun⟩ := hp.returns q hq s
    cases r with
    | fail f =>
      obtain ⟨⟨r, t⟩, hend⟩ := atLeast_returns bounds.min 0 q ([] : List α) u
      exact ⟨r, t, (comesTo_sepBy hmax).mpr (.inr ⟨f, u, hrun, hend⟩)⟩
    | ok e a =>
      have he := hq.trans (hrun.ahead henv hp.built)
      obtain ⟨as, e', v, hrepeats⟩ :=
        ((hp.andThen henv hsep).later he).repeats henv (bounds.max.map (· - 1)) u
      obtain ⟨⟨r, t⟩, hend⟩ := atLeast_returns bounds.min (as.length + 1) e' (a :: as) v
      exact ⟨r, t, (comesTo_sepBy hmax).mpr (.inl ⟨e, a, u, as, e', v, hrun, hrepeats, hend⟩)⟩

/-- A list of reliable parsers is run to its end, or up to the first failure. -/
theorem seq (henv : env.LibraryBuilt) {ps : List (Parser σ τ α)} (allowPartial : Bool)
    (hps : ∀ p ∈ ps, p.Reliable env pos) :
    (Parser.seq (.ofList ps) allowPartial).Reliable env pos := by
  induction ps generalizing pos with
  | nil => exact ⟨trivial, fun q _ s => ⟨_, s, comesTo_seq_nil.mpr ⟨rfl, rfl⟩⟩⟩
  | cons p ps ih =>
    have hp := hps p List.mem_cons_self
    have hrest : ∀ p' ∈ ps, p'.Reliable env pos := fun p' h => hps p' (List.mem_cons_of_mem p h)
    refine ⟨⟨hp.built, (ih hrest).built⟩, fun q hq s => ?_⟩
    obtain ⟨r, u, hrun⟩ := hp.returns q hq s
    cases r with
    | fail f => exact ⟨_, u, comesTo_seq_cons.mpr (.inr ⟨f, hrun, rfl⟩)⟩
    | ok e a =>
      have he := hq.trans (hrun.ahead henv hp.built)
      obtain ⟨r, t, hseq⟩ := (ih hrest).returns e he u
      exact ⟨_, t, comesTo_seq_cons.mpr (.inl ⟨e, a, u, r, hrun, hseq, rfl⟩)⟩

end Reliable

/-! ## Blocks -/

section Blocks

variable {body : Block σ τ ν γ} {start : Nat} {u : State}

/-- At every moment of a block of reliable parsers, the parser that is run next returns. -/
theorem Reliable.answered (henv : env.LibraryBuilt)
    (hbody : body.Uses fun p => p.Reliable env pos) {init : ν} {m : Moment σ τ ν γ}
    (hreach : Moment.Reaches env (.begin init body pos s) m) :
    m.Answered env fun n => fun p q => Parser.run env n p q := by
  obtain ⟨hpos, hrest, -⟩ := hreach.uses henv (fun hp => hp.built) hbody
  obtain ⟨F, rest, q, v, u⟩ := m
  cases rest with
  | perform p allowPartial next => exact hrest.1.returns q hpos u
  | many p next =>
    intro q' u' htried
    exact hrest.1.returns q' (hpos.trans (htried.ahead henv hrest.1.built)) u'
  | _ => trivial

/-- The bounds on the runs and on the loops of a block may be one. -/
theorem exec_simulates_execIn (body : Block σ τ ν γ) (n L pos : Nat) (v : ν) :
    Simulates (Both fun _ => True)
      (body.exec (fun p q => p.run env n q) env.source env.config L pos v)
      (body.execIn env (max n L) pos v) :=
  exec_of_le .trivial _ _ (Nat.le_max_right n L)
    (fun p q => run_simulates_of_le .trivial (Nat.le_max_left n L) p q) body pos v

theorem Reliable.exec (henv : env.LibraryBuilt) (hbody : body.Uses fun p => p.Reliable env pos)
    (v : ν) (s : State) : ∃ n r q w t, body.execIn env n pos v s = some ((r, q, w), t) := by
  obtain ⟨r, q, w, t, ⟨n, hn⟩, -⟩ := (Calling.run env).exec_returns henv (fun hp => hp.built)
    (Nat.lt_succ_self _) (fun m hm => Reliable.answered henv hbody hm) body (.block pos) hbody .refl
  exact ⟨_, r, q, w, t, (exec_simulates_execIn body n _ pos v).eq_some hn⟩

/-- A block of reliable parsers is reliable, if it leaves the sink alone. -/
theorem Reliable.block (henv : env.LibraryBuilt) (hbuilt : body.BuiltFrom fun _ _ => True)
    (hbody : body.Uses fun p => p.Reliable env pos) (init : ν) :
    (Parser.block init body).Reliable env pos := by
  refine ⟨⟨hbuilt, trivial⟩, fun q hq s => ?_⟩
  have hlater := hbody.imp fun _ hp => hp.later hq
  obtain ⟨n, r, e, w, t, hrun⟩ := Reliable.exec henv hlater init s
  have hreach := exec_iff_reaches.mp ⟨n, hrun⟩
  exact ⟨_, t, comesTo_block.mpr ⟨r, e, w, hreach, rfl⟩⟩

variable {body : Block σ τ ν Unit}

/-- A loop over reliable parsers makes no more passes than there are positions ahead, and one. -/
theorem Reliable.passes_le (henv : env.LibraryBuilt)
    (hbody : body.Uses fun p => p.Reliable env pos) (v : ν) (s : State) :
    ∃ n q w t, passLoop (body.execIn env n) (env.source.len - pos + 1) pos v s =
      some ((q, w), t) := by
  have hloop : (Block.passes body).Uses fun p => p.Reliable env pos := ⟨hbody, trivial⟩
  have hruns (m : Moment σ τ ν Unit)
      (hm : Moment.Reaches env (.begin v (Block.passes body) pos s) m) :=
    Reliable.answered henv hloop hm
  obtain ⟨q, w, t, ⟨n, hn⟩, -⟩ := (Calling.run env).loop_returns
    (fun start q w u hq => (Calling.run env).exec_returns henv (fun hp => hp.built)
      (Nat.lt_succ_self _) hruns body (.pass start body (.ret ()) (.block pos)) hbody hq)
    (Nat.lt_succ_self _) .refl
  let L := env.source.len + 1
  have hmore : Simulates (Both fun _ => True)
      (passLoop (fun q w => body.exec (fun p q => p.run env n q) env.source env.config L q w)
        (env.source.len - pos + 1) pos v)
      (passLoop (body.execIn env (max n L)) (env.source.len - pos + 1) pos v) :=
    .passLoop (exec_simulates_execIn body n L) (Nat.le_refl _) pos v
  exact ⟨max n L, q, w, t, hmore.eq_some hn⟩

/-- So it returns, and does not fail. -/
theorem Reliable.passes (henv : env.LibraryBuilt) (hbody : body.Uses fun p => p.Reliable env pos)
    (v : ν) (s : State) :
    ∃ q t, (Parser.block v (Block.passes body)).ComesTo env pos s (.ok q ()) t := by
  have hloop : (Block.passes body).Uses fun p => p.Reliable env pos := ⟨hbody, trivial⟩
  obtain ⟨n, r, q, w, t, hrun⟩ := Reliable.exec henv hloop v s
  refine ⟨q, t, comesTo_block.mpr ⟨r, q, w, exec_iff_reaches.mp ⟨n, hrun⟩, ?_⟩⟩
  rw [execIn, Block.passes, Block.exec] at hrun
  obtain ⟨⟨q', w'⟩, u, -, hend⟩ := bind_eq_some.mp hrun
  cases hend
  rfl

end Blocks

/-! ## Sizes -/

variable {e : Nat} {bounds : Bounds}

theorem length_of_many (henv : env.LibraryBuilt) (hp : p.LibraryBuilt) {as : List α}
    (h : (p.many bounds).ComesTo env pos s (.ok e as) t) : as.length ≤ e - pos := by
  obtain ⟨as', e', u, hrepeats, hend⟩ := comesTo_many.mp h
  obtain ⟨-, heq, -⟩ | ⟨-, heq, -⟩ := atLeast_eq_some.mp hend
  · cases heq
    exact (hrepeats.spans henv hp).2
  · cases heq

theorem length_of_manyAccum (henv : env.LibraryBuilt) (hp : p.LibraryBuilt) {init b : γ}
    {f : γ → α → γ} (h : (p.manyAccum init f bounds).ComesTo env pos s (.ok e b) t) :
    ∃ as, p.Repeats env bounds.max pos s as e t ∧ b = as.foldl f init ∧ as.length ≤ e - pos := by
  obtain ⟨as, e', u, hrepeats, hend⟩ := comesTo_manyAccum.mp h
  obtain ⟨-, heq, rfl⟩ | ⟨-, heq, -⟩ := atLeast_eq_some.mp hend
  · cases heq
    exact ⟨as, hrepeats, rfl, (hrepeats.spans henv hp).2⟩
  · cases heq

/-- The first item need not advance. -/
theorem length_of_sepBy (henv : env.LibraryBuilt) (hp : p.LibraryBuilt) (hsep : sep.LibraryBuilt)
    {as : List α} (h : (p.sepBy sep bounds).ComesTo env pos s (.ok e as) t) :
    as.length ≤ e - pos + 1 := by
  by_cases hmax : bounds.max = some 0
  · obtain ⟨n, h⟩ := h.exists_run
    rw [run, if_pos hmax] at h
    obtain ⟨-, heq, -⟩ | ⟨-, heq, -⟩ := atLeast_eq_some.mp h
    · cases heq
      exact Nat.zero_le _
    · cases heq
  · obtain ⟨q, a, u, as', e', v, hrun, hrepeats, hend⟩ | ⟨f, u, -, hend⟩ :=
      (comesTo_sepBy hmax).mp h
    · obtain ⟨-, heq, -⟩ | ⟨-, heq, -⟩ := atLeast_eq_some.mp hend
      · cases heq
        have hbuilt : (sep.andThen p).LibraryBuilt := ⟨hsep, hp⟩
        have hlength := (hrepeats.spans henv hbuilt).2
        have hle := (hrun.ahead henv hp).1
        rw [List.length_cons]
        omega
      · cases heq
    · obtain ⟨-, heq, -⟩ | ⟨-, heq, -⟩ := atLeast_eq_some.mp hend
      · cases heq
        exact Nat.zero_le _
      · cases heq

/-- Repetition returns. Let every single run of a parser, and of a separator, return. Then so does
each repetition, and no success of it has more values than positions, or one more with separators. A
loop over such parsers makes no more passes than there are positions ahead, and one.

It does not matter whether the parser advances: options, lookahead, partial sequences, repetitions
and blocks of such parsers are again parsers of which every single run returns. -/
theorem repetition_returns (henv : env.LibraryBuilt) (hp : p.Reliable env pos)
    (hsep : sep.Reliable env pos) {body : Block σ τ ν Unit}
    (hbody : body.Uses fun p => p.Reliable env pos) (bounds : Bounds) (init : γ) (f : γ → α → γ)
    (v : ν) (s : State) :
    (∃ r t, (p.many bounds).ComesTo env pos s r t ∧
      ∀ e as, r = .ok e as → as.length ≤ e - pos) ∧
    (∃ r t, (p.manyAccum init f bounds).ComesTo env pos s r t ∧ ∀ e b, r = .ok e b →
      ∃ as, p.Repeats env bounds.max pos s as e t ∧ b = as.foldl f init ∧ as.length ≤ e - pos) ∧
    (∃ r t, (p.sepBy sep bounds).ComesTo env pos s r t ∧
      ∀ e as, r = .ok e as → as.length ≤ e - pos + 1) ∧
    (∃ n as e t, (Block.collect p).execIn env n pos v s = some ((.ok as, e, v), t) ∧
      as.length ≤ e - pos) ∧
    (∃ n q w t, passLoop (body.execIn env n) (env.source.len - pos + 1) pos v s =
      some ((q, w), t)) ∧
    (∃ q t, (block v (Block.passes body)).ComesTo env pos s (.ok q ()) t) ∧
    (p.many bounds).Reliable env pos ∧ (p.manyAccum init f bounds).Reliable env pos ∧
    (p.sepBy sep bounds).Reliable env pos ∧ p.lookAhead.Reliable env pos ∧
    (∀ a, (p.option a).Reliable env pos) ∧ p.opt.Reliable env pos ∧
    (∀ ps : List (Parser σ τ α), (∀ q ∈ ps, q.Reliable env pos) →
      (seq (.ofList ps) true).Reliable env pos) ∧
    (body.BuiltFrom (fun _ _ => True) → (block v body).Reliable env pos) := by
  have hmany := hp.many henv bounds
  have haccum := hp.manyAccum henv init f bounds
  have hsepBy := hp.sepBy henv hsep bounds
  refine ⟨?_, ?_, ?_, ?_, Reliable.passes_le henv hbody v s, Reliable.passes henv hbody v s,
    hmany, haccum, hsepBy, hp.lookAhead, hp.option, hp.opt, fun ps => Reliable.seq henv true,
    fun hbuilt => Reliable.block henv hbuilt hbody v⟩
  · obtain ⟨r, t, hrun⟩ := hmany.run s
    refine ⟨r, t, hrun, ?_⟩
    rintro e as rfl
    exact length_of_many henv hp.built hrun
  · obtain ⟨r, t, hrun⟩ := haccum.run s
    refine ⟨r, t, hrun, ?_⟩
    rintro e b rfl
    exact length_of_manyAccum henv hp.built hrun
  · obtain ⟨r, t, hrun⟩ := hsepBy.run s
    refine ⟨r, t, hrun, ?_⟩
    rintro e as rfl
    exact length_of_sepBy henv hp.built hsep.built hrun
  · obtain ⟨as, e, t, hrepeats⟩ := hp.repeats henv none s
    obtain ⟨n, hn⟩ := exec_collect_of_repeats hrepeats v
    exact ⟨n, as, e, t, hn, (hrepeats.spans henv hp.built).2⟩

/-- A letter that may be missing, repeated on its own, with separators, and in a loop of steps: each
repetition returns, though the letter need not advance. -/
theorem repetition_returns_letters :
    let env := Env.bare (.text ['x', 'x', ','])
    let p : Parser Char (Empty.elim : Empty → Type) Char := (el 'x').option '-'
    let sep : Parser Char (Empty.elim : Empty → Type) Char := el ','
    let body : Block Char (Empty.elim : Empty → Type) Unit Unit := do
      let _ ← Block.collect p
      let _ ← Block.step p true
    p.Reliable env 0 ∧ sep.Reliable env 0 ∧ (body.Uses fun p => p.Reliable env 0) ∧
      (∃ r t, (p.many {}).ComesTo env 0 {} r t ∧ ∀ e as, r = .ok e as → as.length ≤ e) ∧
      (∃ r t, (p.sepBy sep {}).ComesTo env 0 {} r t ∧ ∀ e as, r = .ok e as → as.length ≤ e + 1) ∧
      (∃ n q t, passLoop (body.execIn env n) 4 0 () {} = some ((q, ()), t)) ∧
      (p.many {}).Reliable env 0 := by
  intro env p sep body
  have henv : env.LibraryBuilt := Env.bare_builtFrom _ _
  have hp : p.Reliable env 0 := (Reliable.el env 0 'x').option '-'
  have hsep : sep.Reliable env 0 := Reliable.el env 0 ','
  have hbody : body.Uses fun p => p.Reliable env 0 := by
    refine ⟨hp, fun _ => ⟨hp, fun r => ?_⟩⟩
    cases r <;> trivial
  obtain ⟨hmany, -, hsepBy, -, ⟨n, q, w, t, hpasses⟩, -, hreliable, -⟩ :=
    repetition_returns henv hp hsep hbody {} 0 (fun k _ => k + 1) () {}
  exact ⟨hp, hsep, hbody, hmany, hsepBy, ⟨n, q, t, hpasses⟩, hreliable⟩

end Parser

end Backtrack
