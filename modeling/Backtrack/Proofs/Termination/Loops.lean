import Backtrack.Proofs.Boundary
import Backtrack.Proofs.Recovery.Moments

/-!
# Loops that return

A loop returns if every run that it makes returns. It makes finitely many: each one but the last
advances, and no library-built parser ends behind the end of the source (`Source.Ahead`). So the
distance to the end bounds the passes of each loop, of `manyLoop` (`Calling.manyLoop_returns`) and
of `passLoop` (`Calling.passLoop_returns`), and with them a whole block returns
(`Calling.exec_returns`).

The parsers in a loop or a block are run by a `call` with a bound on what it does, of which we only
ask that a larger bound changes nothing, and that what it returns is what the parser comes to
(`Calling`). The bound may be one that varies from run to run, or one that is fixed for all of them.
-/

namespace Backtrack

variable {σ ι : Type} {τ : ι → Type} {α β γ ν : Type}

open Act Relation

/-! ## What lies ahead -/

namespace Source

variable {src : Source σ} {pos q e : Nat}

/-- The position is `pos`, or lies between it and the end. -/
def Ahead (src : Source σ) (pos q : Nat) : Prop := pos ≤ q ∧ (q ≤ src.len ∨ q = pos)

namespace Ahead

theorem refl (src : Source σ) (pos : Nat) : src.Ahead pos pos := ⟨Nat.le_refl pos, .inr rfl⟩

theorem trans (h : src.Ahead pos q) (h' : src.Ahead q e) : src.Ahead pos e := by
  unfold Ahead at *
  omega

/-- To advance is to come closer to the end. -/
theorem sub_lt (h : src.Ahead pos q) (hlt : pos < q) : src.len - q < src.len - pos := by
  unfold Ahead at h
  omega

end Ahead

/-- Reading leads ahead. -/
theorem readsWithin_ahead (src : Source σ) (pos : Nat) : src.ReadsWithin (src.Ahead pos) where
  symbol hq h := ⟨Nat.le_add_right_of_le hq.1, .inl (IsBoundary.symbol h).le_len⟩
  char {q c rest} hq h := by
    have hchars : src.IsBoundary (q + extent Char.utf8Size [c]) := .chars h
    have hle := hchars.le_len
    rw [extent_cons, extent_nil, Nat.add_zero] at hle
    exact ⟨Nat.le_add_right_of_le hq.1, .inl hle⟩
  regex hq h hm := by
    obtain ⟨front, back, rfl, hstop⟩ := Regex.match?_covers hm
    rw [hstop]
    exact ⟨Nat.le_add_right_of_le hq.1, .inl (IsBoundary.chars h).le_len⟩

end Source

/-- Too few repetitions are a failure, enough of them a success. -/
theorem atLeast_returns (min count pos : Nat) (a : α) (s : State) :
    ∃ x, atLeast min count pos a s = some x := by
  by_cases h : min ≤ count
  · exact ⟨_, atLeast_eq_some.mpr (.inl ⟨h, rfl, rfl⟩)⟩
  · exact ⟨_, atLeast_eq_some.mpr (.inr ⟨Nat.lt_of_not_le h, rfl, rfl⟩)⟩

theorem Block.ahead_resumed {src : Source σ} {pos start q : Nat} (hstart : src.Ahead pos start)
    (hq : src.Ahead pos q) (e : Abort) : src.Ahead pos (resumed e start q) := by
  unfold resumed
  split
  · exact hq
  · exact hstart

variable [BEq σ] [Describe σ] {env : Env σ τ}

namespace Parser

variable {p : Parser σ τ α} {limit : Option Nat} {pos q e : Nat} {a : α} {as : List α}
  {s t u : State}

/-- A library-built parser ends ahead of its start. -/
theorem ComesTo.ahead (henv : env.LibraryBuilt) (hp : p.LibraryBuilt)
    (h : p.ComesTo env pos s (.ok e a) t) : env.source.Ahead pos e := by
  obtain ⟨n, hrun⟩ := h
  have hlands := run_lands False (env.source.readsWithin_ahead pos) henv nofun n p hp (.refl _ pos)
  exact (hlands s _ t hrun).2.2

/-- Where, and from which state, a repetition runs its parser. -/
inductive Tried (env : Env σ τ) (p : Parser σ τ α) :
    Option Nat → Nat → State → Nat → State → Prop where
  | here {limit : Option Nat} {pos : Nat} {s : State} (hlimit : limit ≠ some 0) :
    Tried env p limit pos s pos s
  | later {limit : Option Nat} {pos q q' : Nat} {a : α} {s u u' : State} (hlimit : limit ≠ some 0)
    (hrun : p.ComesTo env pos s (.ok q a) u) (hlt : pos < q)
    (hrest : Tried env p (limit.map (· - 1)) q u q' u') : Tried env p limit pos s q' u'

theorem Tried.ahead (henv : env.LibraryBuilt) (hp : p.LibraryBuilt)
    (h : p.Tried env limit pos s q u) : env.source.Ahead pos q := by
  induction h with
  | here hlimit => exact .refl _ _
  | later hlimit hrun hlt hrest ih => exact (hrun.ahead henv hp).trans ih

/-- Every value of a repetition takes a position at least. -/
theorem Repeats.spans (henv : env.LibraryBuilt) (hp : p.LibraryBuilt)
    (h : p.Repeats env limit pos s as e t) : env.source.Ahead pos e ∧ as.length ≤ e - pos := by
  induction as generalizing limit pos s with
  | nil =>
    rcases repeats_iff.mp h with ⟨-, -, rfl, -⟩ | ⟨-, -, rfl, -⟩ | ⟨-, _, _, _, _, -, -, -, heq⟩
    · exact ⟨.refl _ _, Nat.zero_le _⟩
    · exact ⟨.refl _ _, Nat.zero_le _⟩
    · cases heq
  | cons a as ih =>
    rcases repeats_iff.mp h with ⟨-, heq, -, -⟩ | ⟨-, heq, -, -⟩ |
      ⟨hlimit, q, a, u, as', hrun, hlt, hrest, heq⟩
    · cases heq
    · cases heq
    · cases heq
      obtain ⟨hahead, hlength⟩ := ih hrest
      refine ⟨(hrun.ahead henv hp).trans hahead, ?_⟩
      have hle := hahead.1
      rw [List.length_cons]
      omega

end Parser

/-! ## Parts that return -/

/-- Parsers are run by `call` with a bound on what it does. A larger bound changes nothing, and what
is returned is what the parser comes to. -/
structure Calling (env : Env σ τ) (call : Nat → Call σ τ) : Prop where
  simulates {m n : Nat} (hmn : m ≤ n) {β : Type} (p : Parser σ τ β) (q : Nat) :
    Simulates (Both fun _ => True) (call m p q) (call n p q)
  comesTo {n : Nat} {β : Type} {p : Parser σ τ β} {q : Nat} {r : Outcome β} {s t : State}
    (hrun : call n p q s = some (r, t)) : p.ComesTo env q s r t

/-- A run of the parser returns, with some bound. -/
def Answers (call : Nat → Call σ τ) (p : Parser σ τ β) (q : Nat) (s : State) : Prop :=
  ∃ r t, Returns (fun n => call n p q) s r t

namespace Calling

variable {call : Nat → Call σ τ}

/-- The bound is that of the run. -/
theorem run (env : Env σ τ) : Calling env fun n => fun p q => p.run env n q where
  simulates hmn _ p q := Parser.run_simulates_of_le .trivial hmn p q
  comesTo {n} _ _ _ _ _ _ hrun := ⟨n, hrun⟩

/-- All runs have one bound. -/
theorem within (env : Env σ τ) (N : Nat) : Calling env fun _ => fun p q => p.run env N q where
  simulates _ _ p q := Parser.run_simulates_of_le .trivial (Nat.le_refl N) p q
  comesTo hrun := ⟨N, hrun⟩

variable (hcall : Calling env call)

include hcall

theorem growing (p : Parser σ τ β) (q : Nat) : Growing fun n => call n p q :=
  Simulates.growing fun _ _ hmn => hcall.simulates hmn p q

theorem growing_manyLoop (p : Parser σ τ β) (k : Nat) (limit : Option Nat) (pos : Nat) :
    Growing fun n => manyLoop (call n p) k limit pos :=
  Simulates.growing fun _ _ hmn =>
    .manyLoop (hcall.simulates hmn p) (Nat.le_refl k) limit pos

theorem exec_simulates (body : Block σ τ ν γ) (L : Nat) {m n : Nat} (hmn : m ≤ n) (pos : Nat)
    (v : ν) :
    Simulates (Both fun _ => True) (body.exec (call m) env.source env.config L pos v)
      (body.exec (call n) env.source env.config L pos v) :=
  Block.exec_of_le .trivial _ _ (Nat.le_refl L) (hcall.simulates hmn) body pos v

theorem growing_exec (body : Block σ τ ν γ) (L pos : Nat) (v : ν) :
    Growing fun n => body.exec (call n) env.source env.config L pos v :=
  Simulates.growing fun _ _ hmn => hcall.exec_simulates body L hmn pos v

/-- A repetition returns if its runs do, in as many passes as there are positions ahead. -/
theorem manyLoop_returns (henv : env.LibraryBuilt) {p : Parser σ τ β} (hp : p.LibraryBuilt)
    {k : Nat} {limit : Option Nat} {pos : Nat} {s : State} (hk : env.source.len - pos < k)
    (htried : ∀ q u, p.Tried env limit pos s q u → Answers call p q u) :
    ∃ as e t, Returns (fun n => manyLoop (call n p) k limit pos) s (as, e) t ∧
      p.Repeats env limit pos s as e t := by
  induction k generalizing limit pos s with
  | zero => exact absurd hk (Nat.not_lt_zero _)
  | succ k ih =>
    by_cases hlimit : limit = some 0
    · refine ⟨[], pos, s, ⟨0, ?_⟩, Parser.repeats_iff.mpr (.inl ⟨hlimit, rfl, rfl, rfl⟩)⟩
      dsimp only
      rw [manyLoop, if_pos hlimit]
      rfl
    · obtain ⟨r, u, hrun⟩ := htried pos s (.here hlimit)
      obtain ⟨n, hn⟩ := hrun
      have hcomes : p.ComesTo env pos s r u := hcall.comesTo hn
      cases r with
      | fail f =>
        have hstuck : p.Stuck env pos s u := ⟨.fail f, hcomes, nofun⟩
        refine ⟨[], pos, u, ⟨n, ?_⟩,
          Parser.repeats_iff.mpr (.inr (.inl ⟨hlimit, rfl, rfl, hstuck⟩))⟩
        dsimp only
        rw [manyLoop, if_neg hlimit]
        exact bind_eq_some.mpr ⟨.fail f, u, hn, rfl⟩
      | ok q b =>
        by_cases hlt : pos < q
        · have hq := (hcomes.ahead henv hp).sub_lt hlt
          obtain ⟨as, e, t, hrest, hrepeats⟩ :=
            ih (by omega) fun q' u' h => htried q' u' (.later hlimit hcomes hlt h)
          obtain ⟨n, hn, hrest⟩ :=
            Returns.both (hcall.growing p pos) (hcall.growing_manyLoop p k _ q) ⟨n, hn⟩ hrest
          refine ⟨b :: as, e, t, ⟨n, ?_⟩, Parser.repeats_iff.mpr
            (.inr (.inr ⟨hlimit, q, b, u, as, hcomes, hlt, hrepeats, rfl⟩))⟩
          dsimp only
          rw [manyLoop, if_neg hlimit]
          refine bind_eq_some.mpr ⟨.ok q b, u, hn, ?_⟩
          simp only [if_pos hlt]
          exact bind_eq_some.mpr ⟨(as, e), t, hrest, rfl⟩
        · have hstuck : p.Stuck env pos s u := by
            refine ⟨.ok q b, hcomes, ?_⟩
            intro q' b' heq
            cases heq
            exact Nat.le_of_not_lt hlt
          refine ⟨[], pos, u, ⟨n, ?_⟩,
            Parser.repeats_iff.mpr (.inr (.inl ⟨hlimit, rfl, rfl, hstuck⟩))⟩
          dsimp only
          rw [manyLoop, if_neg hlimit]
          refine bind_eq_some.mpr ⟨.ok q b, u, hn, ?_⟩
          simp only [if_neg hlt]
          rfl

omit hcall [BEq σ] [Describe σ] in
/-- The passes of a loop return if every pass does. At the start of a pass `M` holds, and `N` where
the loop is left. -/
theorem passLoop_returns {src : Source σ} {pass : Nat → Nat → ν → Act (Except Abort Unit × Nat × ν)}
    {M N : Nat → ν → State → Prop}
    (hmore : ∀ {m n}, m ≤ n → ∀ q w, Simulates (Both fun _ => True) (pass m q w) (pass n q w))
    (hpass : ∀ q w s, M q w s → ∃ r q' w' t, Returns (fun n => pass n q w) s (r, q', w') t ∧
      src.Ahead q q' ∧ (r = .ok () → q < q' → M q' w' t) ∧ (r = .ok () → q' ≤ q → N q' w' t) ∧
      ∀ e, r = .error e → N (Block.resumed e q q') w' t)
    {k pos : Nat} {v : ν} {s : State} (hk : src.len - pos < k) (hM : M pos v s) :
    ∃ q w t, Returns (fun n => passLoop (pass n) k pos v) s (q, w) t ∧ src.Ahead pos q ∧
      N q w t := by
  induction k generalizing pos v s with
  | zero => exact absurd hk (Nat.not_lt_zero _)
  | succ k ih =>
    obtain ⟨r, q', w', t, hrun, hahead, hon, hend, hleave⟩ := hpass pos v s hM
    cases r with
    | error e =>
      obtain ⟨n, hn⟩ := hrun
      refine ⟨_, w', t, ⟨n, ?_⟩, Block.ahead_resumed (.refl src pos) hahead e, hleave e rfl⟩
      dsimp only
      rw [Block.passLoop_succ]
      exact bind_eq_some.mpr ⟨_, t, hn, rfl⟩
    | ok _ =>
      by_cases hlt : pos < q'
      · have hq := hahead.sub_lt hlt
        obtain ⟨q, w, u, hrest, hahead', hN⟩ := ih (by omega) (hon rfl hlt)
        have hfirst : Growing fun n => pass n pos v := Simulates.growing fun _ _ h => hmore h pos v
        have hloop : Growing fun n => passLoop (pass n) k q' w' :=
          Simulates.growing fun _ _ h => .passLoop (hmore h) (Nat.le_refl k) q' w'
        obtain ⟨n, hn, hrest⟩ := Returns.both hfirst hloop hrun hrest
        refine ⟨q, w, u, ⟨n, ?_⟩, hahead.trans hahead', hN⟩
        dsimp only
        rw [Block.passLoop_succ]
        refine bind_eq_some.mpr ⟨_, t, hn, ?_⟩
        rw [Block.afterPass, if_pos hlt]
        exact hrest
      · obtain ⟨n, hn⟩ := hrun
        refine ⟨q', w', t, ⟨n, ?_⟩, hahead, hend rfl (Nat.le_of_not_lt hlt)⟩
        dsimp only
        rw [Block.passLoop_succ]
        refine bind_eq_some.mpr ⟨_, t, hn, ?_⟩
        rw [Block.afterPass, if_neg hlt]
        rfl

end Calling

/-! ## Blocks that return -/

/-- Every parser that the block runs is `good`. -/
def Block.Uses (good : {β : Type} → Parser σ τ β → Prop) : {ν α : Type} → Block σ τ ν α → Prop
  | _, _, .ret _ | _, _, .abort _ => True
  | _, _, .perform p _ next => good p ∧ ∀ r, (next r).Uses good
  | _, _, .many p next => good p ∧ ∀ as, (next as).Uses good
  | _, _, .attempt body next => body.Uses good ∧ ∀ r, (next r).Uses good
  | _, _, .loop body next => body.Uses good ∧ next.Uses good
  | _, _, .position next => ∀ pos, (next pos).Uses good
  | _, _, .ask next => ∀ src cfg, (next src cfg).Uses good
  | _, _, .inspect next => ∀ s, (next s).Uses good
  | _, _, .register _ _ _ next => next.Uses good
  | _, _, .get next => ∀ v, (next v).Uses good
  | _, _, .set _ next => next.Uses good

omit [BEq σ] [Describe σ] in
theorem Block.Uses.imp {good good' : {β : Type} → Parser σ τ β → Prop}
    (hgood : ∀ {β : Type} (p : Parser σ τ β), good p → good' p) :
    ∀ {ν α : Type} {body : Block σ τ ν α}, body.Uses good → body.Uses good'
  | _, _, .ret _, _ | _, _, .abort _, _ => trivial
  | _, _, .perform p _ _, h => ⟨hgood p h.1, fun r => (h.2 r).imp hgood⟩
  | _, _, .many p _, h => ⟨hgood p h.1, fun as => (h.2 as).imp hgood⟩
  | _, _, .attempt .., h => ⟨h.1.imp hgood, fun r => (h.2 r).imp hgood⟩
  | _, _, .loop .., h => ⟨h.1.imp hgood, h.2.imp hgood⟩
  | _, _, .position _, h => fun pos => (h pos).imp hgood
  | _, _, .ask _, h => fun src cfg => (h src cfg).imp hgood
  | _, _, .inspect _, h => fun s => (h s).imp hgood
  | _, _, .register _ _ _ next, h => (show next.Uses good from h).imp hgood
  | _, _, .get _, h => fun v => (h v).imp hgood
  | _, _, .set _ next, h => (show next.Uses good from h).imp hgood

open Block Moment

/-- What lies around a body started at good positions, and what comes after the body uses good
parsers. -/
def Block.Frames.Uses (good : {β : Type} → Parser σ τ β → Prop) (ok : Nat → Prop) :
    {β : Type} → Frames σ τ ν α β → Prop
  | _, .block start => ok start
  | _, .attempt start next outer => ok start ∧ (∀ r, (next r).Uses good) ∧ outer.Uses good ok
  | _, .pass start body next outer =>
    ok start ∧ body.Uses good ∧ next.Uses good ∧ outer.Uses good ok

/-- The position is a good one, and what is left to do uses good parsers. -/
structure Block.Moment.Uses (good : {β : Type} → Parser σ τ β → Prop) (ok : Nat → Prop)
    (m : Moment σ τ ν α) : Prop where
  position : ok m.position
  rest : m.rest.Uses good
  frames : m.frames.Uses good ok

section Uses

variable {good : {β : Type} → Parser σ τ β → Prop} {start : Nat} {m m' : Moment σ τ ν α}

/-- A step leads ahead, to steps that were there before. -/
theorem Block.Moment.Step.uses (henv : env.LibraryBuilt)
    (hgood : ∀ {β : Type} {p : Parser σ τ β}, good p → p.LibraryBuilt) (h : Step env m m')
    (hm : m.Uses good (env.source.Ahead start)) : m'.Uses good (env.source.Ahead start) := by
  obtain ⟨hpos, hrest, hframes⟩ := hm
  cases h with
  | succeed hrun => exact ⟨hpos.trans (hrun.ahead henv (hgood hrest.1)), hrest.2 _, hframes⟩
  | fail hrun => exact ⟨hpos, hrest.2 _, hframes⟩
  | many hrun => exact ⟨hpos.trans (hrun.spans henv (hgood hrest.1)).1, hrest.2 _, hframes⟩
  | tryBody => exact ⟨hpos, hrest.1, hpos, hrest.2, hframes⟩
  | triedBody => exact ⟨hpos, hframes.2.1 _, hframes.2.2⟩
  | recover => exact ⟨ahead_resumed hframes.1 hpos _, hframes.2.1 _, hframes.2.2⟩
  | firstPass => exact ⟨hpos, hrest.1, hpos, hrest.1, hrest.2, hframes⟩
  | nextPass hlt => exact ⟨hpos, hframes.2.1, hpos, hframes.2⟩
  | lastPass hle => exact ⟨hpos, hframes.2.2.1, hframes.2.2.2⟩
  | leaveLoop => exact ⟨ahead_resumed hframes.1 hpos _, hframes.2.2.1, hframes.2.2.2⟩
  | position | inspect | get => exact ⟨hpos, hrest _, hframes⟩
  | ask => exact ⟨hpos, hrest _ _, hframes⟩
  | register hrun => exact ⟨hpos, hrest, hframes⟩
  | set => exact ⟨hpos, hrest, hframes⟩

theorem Block.Moment.Reaches.uses (henv : env.LibraryBuilt)
    (hgood : ∀ {β : Type} {p : Parser σ τ β}, good p → p.LibraryBuilt) {init : ν}
    {body : Block σ τ ν α} {s : State} (hbody : body.Uses good)
    (h : Reaches env (.begin init body start s) m) : m.Uses good (env.source.Ahead start) := by
  induction h with
  | refl => exact ⟨.refl _ _, hbody, .refl _ _⟩
  | tail _ hstep ih => exact hstep.uses henv hgood ih

end Uses

/-- The parser that is run next, if there is one, returns. -/
def Block.Moment.Answered (env : Env σ τ) (call : Nat → Call σ τ) (m : Moment σ τ ν α) : Prop :=
  match m.rest with
  | .perform p _ _ => Answers call p m.position m.state
  | .many p _ => ∀ q u, p.Tried env none m.position m.state q u → Answers call p q u
  | _ => True

namespace Calling

variable {call : Nat → Call σ τ} {m₀ : Moment σ τ ν α} {L : Nat}

/-- A loop returns if its body does, wherever a pass begins. -/
theorem loop_returns (hcall : Calling env call) {F : Frames σ τ ν α γ} {body : Block σ τ ν Unit}
    {next : Block σ τ ν γ}
    (hbody : ∀ start q w s, Reaches env m₀ ⟨.pass start body next F, body, q, w, s⟩ →
      ∃ r q' w' t,
        Returns (fun n => body.exec (call n) env.source env.config L q w) s (r, q', w') t ∧
        env.source.Ahead q q' ∧
        Reaches env m₀ ⟨.pass start body next F, orAbort r, q', w', t⟩)
    {k pos : Nat} {v : ν} {s : State} (hk : env.source.len - pos < k)
    (hreach : Reaches env m₀ ⟨F, .loop body next, pos, v, s⟩) :
    ∃ q w t, Returns (fun n =>
        passLoop (fun q w => body.exec (call n) env.source env.config L q w) k pos v) s (q, w) t ∧
      env.source.Ahead pos q ∧ Reaches env m₀ ⟨F, next, q, w, t⟩ := by
  let begins (q : Nat) (w : ν) (s : State) : Prop :=
    Reaches env m₀ ⟨.pass q body next F, body, q, w, s⟩
  refine passLoop_returns (M := begins) (fun hmn q w => hcall.exec_simulates body L hmn q w)
    (fun q w s hq => ?_) hk (hreach.tail .firstPass)
  obtain ⟨r, q', w', t, hrun, hahead, hend⟩ := hbody q q w s hq
  refine ⟨r, q', w', t, hrun, hahead, ?_, ?_, ?_⟩
  · rintro rfl hlt
    exact hend.tail (.nextPass hlt)
  · rintro rfl hle
    exact hend.tail (.lastPass hle)
  · rintro e rfl
    exact hend.tail .leaveLoop

/-- A block returns if the parsers that it gets to return. The induction is on the steps that are
left, along with the moment at which they stand. -/
theorem exec_returns (hcall : Calling env call) (henv : env.LibraryBuilt)
    {good : {β : Type} → Parser σ τ β → Prop}
    (hgood : ∀ {β : Type} {p : Parser σ τ β}, good p → p.LibraryBuilt)
    (hL : env.source.len < L) (hruns : ∀ m, Reaches env m₀ m → m.Answered env call) :
    ∀ {γ : Type} (body : Block σ τ ν γ) (F : Frames σ τ ν α γ) {pos : Nat} {v : ν} {s : State},
      body.Uses good → Reaches env m₀ ⟨F, body, pos, v, s⟩ →
      ∃ r q w t,
        Returns (fun n => body.exec (call n) env.source env.config L pos v) s (r, q, w) t ∧
        env.source.Ahead pos q ∧ Reaches env m₀ ⟨F, orAbort r, q, w, t⟩
  | _, .ret a, F, pos, v, s, huses, hreach => ⟨.ok a, pos, v, s, ⟨0, rfl⟩, .refl _ _, hreach⟩
  | _, .abort e, F, pos, v, s, huses, hreach =>
    ⟨.error e, pos, v, s, ⟨0, rfl⟩, .refl _ _, hreach⟩
  | _, .perform p allowPartial next, F, pos, v, s, huses, hreach => by
    obtain ⟨x, u, hrun⟩ : Answers call p pos s := hruns _ hreach
    have hcomes : p.ComesTo env pos s x u := hrun.elim fun _ hm => hcall.comesTo hm
    cases x with
    | ok q b =>
      obtain ⟨r, q', w, t, hrest, hahead, hend⟩ :=
        exec_returns hcall henv hgood hL hruns (next (.ok b)) F (huses.2 _)
          (hreach.tail (.succeed hcomes))
      obtain ⟨n, hn, hrest⟩ :=
        Returns.both (hcall.growing p pos) (hcall.growing_exec _ L q v) hrun hrest
      refine ⟨r, q', w, t, ⟨n, ?_⟩, (hcomes.ahead henv (hgood huses.1)).trans hahead, hend⟩
      dsimp only
      rw [exec]
      exact bind_eq_some.mpr ⟨_, u, hn, hrest⟩
    | fail f =>
      obtain ⟨r, q', w, t, hrest, hahead, hend⟩ :=
        exec_returns hcall henv hgood hL hruns (next (.error ⟨pos, allowPartial⟩)) F (huses.2 _)
          (hreach.tail (.fail hcomes))
      obtain ⟨n, hn, hrest⟩ :=
        Returns.both (hcall.growing p pos) (hcall.growing_exec _ L pos v) hrun hrest
      refine ⟨r, q', w, t, ⟨n, ?_⟩, hahead, hend⟩
      dsimp only
      rw [exec]
      exact bind_eq_some.mpr ⟨_, u, hn, hrest⟩
  | _, .many p next, F, pos, v, s, huses, hreach => by
    have htried : ∀ q u, p.Tried env none pos s q u → Answers call p q u := hruns _ hreach
    obtain ⟨as, q, u, hloop, hrepeats⟩ :=
      hcall.manyLoop_returns henv (hgood huses.1) (by omega : env.source.len - pos < L) htried
    obtain ⟨r, q', w, t, hrest, hahead, hend⟩ :=
      exec_returns hcall henv hgood hL hruns (next as) F (huses.2 _) (hreach.tail (.many hrepeats))
    obtain ⟨n, hloop, hrest⟩ :=
      Returns.both (hcall.growing_manyLoop p L none pos) (hcall.growing_exec _ L q v) hloop hrest
    refine ⟨r, q', w, t, ⟨n, ?_⟩, (hrepeats.spans henv (hgood huses.1)).1.trans hahead, hend⟩
    dsimp only
    rw [exec]
    exact bind_eq_some.mpr ⟨_, u, hloop, hrest⟩
  | _, .attempt body next, F, pos, v, s, huses, hreach => by
    obtain ⟨x, q, v', u, hbody, hahead, hbodyEnd⟩ :=
      exec_returns hcall henv hgood hL hruns body (.attempt pos next F) huses.1
        (hreach.tail .tryBody)
    have hgrowing := hcall.growing_exec body L pos v
    cases x with
    | ok b =>
      obtain ⟨r, q', w, t, hrest, hahead', hend⟩ :=
        exec_returns hcall henv hgood hL hruns (next (some b)) F (huses.2 _)
          (hbodyEnd.tail .triedBody)
      obtain ⟨n, hbody, hrest⟩ :=
        Returns.both hgrowing (hcall.growing_exec _ L q v') hbody hrest
      refine ⟨r, q', w, t, ⟨n, ?_⟩, hahead.trans hahead', hend⟩
      dsimp only
      rw [exec]
      exact bind_eq_some.mpr ⟨_, u, hbody, hrest⟩
    | error e =>
      obtain ⟨r, q', w, t, hrest, hahead', hend⟩ :=
        exec_returns hcall henv hgood hL hruns (next none) F (huses.2 _) (hbodyEnd.tail .recover)
      obtain ⟨n, hbody, hrest⟩ :=
        Returns.both hgrowing (hcall.growing_exec _ L (resumed e pos q) v') hbody hrest
      refine ⟨r, q', w, t, ⟨n, ?_⟩, (ahead_resumed (.refl _ pos) hahead e).trans hahead', hend⟩
      dsimp only
      rw [exec]
      exact bind_eq_some.mpr ⟨_, u, hbody, hrest⟩
  | _, .loop body next, F, pos, v, s, huses, hreach => by
    obtain ⟨q, v', u, hloop, hahead, hnext⟩ := hcall.loop_returns
      (fun start q w s h => exec_returns hcall henv hgood hL hruns body _ huses.1 h)
      (by omega : env.source.len - pos < L) hreach
    obtain ⟨r, q', w, t, hrest, hahead', hend⟩ :=
      exec_returns hcall henv hgood hL hruns next F huses.2 hnext
    have hgrowing : Growing fun n =>
        passLoop (fun q w => body.exec (call n) env.source env.config L q w) L pos v :=
      Simulates.growing fun _ _ hmn =>
        .passLoop (hcall.exec_simulates body L hmn) (Nat.le_refl L) pos v
    obtain ⟨n, hloop, hrest⟩ := Returns.both hgrowing (hcall.growing_exec next L q v') hloop hrest
    refine ⟨r, q', w, t, ⟨n, ?_⟩, hahead.trans hahead', hend⟩
    dsimp only
    rw [exec]
    exact bind_eq_some.mpr ⟨_, u, hloop, hrest⟩
  | _, .position next, F, pos, v, s, huses, hreach =>
    exec_returns hcall henv hgood hL hruns (next pos) F (huses pos) (hreach.tail .position)
  | _, .ask next, F, pos, v, s, huses, hreach =>
    exec_returns hcall henv hgood hL hruns (next _ _) F (huses _ _) (hreach.tail .ask)
  | _, .inspect next, F, pos, v, s, huses, hreach =>
    exec_returns hcall henv hgood hL hruns (next s.sink) F (huses _) (hreach.tail .inspect)
  | _, .register index record inPlace next, F, pos, v, s, huses, hreach =>
    exec_returns hcall henv hgood hL hruns next F huses (hreach.tail (.register rfl))
  | _, .get next, F, pos, v, s, huses, hreach =>
    exec_returns hcall henv hgood hL hruns (next v) F (huses v) (hreach.tail .get)
  | _, .set w next, F, pos, v, s, huses, hreach =>
    exec_returns hcall henv hgood hL hruns next F huses (hreach.tail .set)

end Calling

end Backtrack
