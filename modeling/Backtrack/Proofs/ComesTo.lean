import Backtrack.Proofs.Loops
import Backtrack.Proofs.Monotone

/-!
# What parsers come to

`p.ComesTo env pos s r t` says that a run of `p` at `pos` from the state `s` returns `r` and leaves
the state `t`, with some bound on its depth. As a larger bound changes nothing, the bounds of the
parts of a run need not fit together: for each combinator there is an equation, which says what it
comes to in terms of what its parts come to.

Repetition goes through a loop, which has a bound of its own. `p.Repeats env limit pos s as e t`
says what the loop comes to: the values, where it ends, and the state it leaves.
-/

namespace Backtrack

variable {σ ι : Type} {τ : ι → Type} {α β γ : Type}

/-- The state after a failure without a record. -/
def State.missed (s : State) (pos : Nat) : State :=
  { s with sink := s.sink.add pos none, entries := ⟨pos, none⟩ :: s.entries }

/-- The state after the report of a failure. -/
def State.reported (s : State) (e : Expectation) : State :=
  { s with sink := s.sink.report e, entries := ⟨e.index, some e⟩ :: s.entries }

theorem Act.failWith_apply (e : Expectation) (pos : Nat) (s : State) :
    (failWith e pos : Act (Outcome α)) s = some (.fail pos, s.reported e) := rfl

theorem Act.mismatch_apply (pos : Nat) (s : State) :
    (mismatch pos : Act (Outcome α)) s = some (.fail pos, s.reported (.unknown pos)) := rfl

/-- What there were too few of is a bare failure; else nothing happens. -/
theorem atLeast_eq_some {min count pos : Nat} {a : α} {s t : State} {r : Outcome α} :
    atLeast min count pos a s = some (r, t) ↔
      (min ≤ count ∧ r = .ok pos a ∧ t = s) ∨
        (count < min ∧ r = .fail pos ∧ t = s.missed pos) := by
  unfold atLeast
  by_cases h : count < min
  · have hrun : (do Act.register pos none; return (.fail pos : Outcome α)) s =
        some (.fail pos, s.missed pos) := rfl
    rw [if_pos h, hrun]
    simp [h, Nat.not_le_of_lt h, eq_comm]
  · have hrun : (return .ok pos a : Act (Outcome α)) s = some (.ok pos a, s) := rfl
    rw [if_neg h, hrun]
    simp [h, Nat.le_of_not_lt h, eq_comm]

namespace Outcome

/-- A failure is one at `pos`. -/
def failAt (pos : Nat) : Outcome α → Outcome α
  | ok e a => ok e a
  | fail _ => fail pos

variable {pos e f : Nat} {a : α} {r : Outcome α}

@[simp] theorem failAt_eq_ok : ok e a = r.failAt pos ↔ r = ok e a := by
  cases r <;> simp [failAt, eq_comm]

@[simp] theorem failAt_eq_fail : fail f = r.failAt pos ↔ f = pos ∧ ∃ g, r = fail g := by
  cases r <;> simp [failAt]

end Outcome

namespace Act

/-- What a part returns with some bound, it returns with every larger one. -/
def Growing (a : Nat → Act α) : Prop :=
  ∀ m n, m ≤ n → ∀ s x, a m s = some x → a n s = some x

/-- With some bound, the part returns `x` from `s` and leaves `t`. -/
def Returns (a : Nat → Act α) (s : State) (x : α) (t : State) : Prop := ∃ n, a n s = some (x, t)

theorem Simulates.growing {a : Nat → Act α}
    (h : ∀ m n, m ≤ n → Simulates (Both fun _ => True) (a m) (a n)) : Growing a := by
  intro m n hmn s x hx
  exact (h m n hmn).eq_some hx

namespace Returns

variable {a : Nat → Act α} {b : Nat → Act β} {s s' t t' : State} {x x' : α} {y : β}

/-- Two parts return with the same bound. -/
theorem both (ha : Growing a) (hb : Growing b) (hx : Returns a s x t) (hy : Returns b s' y t') :
    ∃ n, a n s = some (x, t) ∧ b n s' = some (y, t') := by
  obtain ⟨m, hm⟩ := hx
  obtain ⟨n, hn⟩ := hy
  exact ⟨max m n, ha m _ (Nat.le_max_left m n) s _ hm, hb n _ (Nat.le_max_right m n) s' _ hn⟩

/-- A part comes to one result only. -/
theorem unique (ha : Growing a) (h : Returns a s x t) (h' : Returns a s x' t') :
    x = x' ∧ t = t' := by
  obtain ⟨n, hn, hn'⟩ := both ha ha h h'
  rw [hn] at hn'
  exact Prod.mk.inj (Option.some.inj hn')

end Returns

end Act

open Act

namespace Parser

variable [BEq σ] [Describe σ] {env : Env σ τ} {p : Parser σ τ α} {pos : Nat}
  {s t : State} {r : Outcome α}

/-- With some bound, and so with every larger one, the parser returns `r` at `pos` from the state
`s`, and leaves `t`. -/
def ComesTo (env : Env σ τ) (p : Parser σ τ α) (pos : Nat) (s : State) (r : Outcome α)
    (t : State) : Prop :=
  Returns (fun n => p.run env n pos) s r t

theorem growing_run (env : Env σ τ) (p : Parser σ τ α) (pos : Nat) :
    Growing fun n => p.run env n pos :=
  fun _ _ hmn _ _ h => run_of_le hmn h

namespace ComesTo

/-- A parser comes to one outcome only, and leaves one state. -/
theorem unique {r' : Outcome α} {t' : State} (h : p.ComesTo env pos s r t)
    (h' : p.ComesTo env pos s r' t') : r = r' ∧ t = t' :=
  Returns.unique (growing_run env p pos) h h'

/-- A run that returns has a bound greater than zero. -/
theorem exists_run (h : p.ComesTo env pos s r t) : ∃ n, p.run env (n + 1) pos s = some (r, t) := by
  obtain ⟨n, hn⟩ := h
  exact ⟨n, run_of_le (Nat.le_succ n) hn⟩

theorem of_run {n : Nat} (h : p.run env n pos s = some (r, t)) : p.ComesTo env pos s r t := ⟨n, h⟩

end ComesTo

/-- What a run is known to return is all that the parser comes to. -/
theorem comesTo_iff_of_run {n : Nat} {r' : Outcome α} {t' : State}
    (h : p.run env n pos s = some (r', t')) : p.ComesTo env pos s r t ↔ r = r' ∧ t = t' := by
  constructor
  · intro h'
    exact h'.unique (.of_run h)
  · rintro ⟨rfl, rfl⟩
    exact .of_run h

theorem comesTo_map {f : α → β} {r : Outcome β} :
    (p.map f).ComesTo env pos s r t ↔ ∃ r', p.ComesTo env pos s r' t ∧ r = r'.map f := by
  constructor
  · intro h
    obtain ⟨n, h⟩ := h.exists_run
    rw [run] at h
    obtain ⟨r', u, hp, h⟩ := bind_eq_some.mp h
    cases h
    exact ⟨r', ⟨n, hp⟩, rfl⟩
  · rintro ⟨r', ⟨n, hp⟩, rfl⟩
    refine .of_run (n := n + 1) ?_
    rw [run]
    exact bind_eq_some.mpr ⟨r', t, hp, rfl⟩

/-- Two parsers in order. The second one runs where the first one succeeds. -/
theorem comesTo_andMap {q : Parser σ τ β} {f : α → β → γ} {r : Outcome γ} :
    (p.andMap q f).ComesTo env pos s r t ↔
      (∃ e a u r', p.ComesTo env pos s (.ok e a) u ∧ q.ComesTo env e u r' t ∧ r = r'.map (f a)) ∨
        ∃ e, p.ComesTo env pos s (.fail e) t ∧ r = .fail e := by
  constructor
  · intro h
    obtain ⟨n, h⟩ := h.exists_run
    rw [run] at h
    obtain ⟨x, u, hp, h⟩ := bind_eq_some.mp h
    cases x with
    | ok e a =>
      obtain ⟨r', _, hq, h⟩ := bind_eq_some.mp h
      cases h
      exact .inl ⟨e, a, u, r', ⟨n, hp⟩, ⟨n, hq⟩, rfl⟩
    | fail e =>
      cases h
      exact .inr ⟨e, ⟨n, hp⟩, rfl⟩
  · rintro (⟨e, a, u, r', hp, hq, rfl⟩ | ⟨e, ⟨n, hp⟩, rfl⟩)
    · obtain ⟨n, hp, hq⟩ := Returns.both (growing_run env p pos) (growing_run env q e) hp hq
      refine .of_run (n := n + 1) ?_
      rw [run]
      exact bind_eq_some.mpr ⟨.ok e a, u, hp, bind_eq_some.mpr ⟨r', t, hq, rfl⟩⟩
    · refine .of_run (n := n + 1) ?_
      rw [run]
      exact bind_eq_some.mpr ⟨.fail e, t, hp, rfl⟩

/-- The second parser runs from the start where the first one fails. A failure of both is one of
the whole, at the start. -/
theorem comesTo_either {q : Parser σ τ α} :
    (p.either q).ComesTo env pos s r t ↔
      (∃ e a, p.ComesTo env pos s (.ok e a) t ∧ r = .ok e a) ∨
        ∃ f u r', p.ComesTo env pos s (.fail f) u ∧ q.ComesTo env pos u r' t ∧
          r = r'.failAt pos := by
  constructor
  · intro h
    obtain ⟨n, h⟩ := h.exists_run
    rw [run] at h
    obtain ⟨x, u, hp, h⟩ := bind_eq_some.mp h
    cases x with
    | ok e a =>
      cases h
      exact .inl ⟨e, a, ⟨n, hp⟩, rfl⟩
    | fail f =>
      obtain ⟨y, v, hq, h⟩ := bind_eq_some.mp h
      refine .inr ⟨f, u, y, ⟨n, hp⟩, ?_⟩
      cases y with
      | ok e a =>
        cases h
        exact ⟨⟨n, hq⟩, rfl⟩
      | fail g =>
        cases h
        exact ⟨⟨n, hq⟩, rfl⟩
  · rintro (⟨e, a, ⟨n, hp⟩, rfl⟩ | ⟨f, u, y, hp, hq, rfl⟩)
    · refine .of_run (n := n + 1) ?_
      rw [run]
      exact bind_eq_some.mpr ⟨.ok e a, t, hp, rfl⟩
    · obtain ⟨n, hp, hq⟩ := Returns.both (growing_run env p pos) (growing_run env q pos) hp hq
      refine .of_run (n := n + 1) ?_
      rw [run]
      refine bind_eq_some.mpr ⟨.fail f, u, hp, bind_eq_some.mpr ⟨y, t, hq, ?_⟩⟩
      cases y <;> rfl

/-- A default takes the place of a failure. -/
theorem comesTo_option {default : α} :
    (p.option default).ComesTo env pos s r t ↔
      (∃ e a, p.ComesTo env pos s (.ok e a) t ∧ r = .ok e a) ∨
        ∃ f, p.ComesTo env pos s (.fail f) t ∧ r = .ok pos default := by
  constructor
  · intro h
    obtain ⟨n, h⟩ := h.exists_run
    rw [run] at h
    obtain ⟨x, u, hp, h⟩ := bind_eq_some.mp h
    cases x with
    | ok e a =>
      cases h
      exact .inl ⟨e, a, ⟨n, hp⟩, rfl⟩
    | fail f =>
      cases h
      exact .inr ⟨f, ⟨n, hp⟩, rfl⟩
  · rintro (⟨e, a, ⟨n, hp⟩, rfl⟩ | ⟨f, ⟨n, hp⟩, rfl⟩)
    · refine .of_run (n := n + 1) ?_
      rw [run]
      exact bind_eq_some.mpr ⟨.ok e a, t, hp, rfl⟩
    · refine .of_run (n := n + 1) ?_
      rw [run]
      exact bind_eq_some.mpr ⟨.fail f, t, hp, rfl⟩

theorem comesTo_opt {r : Outcome (Option α)} :
    p.opt.ComesTo env pos s r t ↔
      (∃ e a, p.ComesTo env pos s (.ok e a) t ∧ r = .ok e (some a)) ∨
        ∃ f, p.ComesTo env pos s (.fail f) t ∧ r = .ok pos none := by
  constructor
  · intro h
    obtain ⟨n, h⟩ := h.exists_run
    rw [run] at h
    obtain ⟨x, u, hp, h⟩ := bind_eq_some.mp h
    cases x with
    | ok e a =>
      cases h
      exact .inl ⟨e, a, ⟨n, hp⟩, rfl⟩
    | fail f =>
      cases h
      exact .inr ⟨f, ⟨n, hp⟩, rfl⟩
  · rintro (⟨e, a, ⟨n, hp⟩, rfl⟩ | ⟨f, ⟨n, hp⟩, rfl⟩)
    · refine .of_run (n := n + 1) ?_
      rw [run]
      exact bind_eq_some.mpr ⟨.ok e a, t, hp, rfl⟩
    · refine .of_run (n := n + 1) ?_
      rw [run]
      exact bind_eq_some.mpr ⟨.fail f, t, hp, rfl⟩

theorem comesTo_lookAhead {r : Outcome α} :
    p.lookAhead.ComesTo env pos s r t ↔
      (∃ e a, p.ComesTo env pos s (.ok e a) t ∧ r = .ok pos a) ∨
        ∃ f, p.ComesTo env pos s (.fail f) t ∧ r = .fail f := by
  constructor
  · intro h
    obtain ⟨n, h⟩ := h.exists_run
    rw [run] at h
    obtain ⟨x, u, hp, h⟩ := bind_eq_some.mp h
    cases x with
    | ok e a =>
      cases h
      exact .inl ⟨e, a, ⟨n, hp⟩, rfl⟩
    | fail f =>
      cases h
      exact .inr ⟨f, ⟨n, hp⟩, rfl⟩
  · rintro (⟨e, a, ⟨n, hp⟩, rfl⟩ | ⟨f, ⟨n, hp⟩, rfl⟩)
    · refine .of_run (n := n + 1) ?_
      rw [run]
      exact bind_eq_some.mpr ⟨.ok e a, t, hp, rfl⟩
    · refine .of_run (n := n + 1) ?_
      rw [run]
      exact bind_eq_some.mpr ⟨.fail f, t, hp, rfl⟩

/-- The parser runs against a sink of its own, and the whole is the text that it covers. If it
fails, or covers no text, there is one report instead. -/
theorem comesTo_covered {r : Outcome String} :
    (covered p).ComesTo env pos s r t ↔
      ∃ o u, p.ComesTo env pos { s with sink := .empty, entries := [] } o u ∧
        ((∃ q a text, o = .ok q a ∧ env.source.textBetween? pos q = some text ∧
          r = .ok q (.ofList text) ∧ t = { s with built := u.built }) ∨
        ((∀ q a, o = .ok q a → env.source.textBetween? pos q = none) ∧
          r = .fail pos ∧ t = State.reported { s with built := u.built } (.unknown pos))) := by
  constructor
  · intro h
    obtain ⟨n, h⟩ := h.exists_run
    rw [run] at h
    obtain ⟨o, _, hisolated, h⟩ := bind_eq_some.mp h
    obtain ⟨u, hp, rfl⟩ := isolated_eq_some.mp hisolated
    refine ⟨o, u, ⟨n, hp⟩, ?_⟩
    cases o with
    | fail f =>
      cases h
      refine .inr ⟨fun q a heq => ?_, rfl, rfl⟩
      cases heq
    | ok q a =>
      dsimp only at h
      cases htext : env.source.textBetween? pos q with
      | some text =>
        rw [htext] at h
        cases h
        exact .inl ⟨q, a, text, rfl, htext, rfl, rfl⟩
      | none =>
        rw [htext] at h
        cases h
        refine .inr ⟨fun q' a' heq => ?_, rfl, rfl⟩
        cases heq
        exact htext
  · rintro ⟨o, u, ⟨n, hp⟩, hend⟩
    refine .of_run (n := n + 1) ?_
    rw [run]
    refine bind_eq_some.mpr ⟨o, _, isolated_eq_some.mpr ⟨u, hp, rfl⟩, ?_⟩
    rcases hend with ⟨q, a, text, rfl, htext, rfl, rfl⟩ | ⟨hno, rfl, rfl⟩
    · dsimp only
      rw [htext]
      rfl
    · cases o with
      | fail f => rfl
      | ok q a =>
        dsimp only
        rw [hno q a rfl]
        rfl

/-- A rule does what its parser does. Without one, there is a report. -/
theorem comesTo_rule {i : ι} {r : Outcome (τ i)} :
    (rule i : Parser σ τ (τ i)).ComesTo env pos s r t ↔
      match env.rules i with
      | some p => p.ComesTo env pos s r t
      | none => r = .fail pos ∧ t = s.reported (.unknown pos) := by
  cases hi : env.rules i with
  | none =>
    refine comesTo_iff_of_run (n := 1) ?_
    rw [run, hi]
    exact mismatch_apply pos s
  | some p =>
    constructor
    · intro h
      obtain ⟨n, h⟩ := h.exists_run
      rw [run, hi] at h
      exact ⟨n, h⟩
    · rintro ⟨n, h⟩
      refine .of_run (n := n + 1) ?_
      rw [run, hi]
      exact h

/-! ## Repetition -/

/-- A run that ends a repetition: it fails, or succeeds without advancing. -/
def Stuck (env : Env σ τ) (p : Parser σ τ α) (pos : Nat) (s t : State) : Prop :=
  ∃ r, p.ComesTo env pos s r t ∧ ∀ q a, r = .ok q a → q ≤ pos

/-- Repeated from `pos` and `s`, up to `limit` times, the parser finds the values `as`, and stops at
`e` in the state `t`. -/
def Repeats (env : Env σ τ) (p : Parser σ τ α) (limit : Option Nat) (pos : Nat) (s : State)
    (as : List α) (e : Nat) (t : State) : Prop :=
  Returns (fun n => manyLoop (fun q => p.run env n q) n limit pos) s (as, e) t

variable {limit : Option Nat} {as : List α} {e : Nat}

/-- The bound on the depth of the runs and that on the passes may both be larger. -/
theorem manyLoop_of_le {m m' n n' : Nat} {x : (List α × Nat) × State} (hm : m ≤ m') (hn : n ≤ n')
    (h : manyLoop (fun q => p.run env m q) n limit pos s = some x) :
    manyLoop (fun q => p.run env m' q) n' limit pos s = some x := by
  have hitem : ∀ q, Simulates (Both fun _ => True) (p.run env m q) (p.run env m' q) :=
    run_simulates_of_le .trivial hm p
  exact (Simulates.manyLoop hitem hn limit pos).eq_some h

theorem growing_manyLoop (env : Env σ τ) (p : Parser σ τ α) (limit : Option Nat) (pos : Nat) :
    Growing fun n => manyLoop (fun q => p.run env n q) n limit pos :=
  fun _ _ hmn _ _ h => manyLoop_of_le hmn hmn h

/-- A repetition stops at its limit, or after a run that ends it, or it goes on after a run that
advances. -/
theorem repeats_iff :
    p.Repeats env limit pos s as e t ↔
      (limit = some 0 ∧ as = [] ∧ e = pos ∧ t = s) ∨
      (limit ≠ some 0 ∧ as = [] ∧ e = pos ∧ p.Stuck env pos s t) ∨
      (limit ≠ some 0 ∧ ∃ q a u as', p.ComesTo env pos s (.ok q a) u ∧ pos < q ∧
        p.Repeats env (limit.map (· - 1)) q u as' e t ∧ as = a :: as') := by
  constructor
  · rintro ⟨n, h⟩
    dsimp only at h
    cases n with
    | zero => cases h
    | succ n =>
      rw [manyLoop] at h
      by_cases hlimit : limit = some 0
      · rw [if_pos hlimit] at h
        cases h
        exact .inl ⟨hlimit, rfl, rfl, rfl⟩
      · rw [if_neg hlimit] at h
        obtain ⟨x, u, hp, h⟩ := bind_eq_some.mp h
        cases x with
        | fail f =>
          cases h
          refine .inr (.inl ⟨hlimit, rfl, rfl, .fail f, ⟨n + 1, hp⟩, ?_⟩)
          intro q a heq
          cases heq
        | ok q a =>
          by_cases hq : pos < q
          · simp only [if_pos hq] at h
            obtain ⟨⟨as', e'⟩, _, hrest, h⟩ := bind_eq_some.mp h
            cases h
            have hrest : p.Repeats env (limit.map (· - 1)) q u as' e' t :=
              ⟨n + 1, manyLoop_of_le (Nat.le_refl _) (Nat.le_succ n) hrest⟩
            exact .inr (.inr ⟨hlimit, q, a, u, as', ⟨n + 1, hp⟩, hq, hrest, rfl⟩)
          · simp only [if_neg hq] at h
            cases h
            refine .inr (.inl ⟨hlimit, rfl, rfl, .ok q a, ⟨n + 1, hp⟩, ?_⟩)
            intro q' a' heq
            cases heq
            exact Nat.le_of_not_lt hq
  · rintro (⟨hlimit, rfl, rfl, rfl⟩ | ⟨hlimit, rfl, rfl, x, ⟨n, hp⟩, hx⟩ |
      ⟨hlimit, q, a, u, as', hp, hq, hrest, rfl⟩)
    · refine ⟨1, ?_⟩
      dsimp only
      rw [manyLoop, if_pos hlimit]
      rfl
    · refine ⟨n + 1, ?_⟩
      dsimp only
      rw [manyLoop, if_neg hlimit]
      refine bind_eq_some.mpr ⟨x, t, run_of_le (Nat.le_succ n) hp, ?_⟩
      cases x with
      | fail f => rfl
      | ok q a =>
        have hq : ¬ e < q := Nat.not_lt_of_le (hx q a rfl)
        simp only [if_neg hq]
        rfl
    · have hloop := growing_manyLoop env p (limit.map (· - 1)) q
      obtain ⟨n, hp, hrest⟩ := Returns.both (growing_run env p pos) hloop hp hrest
      refine ⟨n + 1, ?_⟩
      dsimp only
      rw [manyLoop, if_neg hlimit]
      refine bind_eq_some.mpr ⟨.ok q a, u, run_of_le (Nat.le_succ n) hp, ?_⟩
      simp only [if_pos hq]
      have hrest := manyLoop_of_le (Nat.le_succ n) (Nat.le_refl n) hrest
      exact bind_eq_some.mpr ⟨(as', e), t, hrest, rfl⟩

theorem comesTo_many {bounds : Bounds} {r : Outcome (List α)} :
    (p.many bounds).ComesTo env pos s r t ↔
      ∃ as e u, p.Repeats env bounds.max pos s as e u ∧
        atLeast bounds.min as.length e as u = some (r, t) := by
  constructor
  · intro h
    obtain ⟨n, h⟩ := h.exists_run
    rw [run] at h
    obtain ⟨⟨as, e⟩, u, hloop, h⟩ := bind_eq_some.mp h
    exact ⟨as, e, u, ⟨n, hloop⟩, h⟩
  · rintro ⟨as, e, u, ⟨n, hloop⟩, h⟩
    refine .of_run (n := n + 1) ?_
    rw [run]
    exact bind_eq_some.mpr ⟨(as, e), u, hloop, h⟩

/-- What is folded is what is collected. -/
theorem comesTo_manyAccum {init : β} {f : β → α → β} {bounds : Bounds} {r : Outcome β} :
    (p.manyAccum init f bounds).ComesTo env pos s r t ↔
      ∃ as e u, p.Repeats env bounds.max pos s as e u ∧
        atLeast bounds.min as.length e (as.foldl f init) u = some (r, t) := by
  have hrun : ∀ n, (p.manyAccum init f bounds).run env (n + 1) pos =
      manyLoop (fun q => p.run env n q) n bounds.max pos >>= fun x =>
        atLeast bounds.min x.1.length x.2 (x.1.foldl f init) := by
    intro n
    rw [run, foldLoop_eq_manyLoop, bind_assoc]
    simp only [pure_bind, Nat.zero_add]
  constructor
  · intro h
    obtain ⟨n, h⟩ := h.exists_run
    rw [hrun] at h
    obtain ⟨⟨as, e⟩, u, hloop, h⟩ := bind_eq_some.mp h
    exact ⟨as, e, u, ⟨n, hloop⟩, h⟩
  · rintro ⟨as, e, u, ⟨n, hloop⟩, h⟩
    refine .of_run (n := n + 1) ?_
    rw [hrun]
    exact bind_eq_some.mpr ⟨(as, e), u, hloop, h⟩

/-- After the first item, a separator and an item are repeated as one parser. -/
theorem comesTo_sepBy {sep : Parser σ τ β} {bounds : Bounds} {r : Outcome (List α)}
    (hmax : bounds.max ≠ some 0) :
    (sepBy p sep bounds).ComesTo env pos s r t ↔
      (∃ q a u as e v, p.ComesTo env pos s (.ok q a) u ∧
        (sep.andThen p).Repeats env (bounds.max.map (· - 1)) q u as e v ∧
        atLeast bounds.min (as.length + 1) e (a :: as) v = some (r, t)) ∨
      ∃ f u, p.ComesTo env pos s (.fail f) u ∧ atLeast bounds.min 0 pos [] u = some (r, t) := by
  constructor
  · intro h
    obtain ⟨n, h⟩ := h.exists_run
    rw [run, if_neg hmax] at h
    obtain ⟨x, u, hp, h⟩ := bind_eq_some.mp h
    cases x with
    | fail f => exact .inr ⟨f, u, ⟨n, hp⟩, h⟩
    | ok q a =>
      dsimp only at h
      rw [sepLoop_eq_manyLoop] at h
      obtain ⟨⟨as, e⟩, v, hloop, h⟩ := bind_eq_some.mp h
      have hloop : (sep.andThen p).Repeats env (bounds.max.map (· - 1)) q u as e v :=
        ⟨n + 1, manyLoop_of_le (Nat.le_refl _) (Nat.le_succ n) hloop⟩
      exact .inl ⟨q, a, u, as, e, v, ⟨n, hp⟩, hloop, h⟩
  · rintro (⟨q, a, u, as, e, v, hp, hloop, h⟩ | ⟨f, u, ⟨n, hp⟩, h⟩)
    · have hgrowing := growing_manyLoop env (sep.andThen p) (bounds.max.map (· - 1)) q
      obtain ⟨n, hp, hloop⟩ := Returns.both (growing_run env p pos) hgrowing hp hloop
      refine .of_run (n := n + 1) ?_
      rw [run, if_neg hmax]
      refine bind_eq_some.mpr ⟨.ok q a, u, hp, ?_⟩
      dsimp only
      rw [sepLoop_eq_manyLoop]
      have hloop := manyLoop_of_le (Nat.le_succ n) (Nat.le_refl n) hloop
      exact bind_eq_some.mpr ⟨(as, e), v, hloop, h⟩
    · refine .of_run (n := n + 1) ?_
      rw [run, if_neg hmax]
      exact bind_eq_some.mpr ⟨.fail f, u, hp, h⟩

end Parser

end Backtrack
