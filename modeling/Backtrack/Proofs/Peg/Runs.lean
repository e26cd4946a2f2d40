import Backtrack.Proofs.Loops
import Backtrack.Proofs.Peg.Derives
import Backtrack.Proofs.Returns

/-!
# Runs derive what grammars derive

A parser returns from some bound on what is derived for it, whatever the state is that it starts
from (`Derives.settles`), and whatever it returns can be derived (`Parser.run_gives`). So runs and
derivations agree, on successes and on failures (`Parser.run_iff_derives`). As a run comes to one
outcome only, so do derivations (`Derives.unique`).
-/

namespace Backtrack

variable {σ ι : Type} {τ : ι → Type} {α β : Type}

open Act

/-! ## Loops -/

theorem Act.Yields.atLeast (bounds : Bounds) (count pos : Nat) (x : α) :
    (Backtrack.atLeast bounds.min count pos x).Yields
      (·.state? = bounds.accept count (pos, x)) := by
  rw [Backtrack.atLeast]
  split
  next h => exact (register pos none).bind fun _ _ => .pure (if_pos h).symm
  next h => exact .pure (if_neg h).symm

/-! ## Symbols -/

section Symbols

variable [DecidableEq σ] {src : Source σ}

theorem Source.matchSymbols?_eq_some {xs : List σ} {pos q : Nat} :
    src.matchSymbols? xs pos = some q ↔ src.Reads xs pos q := by
  constructor
  · intro h
    fun_induction src.matchSymbols? xs pos with
    | case1 pos =>
      cases h
      exact .nil
    | case2 x xs pos y width hx heq ih =>
      obtain rfl := beq_iff_eq.mp heq
      exact .cons hx (ih h)
    | case3 => cases h
    | case4 => cases h
  · intro h
    induction h with
    | nil => rfl
    | cons hx _ ih => rw [matchSymbols?, hx, ← ih]; exact if_pos (beq_self_eq_true _)

variable [Describe σ] {env : Env σ τ} {p : Parser σ τ σ} {accept : σ → Prop}

/-- A parser that reads one symbol looks at the symbol at its position, and at nothing else. -/
theorem Parser.ReadsOne.yields (hp : p.ReadsOne accept) (env : Env σ τ) (n pos : Nat) :
    (∀ x width, env.source.symbolAt? pos = some (x, width) → accept x →
      (p.run env (n + 1) pos).Yields (·.state? = some (pos + width, x))) ∧
    ((∀ x width, env.source.symbolAt? pos = some (x, width) → ¬ accept x) →
      (p.run env (n + 1) pos).Yields (·.state? = none)) := by
  obtain ⟨accept', reject, haccept, hreject, hrun⟩ : ∃ (accept' : σ → Bool)
      (reject : Act (Outcome σ)), (∀ x, accept' x = true ↔ accept x) ∧
      reject.Yields (·.state? = none) ∧
      p.run env (n + 1) pos = symbolWhere env.source pos accept' reject := by
    cases hp with
    | any => exact ⟨_, _, by simp, .mismatch pos, rfl⟩
    | el x => exact ⟨_, _, by simp, .failWith _ pos, rfl⟩
    | oneOf set => exact ⟨_, _, fun x => Pattern.contains_iff, .expectEach _ pos, rfl⟩
    | noneOf set =>
      refine ⟨_, _, fun x => ?_, .mismatch pos, rfl⟩
      simp [← Pattern.contains_iff]
    | satisfy pred => exact ⟨_, _, fun x => Iff.rfl, .mismatch pos, rfl⟩
  rw [hrun, symbolWhere]
  constructor
  · intro x width hx hacc
    rw [hx]
    dsimp only
    rw [if_pos ((haccept x).mpr hacc)]
    exact .pure rfl
  · intro h
    split
    next x width hx =>
      rw [if_neg fun hacc => h x width hx ((haccept x).mp hacc)]
      exact hreject
    next => exact hreject

/-- What such a parser gives can be derived. -/
theorem Parser.ReadsOne.gives (hp : p.ReadsOne accept) (n pos : Nat) :
    (p.run env (n + 1) pos).Gives fun r => Derives env p pos r.state? := by
  obtain ⟨hsome, hnone⟩ := hp.yields env n pos
  by_cases h : ∃ x width, env.source.symbolAt? pos = some (x, width) ∧ accept x
  · obtain ⟨x, width, hx, hacc⟩ := h
    exact (hsome x width hx hacc).gives.imp fun r hr => hr ▸ .symbol hp hx hacc
  · have hno : ∀ x width, env.source.symbolAt? pos = some (x, width) → ¬ accept x :=
      fun x width hx hacc => h ⟨x, width, hx, hacc⟩
    exact (hnone hno).gives.imp fun r hr => hr ▸ .noSymbol hp hno

end Symbols

/-! ## Loops and lists that give what can be derived -/

section Derivable

variable {env : Env σ τ} {call : Call σ τ}

theorem Chain.of_manyLoop {p : Parser σ τ α} {item : Nat → Act (Outcome α)}
    (hitem : ∀ q, (item q).Gives fun r => Derives env p q r.state?) (n : Nat)
    (limit : Option Nat) (pos : Nat) :
    (manyLoop item n limit pos).Gives fun x => Chain env p limit pos x.1 x.2 := by
  induction n generalizing limit pos with
  | zero => exact .exceeded
  | succ n ih =>
    rw [manyLoop]
    by_cases hlimit : limit = some 0
    · rw [if_pos hlimit, hlimit]
      exact .pure .full
    · rw [if_neg hlimit]
      refine (hitem pos).bindOutcome (fun q a hp => ?_) fun _ hp => .pure (.stop hlimit hp)
      dsimp only
      split
      next hq => exact (ih _ q).bind fun x hx => .pure (.next hlimit hp hq hx)
      next hq => exact .pure (.idle hlimit hp (Nat.not_lt.mp hq))

theorem Parsers.firstOf_gives : ∀ (ps : Parsers σ τ α),
    (∀ p ∈ ps.toList, ∀ q, (call p q).Gives fun r => Derives env p q r.state?) →
    ∀ pos, (ps.firstOf call pos).Gives fun r => Derives env (.choice ps) pos r.state?
  | .nil, _, pos => .pure .choice_nil
  | .cons p ps, hps, pos => by
    rw [toList, List.forall_mem_cons] at hps
    rw [firstOf]
    refine (hps.1 pos).bindOutcome (fun q a hp => .pure (.choice_first hp)) fun _ hp => ?_
    exact (firstOf_gives ps hps.2 pos).imp fun r hr => .choice_later hp hr

theorem Parsers.inOrder_gives (allowPartial : Bool) : ∀ (ps : Parsers σ τ α),
    (∀ p ∈ ps.toList, ∀ q, (call p q).Gives fun r => Derives env p q r.state?) →
    ∀ pos, (ps.inOrder call allowPartial pos).Gives
      fun r => Derives env (.seq ps allowPartial) pos r.state?
  | .nil, _, pos => .pure .seq_nil
  | .cons p ps, hps, pos => by
    rw [toList, List.forall_mem_cons] at hps
    rw [inOrder]
    refine (hps.1 pos).bindOutcome (fun q a hp => ?_) fun _ hp => ?_
    · refine (inOrder_gives allowPartial ps hps.2 q).bindOutcome (fun e as h => ?_) fun e h => ?_
      · exact .pure (.seq_cons hp h)
      · exact .pure (.seq_cons hp h)
    · cases allowPartial with
      | true => exact .pure (.seq_stop hp)
      | false => exact .pure (.seq_fail hp)

end Derivable

section Parsers

variable [DecidableEq σ] [Describe σ] {env : Env σ τ}

/-! ## From derivations to runs -/

/-- From some bound on, and from every state, the parser comes to `r`. -/
def Parser.Settles (env : Env σ τ) (p : Parser σ τ α) (pos : Nat) (r : Option (Nat × α)) : Prop :=
  ∃ n, ∀ m ≥ n, (p.run env m pos).Yields (·.state? = r)

/-- From some bound on, and from every state, repeating the parser comes to these values and ends
there. -/
def Parser.SettlesChain (env : Env σ τ) (p : Parser σ τ α) (limit : Option Nat) (pos : Nat)
    (as : List α) (e : Nat) : Prop :=
  ∃ n, ∀ m ≥ n, ∀ k ≥ n, (manyLoop (fun q => p.run env m q) k limit pos).Yields (· = (as, e))

theorem Parser.Settles.of_succ {p : Parser σ τ α} {pos : Nat} {r : Option (Nat × α)} (n : Nat)
    (h : ∀ m ≥ n, (p.run env (m + 1) pos).Yields (·.state? = r)) : p.Settles env pos r := by
  refine ⟨n + 1, fun m hm => ?_⟩
  obtain ⟨m, rfl⟩ := Nat.exists_eq_add_of_le' (Nat.lt_of_lt_of_le n.succ_pos hm)
  exact h m (Nat.le_of_succ_le_succ hm)

theorem Parser.SettlesChain.of_succ {p : Parser σ τ α} {limit : Option Nat} {pos e : Nat}
    {as : List α} (n : Nat) (h : ∀ m ≥ n, ∀ k ≥ n,
      (manyLoop (fun q => p.run env m q) (k + 1) limit pos).Yields (· = (as, e))) :
    p.SettlesChain env limit pos as e := by
  refine ⟨n + 1, fun m hm k hk => ?_⟩
  obtain ⟨k, rfl⟩ := Nat.exists_eq_add_of_le' (Nat.lt_of_lt_of_le n.succ_pos hk)
  exact h m (by omega) k (by omega)

/-- The alternatives of a choice are tried as the choice runs. -/
theorem Parsers.firstOf_yields {ps : Parsers σ τ α} {m pos : Nat} {r : Option (Nat × α)}
    (h : ((Parser.choice ps).run env (m + 1) pos).Yields (·.state? = r)) :
    (ps.firstOf (fun p q => p.run env m q) pos).Yields (·.state? = r) := by
  cases ps with
  | nil =>
    obtain ⟨x, t, hx, hr⟩ := h {}
    cases hx
    exact .pure hr
  | cons p ps => exact h

mutual

/-- One case for each rule, by induction on derivations. -/
theorem Derives.settles : ∀ {α : Type} {p : Parser σ τ α} {pos : Nat} {r : Option (Nat × α)},
    Derives env p pos r → p.Settles env pos r
  | _, _, _, _, .pure => .of_succ 0 fun m _ => .pure rfl
  | _, .fail what, _, _, .fail => by
    cases what with
    | none => exact .of_succ 0 fun m _ => .mismatch _
    | some what => exact .of_succ 0 fun m _ => .failWith _ _
  | _, _, pos, _, .symbol hp hx haccept =>
    .of_succ 0 fun m _ => (hp.yields env m pos).1 _ _ hx haccept
  | _, _, pos, _, .noSymbol hp h => .of_succ 0 fun m _ => (hp.yields env m pos).2 h
  | _, _, _, _, .eoi h => by
    refine .of_succ 0 fun m _ => ?_
    rw [Parser.run, if_pos h]
    exact .pure rfl
  | _, _, _, _, .notEoi h => by
    refine .of_succ 0 fun m _ => ?_
    rw [Parser.run, if_neg (Nat.not_le.mpr h)]
    exact .failWith _ _
  | _, _, _, _, .literal h => by
    refine .of_succ 0 fun m _ => ?_
    rw [Parser.run, Source.matchSymbols?_eq_some.mpr h]
    exact .pure rfl
  | _, .literal pattern, pos, _, .noLiteral h => by
    refine .of_succ 0 fun m _ => ?_
    rw [Parser.run]
    cases hq : env.source.matchSymbols? pattern.toList pos with
    | none => exact .failWith _ _
    | some q => exact (h q (Source.matchSymbols?_eq_some.mp hq)).elim
  | _, _, _, _, .map hp => by
    obtain ⟨n, hn⟩ := hp.settles
    refine .of_succ n fun m hm => ?_
    rw [Parser.run]
    exact (hn m hm).bind fun r hr => .pure (by rw [Outcome.state?_map, hr])
  | _, _, _, _, .flatMap hp hnext => by
    obtain ⟨n₁, h₁⟩ := hp.settles
    obtain ⟨n₂, h₂⟩ := hnext.settles
    refine .of_succ (max n₁ n₂) fun m hm => ?_
    rw [Parser.run]
    exact (h₁ m (by omega)).bindOk (h₂ m (by omega))
  | _, _, _, _, .flatMap_fail hp => by
    obtain ⟨n, hn⟩ := hp.settles
    refine .of_succ n fun m hm => ?_
    rw [Parser.run]
    exact (hn m hm).bindFail fun _ => .pure rfl
  | _, _, _, _, .andMap hp hq => by
    obtain ⟨n₁, h₁⟩ := hp.settles
    obtain ⟨n₂, h₂⟩ := hq.settles
    refine .of_succ (max n₁ n₂) fun m hm => ?_
    rw [Parser.run]
    refine (h₁ m (by omega)).bindOk ?_
    exact (h₂ m (by omega)).bind fun r hr => .pure (by rw [Outcome.state?_map, hr])
  | _, _, _, _, .andMap_fail hp => by
    obtain ⟨n, hn⟩ := hp.settles
    refine .of_succ n fun m hm => ?_
    rw [Parser.run]
    exact (hn m hm).bindFail fun _ => .pure rfl
  | _, _, _, _, .between hpre hp hpost => by
    obtain ⟨n₁, h₁⟩ := hpre.settles
    obtain ⟨n₂, h₂⟩ := hp.settles
    obtain ⟨n₃, h₃⟩ := hpost.settles
    refine .of_succ (max n₁ (max n₂ n₃)) fun m hm => ?_
    rw [Parser.run]
    refine (h₁ m (by omega)).bindOk ((h₂ m (by omega)).bindOk ?_)
    exact (h₃ m (by omega)).bind fun r hr => .pure (by rw [Outcome.state?_map, hr])
  | _, _, _, _, .between_pre hpre => by
    obtain ⟨n, hn⟩ := hpre.settles
    refine .of_succ n fun m hm => ?_
    rw [Parser.run]
    exact (hn m hm).bindFail fun _ => .pure rfl
  | _, _, _, _, .between_fail hpre hp => by
    obtain ⟨n₁, h₁⟩ := hpre.settles
    obtain ⟨n₂, h₂⟩ := hp.settles
    refine .of_succ (max n₁ n₂) fun m hm => ?_
    rw [Parser.run]
    exact (h₁ m (by omega)).bindOk ((h₂ m (by omega)).bindFail fun _ => .pure rfl)
  | _, _, _, _, .either_left hp => by
    obtain ⟨n, hn⟩ := hp.settles
    refine .of_succ n fun m hm => ?_
    rw [Parser.run]
    exact (hn m hm).bindOk (.pure rfl)
  | _, _, _, _, .either_right hp hq => by
    obtain ⟨n₁, h₁⟩ := hp.settles
    obtain ⟨n₂, h₂⟩ := hq.settles
    refine .of_succ (max n₁ n₂) fun m hm => ?_
    rw [Parser.run]
    refine (h₁ m (by omega)).bindFail fun _ => ?_
    exact (h₂ m (by omega)).bindOutcome (fun q x h => .pure h.symm) fun q h => .pure h.symm
  | _, _, pos, _, .choice_nil =>
    .of_succ 0 fun m _ => (Yields.register pos none).bind fun _ _ => .pure rfl
  | _, _, _, _, .choice_first hp => by
    obtain ⟨n, hn⟩ := hp.settles
    refine .of_succ n fun m hm => ?_
    rw [Parser.run, Parsers.firstOf]
    exact (hn m hm).bindOk (.pure rfl)
  | _, _, _, _, .choice_later hp hps => by
    obtain ⟨n₁, h₁⟩ := hp.settles
    obtain ⟨n₂, h₂⟩ := hps.settles
    refine .of_succ (max n₁ n₂) fun m hm => ?_
    rw [Parser.run, Parsers.firstOf]
    exact (h₁ m (by omega)).bindFail fun _ => Parsers.firstOf_yields (h₂ (m + 1) (by omega))
  | _, _, _, _, .option hp => by
    obtain ⟨n, hn⟩ := hp.settles
    refine .of_succ n fun m hm => ?_
    rw [Parser.run]
    exact (hn m hm).bindOutcome (fun q x h => .pure (h ▸ rfl)) fun q h => .pure (h ▸ rfl)
  | _, _, _, _, .opt hp => by
    obtain ⟨n, hn⟩ := hp.settles
    refine .of_succ n fun m hm => ?_
    rw [Parser.run]
    exact (hn m hm).bindOutcome (fun q x h => .pure (h ▸ rfl)) fun q h => .pure (h ▸ rfl)
  | _, _, _, _, .seq_nil => .of_succ 0 fun m _ => .pure rfl
  | _, _, _, _, .seq_cons hp hps => by
    obtain ⟨n₁, h₁⟩ := hp.settles
    obtain ⟨n₂, h₂⟩ := hps.settles
    refine .of_succ (max n₁ n₂) fun m hm => ?_
    rw [Parser.run, Parsers.inOrder]
    refine (h₁ m (by omega)).bindOk ?_
    have hrest := h₂ (m + 1) (by omega)
    rw [Parser.run] at hrest
    exact hrest.bindOutcome (fun q x h => .pure (h ▸ rfl)) fun q h => .pure (h ▸ rfl)
  | _, _, _, _, .seq_fail hp => by
    obtain ⟨n, hn⟩ := hp.settles
    refine .of_succ n fun m hm => ?_
    rw [Parser.run, Parsers.inOrder]
    exact (hn m hm).bindFail fun _ => .pure rfl
  | _, _, _, _, .seq_stop hp => by
    obtain ⟨n, hn⟩ := hp.settles
    refine .of_succ n fun m hm => ?_
    rw [Parser.run, Parsers.inOrder]
    exact (hn m hm).bindFail fun _ => .pure rfl
  | _, _, _, _, .many h => by
    obtain ⟨n, hn⟩ := h.settles
    refine .of_succ n fun m hm => ?_
    rw [Parser.run]
    refine (hn m hm m hm).bind fun x hx => ?_
    subst hx
    exact .atLeast _ _ _ _
  | _, _, _, _, .manyAccum h => by
    obtain ⟨n, hn⟩ := h.settles
    refine .of_succ n fun m hm => ?_
    rw [Parser.run, foldLoop_eq_manyLoop, bind_assoc]
    refine (hn m hm m hm).bind fun x hx => ?_
    subst hx
    rw [pure_bind, Nat.zero_add]
    exact .atLeast _ _ _ _
  | _, _, _, _, .sepBy hmax hp h => by
    obtain ⟨n₁, h₁⟩ := hp.settles
    obtain ⟨n₂, h₂⟩ := h.settles
    refine .of_succ (max n₁ n₂) fun m hm => ?_
    rw [Parser.run, if_neg hmax]
    refine (h₁ m (by omega)).bindOk ?_
    dsimp only
    rw [Parser.sepLoop_eq_manyLoop]
    refine (h₂ (m + 1) (by omega) m (by omega)).bind fun x hx => ?_
    subst hx
    exact .atLeast _ _ _ _
  | _, _, _, _, .sepBy_none hmax hp => by
    obtain ⟨n, hn⟩ := hp.settles
    refine .of_succ n fun m hm => ?_
    rw [Parser.run, if_neg hmax]
    exact (hn m hm).bindFail fun _ => .atLeast _ _ _ _
  | _, _, _, _, .sepBy_zero hmax => by
    refine .of_succ 0 fun m _ => ?_
    rw [Parser.run, if_pos hmax]
    exact .atLeast _ _ _ _
  | _, _, _, _, .lookAhead hp => by
    obtain ⟨n, hn⟩ := hp.settles
    refine .of_succ n fun m hm => ?_
    rw [Parser.run]
    exact (hn m hm).bindOutcome (fun q x h => .pure (h ▸ rfl)) fun q h => .pure (h ▸ rfl)
  | _, _, _, _, .notFollowedBy hp => by
    obtain ⟨n, hn⟩ := hp.settles
    refine .of_succ n fun m hm => ?_
    rw [Parser.run]
    exact (hn m hm).bindFail fun _ => .pure rfl
  | _, _, _, _, .followedBy hp => by
    obtain ⟨n, hn⟩ := hp.settles
    refine .of_succ n fun m hm => ?_
    rw [Parser.run]
    exact (hn m hm).bindOk (.mismatch _)
  | _, _, _, _, .label hp => by
    obtain ⟨n, hn⟩ := hp.settles
    refine .of_succ n fun m hm => ?_
    rw [Parser.run]
    refine Yields.currentSink.bind fun _ _ => (hn m hm).bindOutcome (fun q x h => .pure h.symm) ?_
    rintro q rfl
    exact Yields.currentSink.bind fun _ _ => .failWith _ _
  | _, _, _, _, .lazy hp => by
    obtain ⟨n, hn⟩ := hp.settles
    refine .of_succ n fun m hm => ?_
    rw [Parser.run]
    exact (Yields.build _).bind fun _ _ => hn m hm
  | _, _, _, _, .rule hi hp => by
    obtain ⟨n, hn⟩ := hp.settles
    refine .of_succ n fun m hm => ?_
    rw [Parser.run, hi]
    exact hn m hm
  | _, _, _, _, .undefined hi => by
    refine .of_succ 0 fun m _ => ?_
    rw [Parser.run, hi]
    exact .mismatch _

theorem Chain.settles : ∀ {α : Type} {p : Parser σ τ α} {limit : Option Nat} {pos e : Nat}
    {as : List α}, Chain env p limit pos as e → p.SettlesChain env limit pos as e
  | _, _, _, _, _, _, .full => by
    refine .of_succ 0 fun m _ k _ => ?_
    rw [manyLoop, if_pos rfl]
    exact .pure rfl
  | _, _, _, _, _, _, .stop hlimit hp => by
    obtain ⟨n, hn⟩ := hp.settles
    refine .of_succ n fun m hm k _ => ?_
    rw [manyLoop, if_neg hlimit]
    exact (hn m hm).bindFail fun _ => .pure rfl
  | _, _, _, _, _, _, .idle hlimit hp hq => by
    obtain ⟨n, hn⟩ := hp.settles
    refine .of_succ n fun m hm k _ => ?_
    rw [manyLoop, if_neg hlimit]
    refine (hn m hm).bindOk ?_
    dsimp only
    rw [if_neg (Nat.not_lt.mpr hq)]
    exact .pure rfl
  | _, _, _, _, _, _, .next hlimit hp hq hrest => by
    obtain ⟨n₁, h₁⟩ := hp.settles
    obtain ⟨n₂, h₂⟩ := hrest.settles
    refine .of_succ (max n₁ n₂) fun m hm k hk => ?_
    rw [manyLoop, if_neg hlimit]
    refine (h₁ m (by omega)).bindOk ?_
    dsimp only
    rw [if_pos hq]
    refine (h₂ m (by omega) k (by omega)).bind fun x hx => ?_
    subst hx
    exact .pure rfl

end

/-- Derivations are unique. -/
theorem Derives.unique {p : Parser σ τ α} {pos : Nat} {r r' : Option (Nat × α)}
    (h : Derives env p pos r) (h' : Derives env p pos r') : r = r' := by
  obtain ⟨n, hn⟩ := h.settles
  obtain ⟨n', hn'⟩ := h'.settles
  obtain ⟨x, t, hx, rfl⟩ := hn (max n n') (by omega) {}
  exact (hn' (max n n') (by omega)).gives _ _ _ hx

/-! ## From runs to derivations -/

theorem Parser.andMap_gives {γ : Type} {m : Nat} {p : Parser σ τ α} {q : Parser σ τ β}
    (f : α → β → γ) (hp : ∀ pos, (p.run env m pos).Gives fun r => Derives env p pos r.state?)
    (hq : ∀ pos, (q.run env m pos).Gives fun r => Derives env q pos r.state?) (pos : Nat) :
    ((andMap p q f).run env (m + 1) pos).Gives
      fun r => Derives env (.andMap p q f) pos r.state? := by
  rw [run]
  refine (hp pos).bindOutcome (fun e a h => ?_) fun _ h => .pure (.andMap_fail h)
  exact (hq e).bind fun r hr => .pure (by rw [Outcome.state?_map]; exact .andMap h hr)

/-- One case for each kind of parser, by induction on the bound. -/
theorem Parser.run_gives (henv : env.IsPeg) (n : Nat) (p : Parser σ τ α) (hp : p.IsPeg)
    (pos : Nat) : (p.run env n pos).Gives fun r => Derives env p pos r.state? := by
  induction n generalizing α p pos with
  | zero => exact .exceeded
  | succ n ih =>
    cases p with
    | pure a => exact .pure .pure
    | fail what =>
      cases what with
      | none => exact (Yields.mismatch pos).gives.imp fun r hr => hr ▸ .fail
      | some what => exact (Yields.failWith _ pos).gives.imp fun r hr => hr ▸ .fail
    | any => exact ReadsOne.any.gives n pos
    | el x => exact (ReadsOne.el x).gives n pos
    | oneOf set => exact (ReadsOne.oneOf set).gives n pos
    | noneOf set => exact (ReadsOne.noneOf set).gives n pos
    | satisfy pred => exact (ReadsOne.satisfy pred).gives n pos
    | eoi =>
      rw [run]
      split
      next h => exact .pure (.eoi h)
      next h =>
        exact (Yields.failWith _ pos).gives.imp fun r hr => hr ▸ .notEoi (Nat.not_le.mp h)
    | literal pattern =>
      rw [run]
      cases hq : env.source.matchSymbols? pattern.toList pos with
      | some q => exact .pure (.literal (Source.matchSymbols?_eq_some.mp hq))
      | none =>
        refine (Yields.failWith _ pos).gives.imp fun r hr => hr ▸ .noLiteral fun q h => ?_
        rw [Source.matchSymbols?_eq_some.mpr h] at hq
        cases hq
    | map p f =>
      rw [run]
      exact (ih p hp pos).bind fun r hr => .pure (by rw [Outcome.state?_map]; exact .map hr)
    | flatMap p next =>
      rw [run]
      refine (ih p hp.1 pos).bindOutcome (fun q a h => ?_) fun _ h => .pure (.flatMap_fail h)
      exact (ih (next a) (hp.2 a) q).imp fun r hr => .flatMap h hr
    | andMap p q f => exact andMap_gives f (ih p hp.1) (ih q hp.2) pos
    | between p pre post =>
      obtain ⟨hp, hpre, hpost⟩ := hp
      rw [run]
      refine (ih pre hpre pos).bindOutcome (fun d b h => ?_) fun _ h => .pure (.between_pre h)
      refine (ih p hp d).bindOutcome (fun e a h' => ?_) fun _ h' => .pure (.between_fail h h')
      exact (ih post hpost e).bind fun r hr =>
        .pure (by rw [Outcome.state?_map]; exact .between h h' hr)
    | either p q =>
      rw [run]
      refine (ih p hp.1 pos).bindOutcome (fun e a h => .pure (.either_left h)) fun _ h => ?_
      refine (ih q hp.2 pos).bindOutcome (fun e a h' => ?_) fun _ h' => ?_
      · exact .pure (.either_right h h')
      · exact .pure (.either_right h h')
    | choice ps =>
      cases ps with
      | nil => exact ((Yields.register pos none).gives).bind fun _ _ => .pure .choice_nil
      | cons p ps =>
        rw [run]
        exact Parsers.firstOf_gives _ (fun p' hp' => ih p' (Parsers.IsPeg.of_mem hp p' hp')) pos
    | option p d =>
      rw [run]
      exact (ih p hp pos).bindOutcome (fun e a h => .pure (.option h)) fun _ h => .pure (.option h)
    | opt p =>
      rw [run]
      exact (ih p hp pos).bindOutcome (fun e a h => .pure (.opt h)) fun _ h => .pure (.opt h)
    | seq ps allowPartial =>
      rw [run]
      exact Parsers.inOrder_gives _ _ (fun p' hp' => ih p' (Parsers.IsPeg.of_mem hp p' hp')) pos
    | many p bounds =>
      rw [run]
      refine (Chain.of_manyLoop (ih p hp) n bounds.max pos).bind fun x hx => ?_
      exact (Yields.atLeast bounds _ _ _).gives.imp fun r hr => hr ▸ .many hx
    | manyAccum p init f bounds =>
      rw [run, foldLoop_eq_manyLoop, bind_assoc]
      refine (Chain.of_manyLoop (ih p hp) n bounds.max pos).bind fun x hx => ?_
      rw [pure_bind, Nat.zero_add]
      exact (Yields.atLeast bounds _ _ _).gives.imp fun r hr => hr ▸ .manyAccum hx
    | sepBy p sep bounds =>
      rw [run]
      split
      next hmax => exact (Yields.atLeast bounds _ _ _).gives.imp fun r hr => hr ▸ .sepBy_zero hmax
      next hmax =>
        refine (ih p hp.1 pos).bindOutcome (fun q a h => ?_) fun _ h => ?_
        · dsimp only
          rw [sepLoop_eq_manyLoop]
          have hpair := andMap_gives (fun _ a => a) (ih sep hp.2) (ih p hp.1)
          refine (Chain.of_manyLoop hpair n _ q).bind fun x hx => ?_
          exact (Yields.atLeast bounds _ _ _).gives.imp fun r hr => hr ▸ .sepBy hmax h hx
        · exact (Yields.atLeast bounds _ _ _).gives.imp fun r hr => hr ▸ .sepBy_none hmax h
    | lookAhead p =>
      rw [run]
      exact (ih p hp pos).bindOutcome (fun e a h => .pure (.lookAhead h))
        fun _ h => .pure (.lookAhead h)
    | notFollowedBy p =>
      rw [run]
      refine (ih p hp pos).bindOutcome (fun e a h => ?_) fun _ h => .pure (.notFollowedBy h)
      exact (Yields.mismatch pos).gives.imp fun r hr => hr ▸ .followedBy h
    | label p name =>
      rw [run]
      refine Yields.currentSink.gives.bind fun _ _ => ?_
      refine (ih p hp pos).bindOutcome (fun e a h => .pure (.label h)) fun q h => ?_
      refine Yields.currentSink.gives.bind fun _ _ => ?_
      exact (Yields.failWith _ q).gives.imp fun r hr => hr ▸ .label h
    | lazy id p =>
      rw [run]
      exact (Yields.build id).gives.bind fun _ _ => (ih p hp pos).imp fun r hr => .lazy hr
    | rule i =>
      rw [run]
      cases hi : env.rules i with
      | some p => exact (ih p (henv i p hi) pos).imp fun r hr => .rule hi hr
      | none => exact (Yields.mismatch pos).gives.imp fun r hr => hr ▸ .undefined hi
    | charWith | regexGroup | regexGroups | covered | recognize | block | function => exact hp.elim

/-! ## Runs and derivations -/

/-- At every position and from every state, a parser of a grammar succeeds with an end and a value
if they can be derived, and fails if that can be derived, and only then. -/
theorem Parser.run_iff_derives (henv : env.IsPeg) {p : Parser σ τ α} (hp : p.IsPeg) (pos : Nat)
    (s : State) :
    (∀ e a, (∃ n t, p.run env n pos s = some (.ok e a, t)) ↔ Derives env p pos (some (e, a))) ∧
      ((∃ n q t, p.run env n pos s = some (.fail q, t)) ↔ Derives env p pos none) := by
  refine ⟨fun e a => ⟨?_, fun h => ?_⟩, ?_, fun h => ?_⟩
  · rintro ⟨n, t, hrun⟩
    exact run_gives henv n p hp pos s _ t hrun
  · obtain ⟨n, hn⟩ := h.settles
    obtain ⟨r, t, hrun, hr⟩ := hn n (Nat.le_refl n) s
    cases r with
    | ok e' a' =>
      cases hr
      exact ⟨n, t, hrun⟩
    | fail q => cases hr
  · rintro ⟨n, q, t, hrun⟩
    exact run_gives henv n p hp pos s _ t hrun
  · obtain ⟨n, hn⟩ := h.settles
    obtain ⟨r, t, hrun, hr⟩ := hn n (Nat.le_refl n) s
    cases r with
    | ok e a => cases hr
    | fail q => exact ⟨n, q, t, hrun⟩

/-- How deep parentheses are nested, by a rule that refers to itself. An `x` does not follow. -/
theorem Parser.run_iff_derives_nested :
    let nested : Parser Char (fun _ : Unit => Nat) Nat :=
      (many (between (rule ()) (el '(') (el ')')) {}).map fun ds =>
        ds.foldl (fun depth d => max depth (d + 1)) 0
    let env : Env Char (fun _ : Unit => Nat) :=
      { source := .ofString "(()())", rules := fun _ => some nested }
    let p : Parser Char (fun _ : Unit => Nat) Char := (rule ()).andThen (el 'x')
    (env.IsPeg ∧ (rule () : Parser Char (fun _ : Unit => Nat) Nat).IsPeg ∧ p.IsPeg) ∧
      Derives env (.rule ()) 0 (some (6, 2)) ∧ Derives env p 0 none := by
  intro nested env p
  have hnested : nested.IsPeg := ⟨trivial, trivial, trivial⟩
  have henv : env.IsPeg := fun i q hq => Option.some.inj hq ▸ hnested
  have hrule : (rule () : Parser Char (fun _ : Unit => Nat) Nat).IsPeg := trivial
  have hp : p.IsPeg := ⟨trivial, trivial⟩
  have hsome : ((rule () : Parser Char (fun _ : Unit => Nat) Nat).run env 16 0 {}).map (·.1) =
      some (.ok 6 2) := by decide +kernel
  have hnone : (p.run env 16 0 {}).map (·.1) = some (.fail 6) := by decide +kernel
  obtain ⟨⟨_, t⟩, hsome, rfl⟩ := Option.map_eq_some_iff.mp hsome
  obtain ⟨⟨_, u⟩, hnone, rfl⟩ := Option.map_eq_some_iff.mp hnone
  exact ⟨⟨henv, hrule, hp⟩, ((run_iff_derives henv hrule 0 {}).1 6 2).mp ⟨16, t, hsome⟩,
    (run_iff_derives henv hp 0 {}).2.mp ⟨16, 6, u, hnone⟩⟩

end Parsers

end Backtrack
