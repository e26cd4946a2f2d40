import Backtrack.Proofs.Termination.Calls

/-!
# Rules that descend

Rules that refer to each other need not stop. They do if every call of a rule leads on: it starts
behind the start of the call in which it is made, or else at the same position, but then it is of a
rule of lower rank (`Env.Descends`). So with ranks up to `top`, no more than `top + 1` calls in a
row start at one position, and the depth of the recursion is bounded by the distance to the end
(`RuleCall.length_le`).

That a parser descends is seen from its parts. Most combinators only hand on what their parts do
(`Parser.Descends.of_parts`). Where a part is run behind a parser that advances, such as a bracket
or a keyword, it does not matter what it calls (`Parser.Leads`).

As nothing but calls can keep a run from returning, all runs in such a grammar return, with a bound
that is linear in the length of the source (`Env.Descends.returns`).
-/

namespace Backtrack

variable {σ ι : Type} {τ : ι → Type} {α β γ : Type}

open Act Relation

/-! ## Parsers that advance -/

theorem Source.symbolAt?_pos {src : Source σ} {pos w : Nat} {x : σ}
    (h : src.symbolAt? pos = some (x, w)) : 0 < w := by
  rw [symbolAt?] at h
  split at h
  · cases h
    exact src.width_pos x
  · cases h

variable [BEq σ]

/-- Symbols that are read in order take a position each, at least. -/
theorem Source.le_of_matchSymbols? {src : Source σ} {xs : List σ} {pos q : Nat}
    (h : src.matchSymbols? xs pos = some q) : pos + xs.length ≤ q := by
  fun_induction src.matchSymbols? xs pos with
  | case1 pos =>
    cases h
    exact Nat.le_refl _
  | case2 x xs pos y w hx _ ih =>
    have hw := symbolAt?_pos hx
    have hle := ih h
    rw [List.length_cons]
    omega
  | case3 => cases h
  | case4 => cases h

variable [Describe σ]

namespace Parser

variable {env : Env σ τ} {p : Parser σ τ α} {q : Parser σ τ β} {zero : ι → Prop}

/-- Every success of the parser ends behind its start. -/
def Consumes (env : Env σ τ) (p : Parser σ τ α) : Prop :=
  ∀ pos e a s t, p.ComesTo env pos s (.ok e a) t → pos < e

namespace Consumes

theorem el (x : σ) : (Parser.el x : Parser σ τ σ).Consumes env := by
  intro pos e a s t h
  obtain ⟨n, h⟩ := h.exists_run
  rw [run, symbolWhere] at h
  cases hy : env.source.symbolAt? pos with
  | none =>
    rw [hy] at h
    cases h
  | some yw =>
    obtain ⟨y, w⟩ := yw
    have hw := Source.symbolAt?_pos hy
    rw [hy] at h
    dsimp only at h
    by_cases hyx : (y == x) = true
    · rw [if_pos hyx] at h
      cases h
      exact Nat.lt_add_of_pos_right hw
    · rw [if_neg hyx] at h
      cases h

theorem literal {pattern : Pattern σ} (hpattern : pattern.toList ≠ []) :
    (Parser.literal pattern : Parser σ τ _).Consumes env := by
  intro pos e a s t h
  obtain ⟨n, h⟩ := h.exists_run
  rw [run] at h
  have hlength := List.length_pos_iff.mpr hpattern
  cases hq : env.source.matchSymbols? pattern.toList pos with
  | none =>
    rw [hq] at h
    cases h
  | some q =>
    have hle := Source.le_of_matchSymbols? hq
    rw [hq] at h
    cases h
    omega

theorem map (hp : p.Consumes env) (f : α → β) : (p.map f).Consumes env := by
  intro pos e b s t h
  obtain ⟨r, hrun, heq⟩ := comesTo_map.mp h
  obtain ⟨a, rfl, -⟩ := Outcome.ok_eq_map.mp heq
  exact hp pos e a s t hrun

theorem andMap (henv : env.LibraryBuilt) (hp : p.Consumes env) (hq : q.LibraryBuilt)
    (f : α → β → γ) : (p.andMap q f).Consumes env := by
  intro pos e c s t h
  obtain ⟨e', a, u, r, hrun, hrest, heq⟩ | ⟨f, -, heq⟩ := comesTo_andMap.mp h
  · obtain ⟨b, rfl, -⟩ := Outcome.ok_eq_map.mp heq
    exact Nat.lt_of_lt_of_le (hp pos e' a s u hrun) (hrest.ahead henv hq).1
  · cases heq

end Consumes

/-! ## Parsers that descend -/

/-- The parser is library-built, and every rule that it calls is called behind its start, or at its
start if the rule is one of `zero`. -/
structure Descends (env : Env σ τ) (zero : ι → Prop) (p : Parser σ τ α) : Prop where
  built : p.LibraryBuilt
  calls : ∀ pos s i e u, p.Calls env pos s i e u → pos < e ∨ (e = pos ∧ zero i)

namespace Descends

/-- A parser that makes no calls. -/
theorem of_shallow (henv : env.LibraryBuilt) {n : Nat} (hp : p.Shallow (fun _ => False) n) :
    p.Descends env zero where
  built := hp.built
  calls _ _ _ _ _ h := (h.mem_rules henv hp).elim

/-- The parts are run ahead, and so a parser descends if its parts do. -/
theorem of_parts (henv : env.LibraryBuilt) (hp : p.EachPart zero (Descends env zero)) :
    p.Descends env zero where
  built := hp.built fun hq => hq.built
  calls pos s i e u h := by
    cases h with
    | rule => exact .inr ⟨rfl, hp⟩
    | part hpart hcalls =>
      obtain ⟨hq, hahead⟩ := hpart.good_ahead henv (fun hq => hq.built) hp
      have hle := hahead.1
      obtain hlt | ⟨rfl, hzero⟩ := hq.calls _ _ _ _ _ hcalls
      · exact .inl (Nat.lt_of_le_of_lt hle hlt)
      · by_cases hpos : pos = e
        · exact .inr ⟨hpos.symm, hzero⟩
        · exact .inl (Nat.lt_of_le_of_ne hle hpos)

theorem choiceOf (henv : env.LibraryBuilt) {ps : List (Parser σ τ α)}
    (hps : ∀ p ∈ ps, p.Descends env zero) : (Parser.choiceOf ps).Descends env zero := by
  refine of_parts henv fun p hp => hps p ?_
  rwa [Parsers.toList_ofList] at hp

end Descends

/-- The parser advances, and calls rules behind its start only. So any parser may follow it: it need
not descend itself. -/
structure Leads (env : Env σ τ) (p : Parser σ τ α) : Prop where
  consumes : p.Consumes env
  built : p.LibraryBuilt
  calls : ∀ pos s i e u, p.Calls env pos s i e u → pos < e

namespace Leads

theorem descends (hp : p.Leads env) : p.Descends env zero :=
  ⟨hp.built, fun pos s i e u h => .inl (hp.calls pos s i e u h)⟩

/-- A parser that advances and makes no calls. -/
theorem of_shallow (henv : env.LibraryBuilt) {n : Nat} (hp : p.Shallow (fun _ => False) n)
    (hconsumes : p.Consumes env) : p.Leads env :=
  ⟨hconsumes, hp.built, fun _ _ _ _ _ h => (h.mem_rules henv hp).elim⟩

theorem el (henv : env.LibraryBuilt) (x : σ) : (Parser.el x : Parser σ τ σ).Leads env := by
  have hshallow : (Parser.el x : Parser σ τ σ).Shallow (fun _ => False) 1 := trivial
  exact of_shallow henv hshallow (.el x)

theorem literal (henv : env.LibraryBuilt) {pattern : Pattern σ} (hpattern : pattern.toList ≠ []) :
    (Parser.literal pattern : Parser σ τ _).Leads env := by
  have hshallow : (Parser.literal pattern : Parser σ τ _).Shallow (fun _ => False) 1 := trivial
  exact of_shallow henv hshallow (.literal hpattern)

theorem map (hp : p.Leads env) (f : α → β) : (p.map f).Leads env where
  consumes := hp.consumes.map f
  built := hp.built
  calls pos s i e u h := by
    cases h with
    | part hpart hcalls =>
      cases hpart with
      | map => exact hp.calls _ _ _ _ _ hcalls

theorem andMap (henv : env.LibraryBuilt) (hp : p.Leads env) (hq : q.LibraryBuilt)
    (f : α → β → γ) : (p.andMap q f).Leads env where
  consumes := hp.consumes.andMap henv hq f
  built := ⟨hp.built, hq⟩
  calls pos s i e u h := by
    cases h with
    | part hpart hcalls =>
      cases hpart with
      | andMap => exact hp.calls _ _ _ _ _ hcalls
      | andMapNext hrun =>
        have hlt := hp.consumes _ _ _ _ _ hrun
        exact Nat.lt_of_lt_of_le hlt (hcalls.ahead henv hq).1

end Leads

/-- Between two others: what is called behind the first of them is called behind its start. -/
theorem Descends.between (henv : env.LibraryBuilt) {pre : Parser σ τ β} {post : Parser σ τ γ}
    (hpre : pre.Leads env) (hp : p.LibraryBuilt) (hpost : post.LibraryBuilt) :
    (p.between pre post).Descends env zero where
  built := ⟨hp, hpre.built, hpost⟩
  calls pos s i e u h := by
    cases h with
    | part hpart hcalls =>
      cases hpart with
      | betweenPre => exact .inl (hpre.calls _ _ _ _ _ hcalls)
      | between hrun =>
        have hlt := hpre.consumes _ _ _ _ _ hrun
        exact .inl (Nat.lt_of_lt_of_le hlt (hcalls.ahead henv hp).1)
      | betweenPost hrun hrest =>
        have hlt := hpre.consumes _ _ _ _ _ hrun
        have hle := (hrest.ahead henv hp).1
        have hle' := (hcalls.ahead henv hpost).1
        exact .inl (by omega)

end Parser

/-! ## Chains of calls -/

/-- A rule that is called: where, and from which state. -/
structure RuleCall (ι : Type) where
  rule : ι
  position : Nat
  state : State

/-- The parser of the one rule calls the other rule. -/
def RuleCall.Calls (env : Env σ τ) (c d : RuleCall ι) : Prop :=
  ∃ p, env.rules c.rule = some p ∧ p.Calls env c.position c.state d.rule d.position d.state

/-- With ranks up to `top`, every rule calls only rules behind its start, or rules of lower rank. -/
structure Env.Descends (env : Env σ τ) (rank : ι → Nat) (top : Nat) : Prop where
  rank_le : ∀ i, rank i ≤ top
  body : ∀ i p, env.rules i = some p → p.Descends env fun j => rank j < rank i

variable {env : Env σ τ} {rank : ι → Nat} {top : Nat}

theorem Env.Descends.built (henv : env.Descends rank top) : env.LibraryBuilt :=
  fun i p hp => (henv.body i p hp).built

namespace RuleCall

variable {c d : RuleCall ι}

theorem Calls.descends (henv : env.Descends rank top) (h : c.Calls env d) :
    c.position < d.position ∨ (d.position = c.position ∧ rank d.rule < rank c.rule) := by
  obtain ⟨p, hp, hcalls⟩ := h
  exact (henv.body c.rule p hp).calls _ _ _ _ _ hcalls

/-- Also of the calls in a call, however deep they are, and of the calls in them. -/
theorem nested_descends (henv : env.Descends rank top) (h : TransGen (Calls env) c d) :
    c.position < d.position ∨ (d.position = c.position ∧ rank d.rule < rank c.rule) := by
  induction h with
  | single hstep => exact hstep.descends henv
  | tail _ hstep ih =>
    have hlast := hstep.descends henv
    omega

/-- How many calls there may still be in a row: less than this, after the given one. -/
def height (env : Env σ τ) (rank : ι → Nat) (top : Nat) (c : RuleCall ι) : Nat :=
  (top + 1) * (env.source.len - c.position) + rank c.rule

theorem Calls.height_lt (henv : env.Descends rank top) (h : c.Calls env d) :
    d.height env rank top < c.height env rank top := by
  have hrank := henv.rank_le d.rule
  have hcalls := h.descends henv
  obtain ⟨p, hp, h⟩ := h
  have hahead := h.ahead henv.built (henv.body c.rule p hp).built
  unfold height
  obtain hlt | ⟨heq, hlt⟩ := hcalls
  · have hsub := hahead.sub_lt hlt
    have hmul : (top + 1) * (env.source.len - d.position + 1) ≤
        (top + 1) * (env.source.len - c.position) := Nat.mul_le_mul_left _ hsub
    rw [Nat.mul_succ] at hmul
    omega
  · rw [heq]
    omega

theorem height_succ_le (henv : env.Descends rank top) (c : RuleCall ι) :
    c.height env rank top + 1 ≤ (top + 1) * (env.source.len - c.position + 1) := by
  have hrank := henv.rank_le c.rule
  rw [height, Nat.mul_succ]
  omega

/-- The depth of the recursion is bounded by the distance to the end. -/
theorem length_le (henv : env.Descends rank top) {c : RuleCall ι} {cs : List (RuleCall ι)}
    (h : (c :: cs).IsChain (Calls env)) :
    (c :: cs).length ≤ (top + 1) * (env.source.len - c.position + 1) := by
  suffices hlength : (c :: cs).length ≤ c.height env rank top + 1 from
    hlength.trans (height_succ_le henv c)
  induction cs generalizing c with
  | nil => exact Nat.le_add_left _ _
  | cons d cs ih =>
    obtain ⟨hstep, hrest⟩ := List.isChain_cons_cons.mp h
    have hlt := hstep.height_lt henv
    have hle := ih hrest
    rw [List.length_cons]
    omega

end RuleCall

/-! ## All runs return -/

section Returns

variable {K N : Nat}

/-- A rule returns. The induction is on the calls that there may still be. -/
theorem Env.Descends.rule_returns (henv : env.Descends rank top)
    (hbodies : ∀ i p, env.rules i = some p → p.Shallow (fun _ => True) K)
    (hN : env.source.len < N) (c : RuleCall ι) :
    ∃ x, (Parser.rule c.rule).run env (N + (K + 1) * (c.height env rank top + 1)) c.position
      c.state = some x := by
  induction hheight : c.height env rank top using Nat.strong_induction_on generalizing c with
  | _ h ih =>
    let M := N + (K + 1) * h
    have hM : N + (K + 1) * (h + 1) = M + K + 1 := by rw [Nat.mul_succ]; omega
    rw [hM, Parser.run]
    cases hrule : env.rules c.rule with
    | none => exact (Yields.mismatch c.position).returns c.state
    | some p =>
      have hlen : env.source.len < M := Nat.lt_add_right _ hN
      refine Parser.run_returns_of_calls henv.built hlen (hbodies c.rule p hrule) ?_
      intro i e u hcalls
      let d : RuleCall ι := ⟨i, e, u⟩
      have hlt : d.height env rank top < h := by
        rw [← hheight]
        exact RuleCall.Calls.height_lt henv ⟨p, hrule, hcalls⟩
      obtain ⟨x, hx⟩ := ih _ hlt d rfl
      have hle : N + (K + 1) * (d.height env rank top + 1) ≤ M :=
        Nat.add_le_add_left (Nat.mul_le_mul_left _ hlt) N
      exact ⟨x, Parser.run_of_le hle hx⟩

/-- In a grammar whose rules descend, every run returns. -/
theorem Env.Descends.returns (henv : env.Descends rank top)
    (hbodies : ∀ i p, env.rules i = some p → p.Shallow (fun _ => True) K) {k : Nat}
    {p : Parser σ τ α} (hp : p.Shallow (fun _ => True) k) (pos : Nat) (s : State) :
    ∃ x, p.run env
      (env.source.len + 1 + (K + 1) * ((top + 1) * (env.source.len + 1)) + k) pos s = some x := by
  refine Parser.run_returns_of_calls henv.built (by omega) hp fun i e u _ => ?_
  obtain ⟨x, hx⟩ := henv.rule_returns hbodies (Nat.lt_succ_self _) ⟨i, e, u⟩
  have hheight : (RuleCall.mk i e u).height env rank top + 1 ≤
      (top + 1) * (env.source.len + 1) :=
    (RuleCall.height_succ_le henv _).trans (Nat.mul_le_mul_left _ (by omega))
  exact ⟨x, Parser.run_of_le (Nat.add_le_add_left (Nat.mul_le_mul_left _ hheight) _) hx⟩

/-- Inside the run of the first parser, the second one is run: it is the parser itself, a part of
it, or what a rule stands for, and so on. -/
inductive Parser.Runs (env : Env σ τ) : {α : Type} → Parser σ τ α → Nat → State →
    {β : Type} → Parser σ τ β → Nat → State → Prop where
  | refl {α : Type} {p : Parser σ τ α} {pos : Nat} {s : State} : Runs env p pos s p pos s
  | part {α β γ : Type} {p : Parser σ τ α} {q : Parser σ τ β} {q' : Parser σ τ γ}
    {pos e e' : Nat} {s u u' : State} (hpart : p.Starts env pos s q e u)
    (hrest : Runs env q e u q' e' u') : Runs env p pos s q' e' u'
  | body {β : Type} {i : ι} {p : Parser σ τ (τ i)} {q : Parser σ τ β} {pos e : Nat} {s u : State}
    (hrule : env.rules i = some p) (hrest : Runs env p pos s q e u) :
    Runs env (.rule i) pos s q e u

/-- And so does every run inside it. -/
theorem Env.Descends.inner_returns (henv : env.Descends rank top)
    (hbodies : ∀ i p, env.rules i = some p → p.Shallow (fun _ => True) K) {k : Nat}
    {p : Parser σ τ α} {q : Parser σ τ β} (hp : p.Shallow (fun _ => True) k) {pos e : Nat}
    {s u : State} (h : p.Runs env pos s q e u) : ∃ r t, q.ComesTo env e u r t := by
  induction h generalizing k with
  | @refl _ _ pos s =>
    obtain ⟨⟨r, t⟩, hrun⟩ := henv.returns hbodies hp pos s
    exact ⟨r, t, .of_run hrun⟩
  | part hpart _ ih =>
    cases k with
    | zero => exact hp.elim
    | succ k => exact ih (hpart.good_ahead henv.built (fun hq => hq.built) hp).1
  | body hrule _ ih => exact ih (hbodies _ _ hrule)

end Returns

end Backtrack
