import Backtrack.Proofs.ComesTo
import Backtrack.Proofs.LibraryBuilt

/-!
# Ordered choice

`Parser.Tries` says what it means to try a list of parsers in order: the first one that succeeds
decides, and those after it do not matter. A choice over a list does this, and so does every binary
tree of alternatives, however it is bracketed (`Parser.tree_iff_choice`).

A tree fails at its start. A single parser fails where it fails, so `Parser.tries_members`, which
is about every tree, looks at the outcome only up to the position of a failure. With two
alternatives or more, the outermost one sets that position.
-/

namespace Backtrack

universe u

/-- A way to put the members of a list together, two at a time. -/
inductive Bracketing (π : Type u) where
  | one (x : π)
  | both (left right : Bracketing π)

namespace Bracketing

variable {π : Type u}

/-- What is put together, from left to right. -/
def members : Bracketing π → List π
  | one x => [x]
  | both left right => left.members ++ right.members

@[simp] theorem members_one (x : π) : (one x).members = [x] := rfl

@[simp] theorem members_both (left right : Bracketing π) :
    (both left right).members = left.members ++ right.members := rfl

/-- The members that follow are added one at a time. -/
def chain (first : Bracketing π) (xs : List π) : Bracketing π :=
  xs.foldl (fun T x => both T (one x)) first

theorem members_chain (first : Bracketing π) (xs : List π) :
    (chain first xs).members = first.members ++ xs := by
  induction xs generalizing first with
  | nil => simp [chain]
  | cons x xs ih =>
    have hrest := ih (both first (one x))
    simpa [chain] using hrest

end Bracketing

variable {σ ι : Type} {τ : ι → Type} {α : Type}

open Act Bracketing

/-- Alternatives, bracketed in some way. -/
def Bracketing.choose : Bracketing (Parser σ τ α) → Parser σ τ α
  | one p => p
  | both left right => .either left.choose right.choose

/-- A chain of alternatives is the left fold. -/
theorem Bracketing.choose_chain (first : Bracketing (Parser σ τ α)) (ps : List (Parser σ τ α)) :
    (chain first ps).choose = ps.foldl .either first.choose := by
  induction ps generalizing first with
  | nil => rfl
  | cons p ps ih => exact ih (both first (one p))

/-- The balanced tree over a list is one of its bracketings. -/
theorem Bracketing.exists_balanced (ps : List (Parser σ τ α)) (h : ps ≠ []) :
    ∃ T : Bracketing (Parser σ τ α), T.members = ps ∧ T.choose = Parser.alternatives ps := by
  induction ps using Parser.alternatives.induct with
  | case1 => exact absurd rfl h
  | case2 p => exact ⟨one p, rfl, by rw [Parser.alternatives, choose]⟩
  | case3 p q rest n ihtake ihdrop =>
    have hn : n = rest.length + 2 := rfl
    have htake : (p :: q :: rest).take (n / 2) ≠ [] := by
      intro hnil
      have hlength := congrArg List.length hnil
      simp only [List.length_take, List.length_cons, List.length_nil] at hlength
      omega
    have hdrop : (p :: q :: rest).drop (n / 2) ≠ [] := by
      intro hnil
      have hlength := congrArg List.length hnil
      simp only [List.length_drop, List.length_cons, List.length_nil] at hlength
      omega
    obtain ⟨left, hleft, hleft'⟩ := ihtake htake
    obtain ⟨right, hright, hright'⟩ := ihdrop hdrop
    refine ⟨both left right, ?_, ?_⟩
    · rw [members_both, hleft, hright, List.take_append_drop]
    · rw [choose, hleft', hright', Parser.alternatives]

namespace Parser

variable [BEq σ] [Describe σ] {env : Env σ τ} {p q : Parser σ τ α}
  {ps qs : List (Parser σ τ α)} {pos e f : Nat} {a : α} {s t u : State} {r : Outcome α}

/-- What it comes to when the parsers are tried in order at `pos`: the first one that succeeds ends
the search, and if there is none it fails there. -/
inductive Tries (env : Env σ τ) (pos : Nat) :
    State → List (Parser σ τ α) → Outcome α → State → Prop where
  | none {s : State} : Tries env pos s [] (.fail pos) s
  | found {p : Parser σ τ α} {ps : List (Parser σ τ α)} {e : Nat} {a : α} {s t : State}
    (hrun : p.ComesTo env pos s (.ok e a) t) : Tries env pos s (p :: ps) (.ok e a) t
  | next {p : Parser σ τ α} {ps : List (Parser σ τ α)} {f : Nat} {r : Outcome α} {s t u : State}
    (hrun : p.ComesTo env pos s (.fail f) u) (hrest : Tries env pos u ps r t) :
    Tries env pos s (p :: ps) r t

namespace Tries

/-- A search that finds nothing fails where it started. -/
theorem eq_pos (h : Tries env pos s ps (.fail f) t) : f = pos := by
  generalize hr : Outcome.fail f = r at h
  induction h with
  | none => exact Outcome.fail.inj hr
  | found _ => cases hr
  | next _ _ ih => exact ih hr

/-- The list may be tried in two parts. -/
theorem append_iff :
    Tries env pos s (ps ++ qs) r t ↔
      (∃ e a, Tries env pos s ps (.ok e a) t ∧ r = .ok e a) ∨
        ∃ u, Tries env pos s ps (.fail pos) u ∧ Tries env pos u qs r t := by
  induction ps generalizing s with
  | nil =>
    constructor
    · intro h
      exact .inr ⟨s, none, h⟩
    · rintro (⟨e, a, h, -⟩ | ⟨u, h, hrest⟩)
      · cases h
      · cases h
        exact hrest
  | cons p ps ih =>
    constructor
    · intro h
      cases h with
      | found hrun => exact .inl ⟨_, _, found hrun, rfl⟩
      | next hrun hrest =>
        obtain ⟨e, a, hps, rfl⟩ | ⟨v, hps, hqs⟩ := ih.mp hrest
        · exact .inl ⟨e, a, next hrun hps, rfl⟩
        · exact .inr ⟨v, next hrun hps, hqs⟩
    · rintro (⟨e, a, h, rfl⟩ | ⟨v, h, hqs⟩)
      · cases h with
        | found hrun => exact found hrun
        | next hrun hrest => exact next hrun (ih.mpr (.inl ⟨e, a, hrest, rfl⟩))
      · cases h with
        | next hrun hrest => exact next hrun (ih.mpr (.inr ⟨v, hrest, hqs⟩))

/-- A search finds the first parser that succeeds. What comes after it does not matter. -/
theorem iff_first :
    Tries env pos s ps r t ↔
      (∃ before p after u e a, ps = before ++ p :: after ∧ Tries env pos s before (.fail pos) u ∧
        p.ComesTo env pos u (.ok e a) t ∧ r = .ok e a) ∨
      (Tries env pos s ps (.fail pos) t ∧ r = .fail pos) := by
  constructor
  · intro h
    induction h with
    | none => exact .inr ⟨none, rfl⟩
    | @found p ps e a s t hrun => exact .inl ⟨[], p, ps, s, e, a, rfl, none, hrun, rfl⟩
    | @next p ps f r s t u hrun hrest ih =>
      rcases ih with ⟨before, q, after, v, e, a, rfl, hbefore, hq, rfl⟩ | ⟨hfail, rfl⟩
      · exact .inl ⟨p :: before, q, after, v, e, a, rfl, next hrun hbefore, hq, rfl⟩
      · exact .inr ⟨next hrun hfail, rfl⟩
  · rintro (⟨before, p, after, u, e, a, rfl, hbefore, hp, rfl⟩ | ⟨h, rfl⟩)
    · exact append_iff.mpr (.inr ⟨u, hbefore, found hp⟩)
    · exact h

end Tries

/-! ## Trees -/

/-- One alternative of two, each of which tries its own members. -/
theorem comesTo_choose_both {left right : Bracketing (Parser σ τ α)}
    (hleft : ∀ {s r t}, Tries env pos s left.members r t ↔
      ∃ r', left.choose.ComesTo env pos s r' t ∧ r = r'.failAt pos)
    (hright : ∀ {s r t}, Tries env pos s right.members r t ↔
      ∃ r', right.choose.ComesTo env pos s r' t ∧ r = r'.failAt pos) :
    (both left right).choose.ComesTo env pos s r t ↔
      Tries env pos s (both left right).members r t := by
  rw [choose, comesTo_either, members_both, Tries.append_iff]
  simp only [hleft, hright, Outcome.failAt_eq_ok, Outcome.failAt_eq_fail]
  constructor
  · rintro (⟨e, a, h, rfl⟩ | ⟨f, u, r', h, h', rfl⟩)
    · exact .inl ⟨e, a, ⟨_, h, rfl⟩, rfl⟩
    · exact .inr ⟨u, ⟨_, h, trivial, f, rfl⟩, r', h', rfl⟩
  · rintro (⟨e, a, ⟨_, h, rfl⟩, rfl⟩ | ⟨u, ⟨_, h, -, f, rfl⟩, r', h', rfl⟩)
    · exact .inl ⟨e, a, h, rfl⟩
    · exact .inr ⟨f, u, r', h, h', rfl⟩

/-- A tree tries its members in order, but for the position at which it fails. -/
theorem tries_members (T : Bracketing (Parser σ τ α)) :
    ∀ {s r t}, Tries env pos s T.members r t ↔
      ∃ r', T.choose.ComesTo env pos s r' t ∧ r = r'.failAt pos := by
  induction T with
  | one p =>
    intro s r t
    constructor
    · intro h
      cases h with
      | found hrun => exact ⟨_, hrun, rfl⟩
      | next hrun hrest =>
        cases hrest
        exact ⟨_, hrun, rfl⟩
    · rintro ⟨r', hrun, rfl⟩
      cases r' with
      | ok e a => exact .found hrun
      | fail f => exact .next hrun .none
  | both left right hleft hright =>
    intro s r t
    -- Here no position has to be corrected, as both sides fail at `pos`.
    have hboth {r : Outcome α} :
        (both left right).choose.ComesTo env pos s r t ↔
          Tries env pos s (both left right).members r t :=
      comesTo_choose_both hleft hright
    simp only [hboth]
    constructor
    · intro h
      cases r with
      | ok e a => exact ⟨_, h, rfl⟩
      | fail f => exact ⟨_, h, by rw [h.eq_pos]; rfl⟩
    · rintro ⟨r', h, rfl⟩
      cases r' with
      | ok e a => exact h
      | fail f =>
        rw [h.eq_pos] at h
        exact h

/-- With two members or more, also the position of a failure is that of the search. -/
theorem comesTo_choose {T : Bracketing (Parser σ τ α)} (hT : 2 ≤ T.members.length) :
    T.choose.ComesTo env pos s r t ↔ Tries env pos s T.members r t := by
  cases T with
  | one p => exact absurd hT (Nat.not_succ_le_self 1)
  | both left right => exact comesTo_choose_both (tries_members left) (tries_members right)

/-! ## Lists -/

/-- Trying a list is a loop. -/
theorem tries_iff_firstOf :
    Tries env pos s ps r t ↔
      Returns (fun n => (Parsers.ofList ps).firstOf (fun p q => p.run env n q) pos) s r t := by
  have hgrowing (ps : List (Parser σ τ α)) :
      Growing fun n => (Parsers.ofList ps).firstOf (fun p q => p.run env n q) pos :=
    Simulates.growing fun m n hmn =>
      .firstOf _ (fun p _ q => run_simulates_of_le .trivial hmn p q) pos
  induction ps generalizing s with
  | nil =>
    constructor
    · intro h
      cases h
      exact ⟨0, rfl⟩
    · rintro ⟨n, h⟩
      cases h
      exact .none
  | cons p ps ih =>
    constructor
    · intro h
      cases h with
      | found hrun =>
        obtain ⟨n, hn⟩ := hrun
        exact ⟨n, bind_eq_some.mpr ⟨_, _, hn, rfl⟩⟩
      | next hrun hrest =>
        obtain ⟨n, hn, hrest⟩ :=
          Returns.both (growing_run env p pos) (hgrowing ps) hrun (ih.mp hrest)
        exact ⟨n, bind_eq_some.mpr ⟨_, _, hn, hrest⟩⟩
    · rintro ⟨n, h⟩
      obtain ⟨x, u, hrun, h⟩ := bind_eq_some.mp h
      cases x with
      | ok e a =>
        cases h
        exact .found ⟨n, hrun⟩
      | fail f => exact .next ⟨n, hrun⟩ (ih.mpr ⟨n, h⟩)

theorem comesTo_choiceOf (hps : ps ≠ []) :
    (choiceOf ps).ComesTo env pos s r t ↔ Tries env pos s ps r t := by
  obtain ⟨p, ps, rfl⟩ := List.exists_cons_of_ne_nil hps
  rw [tries_iff_firstOf]
  constructor
  · intro h
    obtain ⟨n, hn⟩ := h.exists_run
    rw [choiceOf, Parsers.ofList, run] at hn
    exact ⟨n, hn⟩
  · rintro ⟨n, hn⟩
    refine .of_run (n := n + 1) ?_
    rw [choiceOf, Parsers.ofList, run]
    exact hn

/-- Ordered choice does not depend on its shape. A tree of two or more alternatives comes to what
the choice over its members comes to. That is the success of the first one that succeeds, when those
before it have failed, whatever those after it would do; or the failure at the start, when all have
failed. The left-to-right chain over a list and the balanced tree are such trees. -/
theorem tree_iff_choice (env : Env σ τ) :
    (∀ T : Bracketing (Parser σ τ α), 2 ≤ T.members.length → ∀ pos s r t,
      (T.choose.ComesTo env pos s r t ↔ (choiceOf T.members).ComesTo env pos s r t) ∧
      (T.choose.ComesTo env pos s r t ↔
        (∃ before p after u e a, T.members = before ++ p :: after ∧
          Tries env pos s before (.fail pos) u ∧ p.ComesTo env pos u (.ok e a) t ∧ r = .ok e a) ∨
        (Tries env pos s T.members (.fail pos) t ∧ r = .fail pos))) ∧
    ∀ (p q : Parser σ τ α) ps pos s r t,
      (((q :: ps).foldl either p).ComesTo env pos s r t ↔
        (choiceOf (p :: q :: ps)).ComesTo env pos s r t) ∧
      ((alternatives (p :: q :: ps)).ComesTo env pos s r t ↔
        (choiceOf (p :: q :: ps)).ComesTo env pos s r t) := by
  have htree (T : Bracketing (Parser σ τ α)) (hT : 2 ≤ T.members.length) pos s r t :
      T.choose.ComesTo env pos s r t ↔ (choiceOf T.members).ComesTo env pos s r t := by
    rw [comesTo_choose hT, comesTo_choiceOf (List.ne_nil_of_length_pos (by omega))]
  refine ⟨fun T hT pos s r t => ⟨htree T hT pos s r t, ?_⟩, fun p q ps pos s r t => ⟨?_, ?_⟩⟩
  · rw [comesTo_choose hT, Tries.iff_first]
  · have hchain := htree (chain (one p) (q :: ps))
    rw [members_chain, choose_chain] at hchain
    exact hchain (by simp) pos s r t
  · obtain ⟨T, hmembers, hchoose⟩ := exists_balanced (p :: q :: ps) (List.cons_ne_nil _ _)
    have hbalanced := htree T
    rw [hmembers, hchoose] at hbalanced
    exact hbalanced (by simp) pos s r t

/-- Three letters, the second of which is there, in a tree to the right. -/
theorem tree_iff_choice_letters :
    let env := Env.bare (.text ['y'])
    let p (c : Char) : Parser Char (Empty.elim : Empty → Type) Char := .el c
    let T := both (one (p 'x')) (both (one (p 'y')) (one (p 'z')))
    let t : State := {
      sink := .reached 0 [.expected 0 "'x'"], entries := [⟨0, some (.expected 0 "'x'")⟩] }
    (2 ≤ T.members.length ∧ Tries env 0 {} [p 'x'] (.fail 0) t ∧
      (p 'y').ComesTo env 0 t (.ok 1 'y') t) ∧
      T.choose.ComesTo env 0 {} (.ok 1 'y') t ∧
      (choiceOf [p 'x', p 'y', p 'z']).ComesTo env 0 {} (.ok 1 'y') t ∧
      ([p 'y', p 'z'].foldl either (p 'x')).ComesTo env 0 {} (.ok 1 'y') t ∧
      (alternatives [p 'x', p 'y', p 'z']).ComesTo env 0 {} (.ok 1 'y') t := by
  intro env p T t
  have hlength : 2 ≤ T.members.length := Nat.le_succ 2
  have hbefore : Tries env 0 {} [p 'x'] (.fail 0) t := .next ⟨1, rfl⟩ .none
  have hfound : (p 'y').ComesTo env 0 t (.ok 1 'y') t := ⟨1, rfl⟩
  obtain ⟨htree, hlists⟩ := tree_iff_choice (α := Char) env
  obtain ⟨hsame, hfirst⟩ := htree T hlength 0 {} (.ok 1 'y') t
  have hrun : T.choose.ComesTo env 0 {} (.ok 1 'y') t :=
    hfirst.mpr (.inl ⟨[p 'x'], p 'y', [p 'z'], t, 1, 'y', rfl, hbefore, hfound, rfl⟩)
  have hchoice := hsame.mp hrun
  obtain ⟨hchain, hbalanced⟩ := hlists (p 'x') (p 'y') [p 'z'] 0 {} (.ok 1 'y') t
  exact ⟨⟨hlength, hbefore, hfound⟩, hrun, hchoice, hchain.mpr hchoice, hbalanced.mpr hchoice⟩

end Parser

end Backtrack
