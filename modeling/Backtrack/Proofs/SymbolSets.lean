import Backtrack.Proofs.Alternatives

/-!
# Sets of symbols

`Parser.oneOf` asks whether a symbol is in a pattern, and on a failure goes through the symbols of
the pattern to report each of them. A choice of single symbols tries them one after another, and
reports each one that is not there. So both succeed with the same symbol, and where they fail they
have made the same reports in the same order (`Parser.oneOf_iff_choice`). Where they succeed the
choice has reported the symbols in front of the one that is there, and `Parser.oneOf` nothing.
-/

namespace Backtrack

open Act

variable {σ ι : Type} {τ : ι → Type} {α : Type}

/-! ## Reports -/

section Reports

variable [Describe σ]

/-- The state after the reports that each of the symbols was expected. -/
def State.expecting (s : State) (pos : Nat) (xs : List σ) : State :=
  xs.foldl (fun s x => s.reported (.expected pos (describe x))) s

/-- The state after a failure to read one of the symbols: a report of each of them, or a bare
failure if there are none. -/
def State.lacking (s : State) (pos : Nat) (xs : List σ) : State :=
  if xs.isEmpty then s.missed pos else s.expecting pos xs

theorem Act.expectEach_apply (xs : List σ) (pos : Nat) (s : State) :
    (expectEach xs pos : Act (Outcome α)) s = some (.fail pos, s.lacking pos xs) := by
  have heach (xs : List σ) (s : State) :
      (xs.forM fun x => Act.register pos (some (.expected pos (describe x)))) s =
        some ((), s.expecting pos xs) := by
    induction xs generalizing s with
    | nil => rfl
    | cons x xs ih => exact ih (s.reported (.expected pos (describe x)))
  cases xs with
  | nil => rfl
  | cons x xs => exact bind_eq_some.mpr ⟨(), _, heach (x :: xs) s, rfl⟩

end Reports

/-! ## Reading one symbol -/

variable [DecidableEq σ] [Describe σ] {env : Env σ τ} {pos q f : Nat} {s t : State} {x : σ}
  {xs : List σ}

namespace Parser

/-- A parser of one symbol finds it if it is acceptable, and else leaves the state `u`. -/
theorem comesTo_symbol {p : Parser σ τ σ} {accept : σ → Prop} {accept' : σ → Bool}
    {reject : Act (Outcome σ)} {u : State}
    (hrun : p.run env 1 pos = symbolWhere env.source pos accept' reject)
    (haccept : ∀ x, accept' x = true ↔ accept x) (hreject : reject s = some (.fail pos, u))
    {r : Outcome σ} :
    p.ComesTo env pos s r t ↔
      (∃ x w, env.source.symbolAt? pos = some (x, w) ∧ accept x ∧ r = .ok (pos + w) x ∧ t = s) ∨
        (∀ x w, env.source.symbolAt? pos = some (x, w) → ¬ accept x) ∧ r = .fail pos ∧ t = u := by
  by_cases h : ∃ x w, env.source.symbolAt? pos = some (x, w) ∧ accept x
  · obtain ⟨x, w, hx, hacc⟩ := h
    have hok : p.run env 1 pos s = some (.ok (pos + w) x, s) := by
      rw [hrun, symbolWhere, hx]
      dsimp only
      rw [if_pos ((haccept x).mpr hacc)]
      rfl
    rw [comesTo_iff_of_run hok]
    constructor
    · exact fun h => .inl ⟨x, w, hx, hacc, h⟩
    · rintro (⟨y, v, hy, -, h⟩ | ⟨hno, -⟩)
      · rw [hx] at hy
        cases hy
        exact h
      · exact absurd hacc (hno x w hx)
  · have hno : ∀ x w, env.source.symbolAt? pos = some (x, w) → ¬ accept x :=
      fun x w hx hacc => h ⟨x, w, hx, hacc⟩
    have hfail : p.run env 1 pos s = some (.fail pos, u) := by
      rw [hrun, symbolWhere]
      cases hx : env.source.symbolAt? pos with
      | none => exact hreject
      | some xw =>
        dsimp only
        rw [if_neg (mt (haccept xw.1).mp (hno xw.1 xw.2 hx))]
        exact hreject
    rw [comesTo_iff_of_run hfail]
    constructor
    · exact fun h => .inr ⟨hno, h⟩
    · rintro (⟨x, w, hx, hacc, -⟩ | ⟨-, h⟩)
      · exact absurd hacc (hno x w hx)
      · exact h

/-- What such a parser finds, if the state that it leaves does not matter. -/
theorem symbol_ok {p : Parser σ τ σ} {accept : σ → Prop} {accept' : σ → Bool}
    {reject : Act (Outcome σ)} {u : State}
    (hrun : p.run env 1 pos = symbolWhere env.source pos accept' reject)
    (haccept : ∀ x, accept' x = true ↔ accept x) (hreject : reject s = some (.fail pos, u)) :
    (∃ t, p.ComesTo env pos s (.ok q x) t) ↔
      ∃ w, env.source.symbolAt? pos = some (x, w) ∧ accept x ∧ q = pos + w := by
  simp [comesTo_symbol hrun haccept hreject]

theorem any_ok :
    (∃ t, any.ComesTo env pos s (.ok q x) t) ↔
      ∃ w, env.source.symbolAt? pos = some (x, w) ∧ True ∧ q = pos + w :=
  symbol_ok (by rw [run]) (fun _ => iff_of_true rfl trivial) (mismatch_apply pos s)

theorem noneOf_ok {set : Pattern σ} :
    (∃ t, (noneOf set).ComesTo env pos s (.ok q x) t) ↔
      ∃ w, env.source.symbolAt? pos = some (x, w) ∧ x ∉ set.toList ∧ q = pos + w := by
  have haccept (x : σ) : (!set.contains x) = true ↔ x ∉ set.toList := by
    rw [Bool.not_eq_true', ← Bool.not_eq_true, Pattern.contains_iff]
  exact symbol_ok (by rw [run]) haccept (mismatch_apply pos s)

theorem comesTo_el {y : σ} {r : Outcome σ} :
    (el y : Parser σ τ σ).ComesTo env pos s r t ↔
      (∃ x w, env.source.symbolAt? pos = some (x, w) ∧ x = y ∧ r = .ok (pos + w) x ∧ t = s) ∨
        (∀ x w, env.source.symbolAt? pos = some (x, w) → ¬ x = y) ∧ r = .fail pos ∧
          t = s.reported (.expected pos (describe y)) :=
  comesTo_symbol (by rw [run]) (fun _ => beq_iff_eq) (failWith_apply _ pos s)

theorem comesTo_oneOf {set : Pattern σ} {r : Outcome σ} :
    (oneOf set : Parser σ τ σ).ComesTo env pos s r t ↔
      (∃ x w, env.source.symbolAt? pos = some (x, w) ∧ x ∈ set.toList ∧ r = .ok (pos + w) x ∧
        t = s) ∨
      (∀ x w, env.source.symbolAt? pos = some (x, w) → x ∉ set.toList) ∧ r = .fail pos ∧
        t = s.lacking pos set.toList :=
  comesTo_symbol (by rw [run]) (fun _ => Pattern.contains_iff)
    (expectEach_apply set.toList pos s)

/-! ## Trying single symbols -/

/-- Trying single symbols finds the one that is there, if it is among them. -/
theorem tries_el_ok :
    (∃ t, Tries env pos s (xs.map el) (.ok q x) t) ↔
      ∃ w, env.source.symbolAt? pos = some (x, w) ∧ x ∈ xs ∧ q = pos + w := by
  induction xs generalizing s with
  | nil =>
    constructor
    · rintro ⟨t, ⟨⟩⟩
    · rintro ⟨w, -, ⟨⟩, -⟩
  | cons y xs ih =>
    constructor
    · rintro ⟨t, h⟩
      cases h with
      | found hrun =>
        obtain ⟨_, w, hx, rfl, h, -⟩ | ⟨-, ⟨⟩, -⟩ := comesTo_el.mp hrun
        cases h
        exact ⟨w, hx, List.mem_cons_self, rfl⟩
      | next hrun hrest =>
        obtain ⟨w, hx, hmem, rfl⟩ := ih.mp ⟨t, hrest⟩
        exact ⟨w, hx, List.mem_cons_of_mem y hmem, rfl⟩
    · rintro ⟨w, hx, hmem, rfl⟩
      by_cases hxy : x = y
      · exact ⟨s, .found (comesTo_el.mpr (.inl ⟨x, w, hx, hxy, rfl, rfl⟩))⟩
      · have hno : ∀ z v, env.source.symbolAt? pos = some (z, v) → ¬ z = y := by
          intro z v hz
          rw [hx] at hz
          cases hz
          exact hxy
        -- The report of `y` changes the state only, and `ih` is about every state.
        obtain ⟨t, hrest⟩ := ih.mpr ⟨w, hx, List.mem_of_ne_of_mem hxy hmem, rfl⟩
        exact ⟨t, .next (comesTo_el.mpr (.inr ⟨hno, rfl, rfl⟩)) hrest⟩

/-- Where none of the single symbols is there, each of them has been reported. -/
theorem tries_el_fail :
    Tries env pos s (xs.map el) (.fail f) t ↔
      (∀ x w, env.source.symbolAt? pos = some (x, w) → x ∉ xs) ∧ f = pos ∧
        t = s.expecting pos xs := by
  induction xs generalizing s with
  | nil =>
    constructor
    · intro h
      cases h
      exact ⟨fun _ _ _ => List.not_mem_nil, rfl, rfl⟩
    · rintro ⟨-, rfl, rfl⟩
      exact .none
  | cons y xs ih =>
    constructor
    · intro h
      cases h with
      | next hrun hrest =>
        obtain ⟨_, _, _, _, ⟨⟩, _⟩ | ⟨hy, -, rfl⟩ := comesTo_el.mp hrun
        obtain ⟨hno, rfl, rfl⟩ := ih.mp hrest
        refine ⟨fun x w hx hmem => ?_, rfl, rfl⟩
        obtain hxy | hmem := List.mem_cons.mp hmem
        · exact hy x w hx hxy
        · exact hno x w hx hmem
    · rintro ⟨hno, rfl, rfl⟩
      have hy : ∀ x w, env.source.symbolAt? f = some (x, w) → ¬ x = y := fun x w hx hxy =>
        hno x w hx (hxy ▸ List.mem_cons_self)
      have hxs : ∀ x w, env.source.symbolAt? f = some (x, w) → x ∉ xs := fun x w hx hmem =>
        hno x w hx (List.mem_cons_of_mem y hmem)
      exact .next (comesTo_el.mpr (.inr ⟨hy, rfl, rfl⟩)) (ih.mpr ⟨hxs, rfl, rfl⟩)

/-- A choice of no parsers fails with no report. -/
theorem comesTo_choiceOf_nil {r : Outcome α} :
    (choiceOf [] : Parser σ τ α).ComesTo env pos s r t ↔ r = .fail pos ∧ t = s.missed pos := by
  refine comesTo_iff_of_run (n := 1) ?_
  rw [choiceOf, Parsers.ofList, run]
  rfl

/-- A choice of single symbols finds the one that is there, if it is among them. -/
theorem choiceOf_el_ok :
    (∃ t, (choiceOf (xs.map el)).ComesTo env pos s (.ok q x) t) ↔
      ∃ w, env.source.symbolAt? pos = some (x, w) ∧ x ∈ xs ∧ q = pos + w := by
  cases xs with
  | nil =>
    constructor
    · rintro ⟨t, h⟩
      cases (comesTo_choiceOf_nil.mp h).1
    · rintro ⟨w, -, ⟨⟩, -⟩
  | cons y xs =>
    have hne : ((y :: xs).map el : List (Parser σ τ σ)) ≠ [] := List.cons_ne_nil _ _
    simp only [comesTo_choiceOf hne]
    exact tries_el_ok

/-- Where none of the single symbols is there, the choice of them fails as a set of them does. -/
theorem choiceOf_el_fail :
    (choiceOf (xs.map el)).ComesTo env pos s (.fail f) t ↔
      (∀ x w, env.source.symbolAt? pos = some (x, w) → x ∉ xs) ∧ f = pos ∧
        t = s.lacking pos xs := by
  cases xs with
  | nil =>
    rw [List.map_nil, comesTo_choiceOf_nil, Outcome.fail.injEq]
    exact ⟨fun h => ⟨fun _ _ _ => List.not_mem_nil, h⟩, And.right⟩
  | cons y xs =>
    have hne : ((y :: xs).map el : List (Parser σ τ σ)) ≠ [] := List.cons_ne_nil _ _
    rw [comesTo_choiceOf hne]
    exact tries_el_fail

/-! ## Sets -/

/-- A set of symbols succeeds where the choice of its symbols does, and where they fail they leave
the same state: each symbol has been reported in order, or a bare failure if there are none. What is
in the set is what is found by asking for its symbols one by one. The complement of the set takes
the symbols that are there and that the set does not take. -/
theorem oneOf_iff_choice (env : Env σ τ) (set : Pattern σ) (pos : Nat) (s : State) :
    ((∀ i, set.nth? i = set.toList[i]?) ∧
      ∀ x, set.contains x = true ↔ ∃ i, set.nth? i = some x) ∧
    (∃ r t, (oneOf set).ComesTo env pos s r t) ∧
    (∀ q x, (∃ t, (oneOf set).ComesTo env pos s (.ok q x) t) ↔
      ∃ t, (choiceOf (set.toList.map el)).ComesTo env pos s (.ok q x) t) ∧
    (∀ f t, ((oneOf set).ComesTo env pos s (.fail f) t ↔
      (choiceOf (set.toList.map el)).ComesTo env pos s (.fail f) t) ∧
      ((oneOf set).ComesTo env pos s (.fail f) t → f = pos ∧ t = s.lacking pos set.toList)) ∧
    ∀ q x, (∃ t, (noneOf set).ComesTo env pos s (.ok q x) t) ↔
      (∃ t, any.ComesTo env pos s (.ok q x) t) ∧
        ∃ f t, (oneOf set).ComesTo env pos s (.fail f) t := by
  have hok (q : Nat) (x : σ) : (∃ t, (oneOf set).ComesTo env pos s (.ok q x) t) ↔
      ∃ w, env.source.symbolAt? pos = some (x, w) ∧ x ∈ set.toList ∧ q = pos + w :=
    symbol_ok (by rw [run]) (fun _ => Pattern.contains_iff) (expectEach_apply _ pos s)
  have hfail (f : Nat) (t : State) : (oneOf set).ComesTo env pos s (.fail f) t ↔
      (∀ x w, env.source.symbolAt? pos = some (x, w) → x ∉ set.toList) ∧ f = pos ∧
        t = s.lacking pos set.toList := by
    simp [comesTo_oneOf]
  refine ⟨⟨set.nth?_eq, fun x => ?_⟩, ?_, fun q x => (hok q x).trans choiceOf_el_ok.symm,
    fun f t => ⟨(hfail f t).trans choiceOf_el_fail.symm, fun h => ((hfail f t).mp h).2⟩,
    fun q x => ?_⟩
  · rw [Pattern.contains_iff, List.mem_iff_getElem?]
    simp only [set.nth?_eq]
  · by_cases h : ∃ x w, env.source.symbolAt? pos = some (x, w) ∧ x ∈ set.toList
    · obtain ⟨x, w, hx, hmem⟩ := h
      exact ⟨_, s, comesTo_oneOf.mpr (.inl ⟨x, w, hx, hmem, rfl, rfl⟩)⟩
    · exact ⟨_, _, (hfail pos _).mpr ⟨fun x w hx hmem => h ⟨x, w, hx, hmem⟩, rfl, rfl⟩⟩
  · rw [noneOf_ok, any_ok]
    constructor
    · rintro ⟨w, hx, hno, rfl⟩
      refine ⟨⟨w, hx, trivial, rfl⟩, pos, _, (hfail pos _).mpr ⟨fun y v hy => ?_, rfl, rfl⟩⟩
      rw [hx] at hy
      cases hy
      exact hno
    · rintro ⟨⟨w, hx, -, rfl⟩, f, u, h⟩
      exact ⟨w, hx, ((hfail f u).mp h).1 x w hx, rfl⟩

end Parser

end Backtrack
