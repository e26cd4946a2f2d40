import Backtrack.Proofs.ComesTo
import Backtrack.Proofs.LibraryBuilt

/-!
# Bounded repetition

A repetition makes runs that succeed, each ahead of the one before (`Parser.Advances`). It stops
when there were as many as its limit allows, or else after one more run that fails or does not
advance (`Parser.repeats_iff_advances`). So what the runs find does not depend on the limit, only
how many of them there are: with bounds, a repetition keeps the first successes of the one without
(`Parser.many_bounded`). At its limit it does not try the parser again.
-/

namespace Backtrack

variable {σ ι : Type} {τ : ι → Type} {α β ν : Type}

/-- What a run of a repeated parser has found: the value, where it ended, and the state it left. -/
structure Success (α : Type) where
  value : α
  stop : Nat
  state : State

namespace Success

/-- Where the last of some successes ended, or else where they were to start. -/
def stopAfter (pos : Nat) : List (Success α) → Nat
  | [] => pos
  | x :: xs => stopAfter x.stop xs

/-- The state that the last of some successes left, or else the one they were to start from. -/
def stateAfter (s : State) : List (Success α) → State
  | [] => s
  | x :: xs => stateAfter x.state xs

@[simp] theorem stopAfter_nil (pos : Nat) : stopAfter pos ([] : List (Success α)) = pos := rfl

@[simp] theorem stopAfter_cons (pos : Nat) (x : Success α) (xs : List (Success α)) :
    stopAfter pos (x :: xs) = stopAfter x.stop xs := rfl

@[simp] theorem stateAfter_nil (s : State) : stateAfter s ([] : List (Success α)) = s := rfl

@[simp] theorem stateAfter_cons (s : State) (x : Success α) (xs : List (Success α)) :
    stateAfter s (x :: xs) = stateAfter x.state xs := rfl

end Success

open Act Success

/-- How many of `n` successes a repetition with these bounds makes. -/
def Bounds.counted (bounds : Bounds) (n : Nat) : Nat :=
  match bounds.max with
  | some max => Min.min n max
  | none => n

theorem Bounds.counted_le (bounds : Bounds) (n : Nat) : bounds.counted n ≤ n := by
  unfold counted
  split
  · exact Nat.min_le_left _ _
  · exact Nat.le_refl n

/-- A limit that is not reached lies beyond all successes. -/
theorem Bounds.counted_of_ne {bounds : Bounds} {n : Nat}
    (h : bounds.max ≠ some (bounds.counted n)) :
    bounds.counted n = n ∧ ∀ k, bounds.max = some k → n < k := by
  unfold counted at *
  cases hmax : bounds.max with
  | none => simp
  | some max =>
    simp only [hmax, ne_eq, Option.some.injEq] at h
    have hlt : n < max := by omega
    refine ⟨Nat.min_eq_left (Nat.le_of_lt hlt), ?_⟩
    intro k hk
    cases hk
    exact hlt

namespace Parser

variable [BEq σ] [Describe σ] {env : Env σ τ} {p : Parser σ τ α} {pos e : Nat}
  {s t : State} {limit : Option Nat} {as : List α} {xs : List (Success α)}

/-- One after another, from `pos` and `s`, runs of the parser find `xs`, each ahead of the one
before. -/
inductive Advances (env : Env σ τ) (p : Parser σ τ α) : Nat → State → List (Success α) → Prop where
  | nil {pos : Nat} {s : State} : Advances env p pos s []
  | cons {pos : Nat} {s : State} {x : Success α} {xs : List (Success α)}
    (hrun : p.ComesTo env pos s (.ok x.stop x.value) x.state) (hlt : pos < x.stop)
    (hrest : Advances env p x.stop x.state xs) : Advances env p pos s (x :: xs)

theorem Advances.take (h : p.Advances env pos s xs) (m : Nat) :
    p.Advances env pos s (xs.take m) := by
  induction h generalizing m with
  | nil => simpa using nil
  | cons hrun hlt _ ih =>
    cases m with
    | zero => exact nil
    | succ m => exact cons hrun hlt (ih m)

/-- The last success is that of a run of the parser, and the others end before it. -/
theorem Advances.last (h : p.Advances env pos s xs) :
    xs = [] ∨ ∃ x q u, xs.getLast? = some x ∧ p.ComesTo env q u (.ok x.stop x.value) x.state ∧
      stopAfter pos xs = x.stop := by
  induction h with
  | nil => exact .inl rfl
  | @cons pos s x xs hrun _ _ ih =>
    rcases ih with rfl | ⟨y, q, u, hlast, hy, hstop⟩
    · exact .inr ⟨x, pos, s, rfl, hrun, rfl⟩
    · refine .inr ⟨y, q, u, ?_, hy, hstop⟩
      rw [List.getLast?_cons, hlast]
      rfl

theorem Advances.le (h : p.Advances env pos s xs) : pos ≤ stopAfter pos xs := by
  induction h with
  | nil => exact Nat.le_refl _
  | cons _ hlt _ ih => exact Nat.le_trans (Nat.le_of_lt hlt) ih

/-- What a repetition ends with: its limit is reached, or a last run ends it. -/
def Ends (env : Env σ τ) (p : Parser σ τ α) (limit : Option Nat) (pos : Nat) (s : State)
    (xs : List (Success α)) (t : State) : Prop :=
  (limit = some xs.length ∧ t = stateAfter s xs) ∨
    (∀ k, limit = some k → xs.length < k) ∧ p.Stuck env (stopAfter pos xs) (stateAfter s xs) t

/-- One success more, and one more that is allowed. -/
theorem ends_cons {x : Success α} (hlimit : limit ≠ some 0) :
    p.Ends env limit pos s (x :: xs) t ↔
      p.Ends env (limit.map (· - 1)) x.stop x.state xs t := by
  unfold Ends
  cases limit with
  | none => simp
  | some k =>
    have hk : k ≠ 0 := fun h => hlimit (by rw [h])
    have hreached : k = xs.length + 1 ↔ k - 1 = xs.length := by omega
    have hopen : xs.length + 1 < k ↔ xs.length < k - 1 := by omega
    simp [hreached, hopen]

/-- A repetition is a list of successes and an end. -/
theorem repeats_iff_advances :
    p.Repeats env limit pos s as e t ↔
      ∃ xs, p.Advances env pos s xs ∧ p.Ends env limit pos s xs t ∧
        as = xs.map (·.value) ∧ e = stopAfter pos xs := by
  constructor
  · intro h
    induction as generalizing limit pos s with
    | nil =>
      rw [repeats_iff] at h
      rcases h with ⟨hlimit, -, rfl, rfl⟩ | ⟨hlimit, -, rfl, hstuck⟩ | ⟨-, q, a, u, as', -, -, -, h⟩
      · exact ⟨[], .nil, .inl ⟨hlimit, rfl⟩, rfl, rfl⟩
      · have hopen : ∀ k, limit = some k → ([] : List (Success α)).length < k := by
          intro k hk
          exact Nat.pos_of_ne_zero fun h => hlimit (by rw [hk, h])
        exact ⟨[], .nil, .inr ⟨hopen, hstuck⟩, rfl, rfl⟩
      · cases h
    | cons a as ih =>
      rw [repeats_iff] at h
      rcases h with ⟨-, h, -⟩ | ⟨-, h, -⟩ | ⟨hlimit, q, a', u, as', hp, hq, hrest, h⟩
      · cases h
      · cases h
      · cases h
        obtain ⟨xs, hxs, hends, rfl, rfl⟩ := ih hrest
        exact ⟨⟨a, q, u⟩ :: xs, .cons hp hq hxs, (ends_cons hlimit).mpr hends, rfl, rfl⟩
  · rintro ⟨xs, hxs, hends, rfl, rfl⟩
    induction hxs generalizing limit with
    | nil =>
      rw [repeats_iff]
      rcases hends with ⟨hlimit, ht⟩ | ⟨hopen, hstuck⟩
      · exact .inl ⟨hlimit, rfl, rfl, ht⟩
      · have hlimit : limit ≠ some 0 := fun h => Nat.lt_irrefl 0 (hopen 0 h)
        exact .inr (.inl ⟨hlimit, rfl, rfl, hstuck⟩)
    | @cons pos s x xs hrun hlt hrest ih =>
      have hlimit : limit ≠ some 0 := by
        rintro rfl
        rcases hends with ⟨h, -⟩ | ⟨h, -⟩
        · cases h
        · exact Nat.not_lt_zero _ (h 0 rfl)
      rw [repeats_iff]
      have hxs := ih ((ends_cons hlimit).mp hends)
      exact .inr (.inr ⟨hlimit, x.stop, x.value, x.state, _, hrun, hlt, hxs, rfl⟩)

/-- A repetition does not fall behind its start. -/
theorem Repeats.le (h : p.Repeats env limit pos s as e t) : pos ≤ e := by
  obtain ⟨xs, hxs, -, -, rfl⟩ := repeats_iff_advances.mp h
  exact hxs.le

/-- A repetition with bounds counts as many successes as its limit allows, and fails if there are
too few. -/
theorem repeats_counted (hxs : p.Advances env pos s xs)
    (hstuck : p.Stuck env (stopAfter pos xs) (stateAfter s xs) t) (bounds : Bounds) :
    p.Repeats env bounds.max pos s ((xs.take (bounds.counted xs.length)).map (·.value))
      (stopAfter pos (xs.take (bounds.counted xs.length)))
      (if bounds.max = some (bounds.counted xs.length) then
        stateAfter s (xs.take (bounds.counted xs.length)) else t) := by
  have hlength : (xs.take (bounds.counted xs.length)).length = bounds.counted xs.length :=
    List.length_take_of_le (bounds.counted_le xs.length)
  refine repeats_iff_advances.mpr ⟨_, hxs.take _, ?_, rfl, rfl⟩
  by_cases h : bounds.max = some (bounds.counted xs.length)
  · rw [if_pos h]
    exact .inl ⟨by rw [hlength]; exact h, rfl⟩
  · rw [if_neg h]
    obtain ⟨hall, hopen⟩ := Bounds.counted_of_ne h
    rw [hall, List.take_length]
    exact .inr ⟨hopen, hstuck⟩

/-- What repetition and folding make of the values that the loop finds. -/
theorem comesTo_of_repeats {bounds : Bounds} (h : p.Repeats env bounds.max pos s as e t) :
    (bounds.min ≤ as.length → (p.many bounds).ComesTo env pos s (.ok e as) t ∧
      ∀ {β : Type} (init : β) (f : β → α → β),
        (p.manyAccum init f bounds).ComesTo env pos s (.ok e (as.foldl f init)) t) ∧
    (as.length < bounds.min → (p.many bounds).ComesTo env pos s (.fail e) (t.missed e) ∧
      ∀ {β : Type} (init : β) (f : β → α → β),
        (p.manyAccum init f bounds).ComesTo env pos s (.fail e) (t.missed e)) := by
  refine ⟨fun hmin => ⟨?_, fun init f => ?_⟩, fun hmin => ⟨?_, fun init f => ?_⟩⟩
  · exact comesTo_many.mpr ⟨as, e, t, h, atLeast_eq_some.mpr (.inl ⟨hmin, rfl, rfl⟩)⟩
  · exact comesTo_manyAccum.mpr ⟨as, e, t, h, atLeast_eq_some.mpr (.inl ⟨hmin, rfl, rfl⟩)⟩
  · exact comesTo_many.mpr ⟨as, e, t, h, atLeast_eq_some.mpr (.inr ⟨hmin, rfl, rfl⟩)⟩
  · exact comesTo_manyAccum.mpr ⟨as, e, t, h, atLeast_eq_some.mpr (.inr ⟨hmin, rfl, rfl⟩)⟩

/-- In a block, the values of the loop are the value of the step, which does not abort. -/
theorem exec_collect_of_repeats (h : p.Repeats env none pos s as e t) (v : ν) :
    ∃ n, (Block.collect p).exec (fun p q => p.run env n q) env.source env.config n pos v s =
      some ((.ok as, e, v), t) := by
  obtain ⟨n, hn⟩ := h
  refine ⟨n, ?_⟩
  rw [Block.collect, Block.exec]
  exact bind_eq_some.mpr ⟨(as, e), t, hn, rfl⟩

/-- Repetition with bounds keeps the first successes of the repetition without, as many as its limit
allows. If there were too few, it fails where it stopped. At its limit it does not try the parser
again, and leaves the state of the last success. A fold does the same with the values folded, and a
block that repeats the parser does what the repetition without bounds does. -/
theorem many_bounded :
    (∀ {r : Outcome (List α)} {t : State}, (p.many {}).ComesTo env pos s r t →
      ∃ xs : List (Success α),
      p.Advances env pos s xs ∧ p.Stuck env (stopAfter pos xs) (stateAfter s xs) t ∧
      r = .ok (stopAfter pos xs) (xs.map (·.value)) ∧
      (∀ bounds : Bounds,
        let m := bounds.counted xs.length
        let as := (xs.take m).map (·.value)
        let e := stopAfter pos (xs.take m)
        let u := if bounds.max = some m then stateAfter s (xs.take m) else t
        (bounds.min ≤ m → (p.many bounds).ComesTo env pos s (.ok e as) u ∧
          ∀ {β : Type} (init : β) (f : β → α → β),
            (p.manyAccum init f bounds).ComesTo env pos s (.ok e (as.foldl f init)) u) ∧
        (m < bounds.min → (p.many bounds).ComesTo env pos s (.fail e) (u.missed e) ∧
          ∀ {β : Type} (init : β) (f : β → α → β),
            (p.manyAccum init f bounds).ComesTo env pos s (.fail e) (u.missed e))) ∧
      ∀ {ν : Type} (v : ν), ∃ n, (Block.collect p).exec (fun p q => p.run env n q) env.source
        env.config n pos v s = some ((.ok (xs.map (·.value)), stopAfter pos xs, v), t)) ∧
    ∀ {xs : List (Success α)}, p.Advances env pos s xs → ∀ min ≤ xs.length,
      (p.many { min, max := some xs.length }).ComesTo env pos s
        (.ok (stopAfter pos xs) (xs.map (·.value))) (stateAfter s xs) := by
  refine ⟨fun {r t} hmany => ?_, fun {xs} hxs min hmin => ?_⟩
  · obtain ⟨as, e, u, hloop, hleast⟩ := comesTo_many.mp hmany
    obtain ⟨xs, hxs, hends, rfl, rfl⟩ := repeats_iff_advances.mp hloop
    -- Without a lower bound there are never too few, and without a limit a last run ends it.
    obtain ⟨-, rfl, rfl⟩ | ⟨hfew, -⟩ := atLeast_eq_some.mp hleast
    · obtain ⟨hlimit, -⟩ | ⟨-, hstuck⟩ := hends
      · cases hlimit
      · refine ⟨xs, hxs, hstuck, rfl, fun bounds => ?_, exec_collect_of_repeats hloop⟩
        have hlength : ((xs.take (bounds.counted xs.length)).map (·.value)).length =
            bounds.counted xs.length := by
          rw [List.length_map, List.length_take_of_le (bounds.counted_le xs.length)]
        have hcounted := comesTo_of_repeats (repeats_counted hxs hstuck bounds)
        rw [hlength] at hcounted
        exact hcounted
    · exact absurd hfew (Nat.not_lt_zero _)
  · have hends : p.Ends env (some xs.length) pos s xs (stateAfter s xs) := .inl ⟨rfl, rfl⟩
    have hloop := repeats_iff_advances.mpr ⟨xs, hxs, hends, rfl, rfl⟩
    have hleast : min ≤ (xs.map (·.value)).length := by simpa using hmin
    let bounds : Bounds := { min, max := some xs.length }
    have hkept := comesTo_of_repeats (show p.Repeats env bounds.max pos s _ _ _ from hloop)
    exact (hkept.1 hleast).1

/-- Two letters, of which one is enough, and three are too many to ask for. -/
theorem many_bounded_letters :
    let env := Env.bare (.text ['x', 'x', 'y'])
    let p : Parser Char (Empty.elim : Empty → Type) Char := .el 'x'
    let t : State := {
      sink := .reached 2 [.expected 2 "'x'"], entries := [⟨2, some (.expected 2 "'x'")⟩] }
    (p.many {}).ComesTo env 0 {} (.ok 2 ['x', 'x']) t ∧
      (∃ u, (p.many { min := 1, max := some 1 }).ComesTo env 0 {} (.ok 1 ['x']) u) ∧
      (p.manyAccum 0 (fun n _ => n + 1) { max := some 3 }).ComesTo env 0 {} (.ok 2 2) t ∧
      (p.many { min := 3 }).ComesTo env 0 {} (.fail 2) (t.missed 2) ∧
      ∃ xs : List (Success Char), p.Advances env 0 {} xs ∧ 2 ≤ xs.length ∧
        (p.many { min := 2, max := some xs.length }).ComesTo env 0 {} (.ok 2 ['x', 'x'])
          (stateAfter {} xs) := by
  intro env p t
  have hmany : (p.many {}).ComesTo env 0 {} (.ok 2 ['x', 'x']) t := ⟨4, rfl⟩
  obtain ⟨xs, hxs, -, hr, hbounds, -⟩ := many_bounded.1 hmany
  rcases xs with _ | ⟨x, _ | ⟨y, _ | ⟨z, xs⟩⟩⟩ <;> simp at hr
  obtain ⟨hstop, hx, hy⟩ := hr
  have hone : x.stop = 1 := by
    cases hxs with
    | cons _ hlt hrest =>
      cases hrest with
      | cons _ hlt' _ => omega
  refine ⟨hmany, ⟨x.state, ?_⟩, ?_, ?_, [x, y], hxs, Nat.le_refl 2, ?_⟩
  · simpa [Bounds.counted, hone, ← hx] using
      ((hbounds { min := 1, max := some 1 }).1 (Nat.le_refl 1)).1
  · simpa [Bounds.counted, ← hstop] using
      ((hbounds { max := some 3 }).1 (Nat.zero_le 2)).2 0 fun n _ => n + 1
  · simpa [Bounds.counted, ← hstop] using ((hbounds { min := 3 }).2 (Nat.lt_succ_self 2)).1
  · simpa [← hstop, ← hx, ← hy] using many_bounded.2 hxs 2 (Nat.le_refl 2)

end Parser

end Backtrack
