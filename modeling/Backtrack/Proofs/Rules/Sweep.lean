import Backtrack.RuleStore
import Mathlib.Data.Fintype.Card
import Mathlib.Data.Fintype.EquivFin
import Mathlib.Logic.Relation

/-!
# What a sweep removes

A rule is lost (`Lost`) if it has no owner outside, and every rule whose definition owns it is lost
as well. This is a least fixpoint: rules that own each other in a circle are not lost.

- **Lost rules**: those to which nothing leads, neither from an owner outside nor from a circle
  (`not_lost_iff`).
- **One round** (`RuleStore.prune`) removes rules that nothing owns, and so only lost ones; which
  rules are lost is the same before and behind it (`RuleStore.lost_prune`).
- **A sweep** makes as many rounds as there are rules. Each one removes a rule or changes nothing,
  so that there is nothing left to do in the end (`RuleStore.prune_sweep`). What is removed is what
  was lost (`RuleStore.cell?_sweep_of_lost`, `RuleStore.cell?_sweep_of_not_lost`).
-/

namespace Backtrack

universe u

open Relation

/-! ## Lost rules -/

/-- Nothing holds the rule: it has no owner outside, and every rule that owns it is lost. -/
inductive Lost (outside : Nat → Nat) (owns : Nat → Nat → Prop) : Nat → Prop where
  | intro {i : Nat} (houtside : outside i = 0) (howners : ∀ j, owns j i → Lost outside owns j) :
    Lost outside owns i

section Lost

variable {outside outside' : Nat → Nat} {owns owns' : Nat → Nat → Prop} {i j : Nat}

theorem lost_iff :
    Lost outside owns i ↔ outside i = 0 ∧ ∀ j, owns j i → Lost outside owns j := by
  constructor
  · rintro ⟨houtside, howners⟩
    exact ⟨houtside, howners⟩
  · rintro ⟨houtside, howners⟩
    exact .intro houtside howners

/-- With fewer owners, more rules are lost. -/
theorem Lost.mono (h : Lost outside owns i) (houtside : ∀ j, outside j = 0 → outside' j = 0)
    (howns : ∀ j k, owns' j k → owns j k) : Lost outside' owns' i := by
  induction h with
  | intro hi _ ih => exact .intro (houtside _ hi) fun j hj => ih j (howns j _ hj)

/-- What leads to a lost rule is lost. -/
theorem Lost.of_reflTransGen (h : Lost outside owns i) (hj : ReflTransGen owns j i) :
    Lost outside owns j := by
  induction hj using ReflTransGen.head_induction_on with
  | refl => exact h
  | head hjk _ ih => exact (lost_iff.mp ih).2 _ hjk

/-- A rule that leads to itself is not lost. -/
theorem Lost.not_transGen (h : Lost outside owns i) : ¬ TransGen owns i i := by
  induction h with
  | @intro i _ _ ih =>
    intro hcircle
    obtain ⟨k, hik, hki⟩ := TransGen.tail'_iff.mp hcircle
    exact ih k hki (.head' hki hik)

/-- Among finitely many rules, one is not lost when an owner outside leads to it, or a circle. -/
theorem not_lost_iff {n : Nat} (hfinite : ∀ j k, owns j k → j < n) :
    ¬ Lost outside owns i ↔
      ∃ j, ReflTransGen owns j i ∧ (0 < outside j ∨ TransGen owns j j) := by
  constructor
  · intro hlost
    by_contra hnone
    have hfree : ∀ j, ReflTransGen owns j i → outside j = 0 ∧ ¬ TransGen owns j j := by
      intro j hj
      refine ⟨Nat.eq_zero_of_not_pos fun h => hnone ⟨j, hj, .inl h⟩, fun h => hnone ⟨j, hj, .inr h⟩⟩
    -- What leads to the rule is finite and without circles, so that there is a first of it.
    let Before := { j : Nat // j < n ∧ ReflTransGen owns j i }
    have : Finite Before := Finite.of_injective (fun j => (⟨j.1, j.2.1⟩ : Fin n)) fun j k h =>
      Subtype.ext (Fin.mk.inj h)
    have : IsTrans Before fun j k => TransGen owns j.1 k.1 := ⟨fun _ _ _ => TransGen.trans⟩
    have : Std.Irrefl fun j k : Before => TransGen owns j.1 k.1 := ⟨fun j => (hfree j.1 j.2.2).2⟩
    have hwf : WellFounded fun j k : Before => TransGen owns j.1 k.1 :=
      Finite.wellFounded_of_trans_of_irrefl _
    have hbefore : ∀ j : Before, Lost outside owns j.1 := by
      intro j
      induction j using hwf.induction with
      | _ j ih =>
        refine .intro (hfree j.1 j.2.2).1 fun k hk => ?_
        exact ih ⟨k, hfinite k _ hk, .head hk j.2.2⟩ (.single hk)
    refine hlost (.intro (hfree i .refl).1 fun j hj => ?_)
    exact hbefore ⟨j, hfinite j i hj, .single hj⟩
  · rintro ⟨j, hj, hheld⟩ hlost
    have hlost := hlost.of_reflTransGen hj
    rcases hheld with houtside | hcircle
    · exact Nat.ne_of_gt houtside (lost_iff.mp hlost).1
    · exact hlost.not_transGen hcircle

end Lost

/-- What is repeated until nothing changes has come to an end after as many times as a measure
allows that each change makes smaller. -/
theorem repeat_stable {α : Type u} {f : α → α} (size : α → Nat)
    (h : ∀ x, f x = x ∨ size (f x) < size x) {n : Nat} {x : α} (hn : size x ≤ n) :
    f (Nat.repeat f n x) = Nat.repeat f n x := by
  -- Every time so far has made the measure smaller, unless nothing changes any more.
  have hdone : ∀ m, f (Nat.repeat f m x) = Nat.repeat f m x ∨
      size (Nat.repeat f m x) + m ≤ size x := by
    intro m
    induction m with
    | zero => exact .inr (Nat.le_refl _)
    | succ m ih =>
      rw [Nat.repeat]
      rcases ih with ih | ih
      · exact .inl (by rw [ih, ih])
      · rcases h (Nat.repeat f m x) with hstay | hless
        · exact .inl (by rw [hstay, hstay])
        · exact .inr (by omega)
  rcases hdone n with hstay | hsize
  · exact hstay
  · exact (h _).resolve_right (by omega)

namespace RuleStore

variable {δ : Nat → Type u} {store : RuleStore δ} {i j : Nat} {c : Cell (δ i)}

/-! ## The owners of a store -/

/-- The number of owners of a rule outside of all definitions. -/
def outside (store : RuleStore δ) (i : Nat) : Nat :=
  match store.cell? i with
  | some c => c.owners
  | none => 0

/-- The definition of the rule `j` owns the rule `i`. -/
def Owns (store : RuleStore δ) (j i : Nat) : Prop :=
  ∃ d, store.definition? j = some d ∧ i ∈ d.owns

theorem outside_of_cell? (h : store.cell? i = some c) : store.outside i = c.owners := by
  rw [outside, h]

theorem outside_of_none (h : store.cell? i = none) : store.outside i = 0 := by
  rw [outside, h]

theorem definition?_of_cell? (h : store.cell? i = some c) : store.definition? i = c.definition := by
  rw [definition?, h]

theorem definition?_of_none (h : store.cell? i = none) : store.definition? i = none := by
  rw [definition?, h]

/-- A rule that exists was created. -/
theorem lt_of_cell? (h : store.cell? i = some c) : i < store.created := by
  rw [cell?] at h
  split at h
  next hi => exact hi
  next => cases h

/-- A definition that owns something is one of a rule that exists. -/
theorem Owns.exists_cell (h : store.Owns j i) : ∃ c, store.cell? j = some c := by
  obtain ⟨d, hd, -⟩ := h
  cases hc : store.cell? j with
  | some c => exact ⟨c, rfl⟩
  | none =>
    rw [definition?_of_none hc] at hd
    cases hd

theorem cell?_val (i : Fin store.created) : store.cell? i = store.cells i :=
  dif_pos i.isLt

theorem mem_owned : i ∈ store.owned ↔ ∃ j, store.Owns j i := by
  rw [owned, List.mem_flatMap]
  constructor
  · rintro ⟨j, -, hi⟩
    rw [← cell?_val] at hi
    cases hc : store.cell? j.val with
    | none =>
      rw [hc] at hi
      cases hi
    | some c =>
      rw [hc] at hi
      obtain ⟨_ | d, n⟩ := c
      · cases hi
      · exact ⟨j, d, definition?_of_cell? hc, hi⟩
  · rintro ⟨j, howns⟩
    obtain ⟨c, hc⟩ := howns.exists_cell
    obtain ⟨d, hd, hi⟩ := howns
    rw [definition?_of_cell? hc] at hd
    obtain ⟨_, n⟩ := c
    subst hd
    refine ⟨⟨j, lt_of_cell? hc⟩, List.mem_finRange _, ?_⟩
    rw [← cell?_val, hc]
    exact hi

/-- The rules that are lost to the store, as far as it keeps owners. -/
def Lost (store : RuleStore δ) : Nat → Prop := Backtrack.Lost store.outside store.Owns

/-! ## One round -/

theorem cell?_prune :
    store.prune.cell? i =
      (store.cell? i).filter fun c => 0 < c.owners || store.owned.contains i := by
  by_cases hi : i < store.created
  · rw [cell?, cell?, dif_pos hi]
    exact dif_pos hi
  · rw [cell?, cell?, dif_neg hi]
    exact dif_neg hi

/-- What is left after a round was there before. -/
theorem cell?_of_prune (h : store.prune.cell? i = some c) : store.cell? i = some c := by
  rw [cell?_prune] at h
  exact (Option.filter_eq_some_iff.mp h).1

theorem Owns.of_prune (h : store.prune.Owns j i) : store.Owns j i := by
  obtain ⟨c, hc⟩ := h.exists_cell
  obtain ⟨d, hd, hi⟩ := h
  refine ⟨d, ?_, hi⟩
  rwa [definition?_of_cell? (cell?_of_prune hc), ← definition?_of_cell? hc]

theorem Owns.prune {c : Cell (δ j)} (h : store.Owns j i) (hc : store.prune.cell? j = some c) :
    store.prune.Owns j i := by
  obtain ⟨d, hd, hi⟩ := h
  refine ⟨d, ?_, hi⟩
  rwa [definition?_of_cell? hc, ← definition?_of_cell? (cell?_of_prune hc)]

/-- A round leaves out what nothing owns. -/
theorem cell?_prune_of_unowned (houtside : store.outside i = 0) (howners : ∀ j, ¬ store.Owns j i) :
    store.prune.cell? i = none := by
  have howned : i ∉ store.owned := fun h => (mem_owned.mp h).elim howners
  rw [cell?_prune]
  cases hc : store.cell? i with
  | none => rfl
  | some c =>
    rw [outside_of_cell? hc] at houtside
    simp [houtside, howned]

/-- A round leaves out nothing else. -/
theorem cell?_prune_of_owned (h : 0 < store.outside i ∨ ∃ j, store.Owns j i) :
    store.prune.cell? i = store.cell? i := by
  rw [← mem_owned] at h
  rw [cell?_prune]
  cases hc : store.cell? i with
  | none => rfl
  | some c =>
    rw [outside_of_cell? hc] at h
    rcases h with h | h <;> simp [h]

/-- What a round leaves out has no owners, and is lost. -/
theorem lost_of_prune (h : store.prune.cell? i = none) (hc : store.cell? i = some c) :
    store.Lost i := by
  by_contra hlost
  have howned : 0 < store.outside i ∨ ∃ j, store.Owns j i := by
    by_contra hno
    refine hlost (.intro (Nat.eq_zero_of_not_pos fun h => hno (.inl h)) fun j hj => ?_)
    exact (hno (.inr ⟨j, hj⟩)).elim
  rw [cell?_prune_of_owned howned, hc] at h
  cases h

/-- A round changes nothing about which rules are lost. -/
theorem lost_prune : store.prune.Lost i ↔ store.Lost i := by
  constructor
  · intro h
    induction h with
    | @intro i houtside _ ih =>
      have howners : ∀ j, store.Owns j i → store.Lost j := by
        intro j hj
        obtain ⟨c, hc⟩ := hj.exists_cell
        cases hprune : store.prune.cell? j with
        | none => exact lost_of_prune hprune hc
        | some c' => exact ih j (hj.prune hprune)
      cases hc : store.cell? i with
      | none => exact .intro (outside_of_none hc) howners
      | some c =>
        cases hprune : store.prune.cell? i with
        | none => exact lost_of_prune hprune hc
        | some c' =>
          rw [outside_of_cell? hprune, ← outside_of_cell? (cell?_of_prune hprune)] at houtside
          exact .intro houtside howners
  · intro h
    refine Lost.mono h (fun j hj => ?_) fun j k hk => hk.of_prune
    cases hc : store.prune.cell? j with
    | none => exact outside_of_none hc
    | some c => rw [outside_of_cell? hc, ← hj, outside_of_cell? (cell?_of_prune hc)]

/-! ## All rounds -/

/-- Stores with the same rules are equal. -/
theorem ext_cell? {store store' : RuleStore δ} (hcreated : store.created = store'.created)
    (hcell : ∀ i, store.cell? i = store'.cell? i) : store = store' := by
  obtain ⟨n, cells⟩ := store
  obtain ⟨n', cells'⟩ := store'
  obtain rfl : n = n' := hcreated
  refine congrArg (RuleStore.mk n) (funext fun i => ?_)
  have hi := hcell i
  rwa [cell?, cell?, dif_pos i.isLt, dif_pos i.isLt] at hi

/-- The rules that exist. -/
def alive (store : RuleStore δ) : Finset Nat :=
  (Finset.range store.created).filter (store.isAlive · = true)

theorem card_alive_le (store : RuleStore δ) : store.alive.card ≤ store.created :=
  (Finset.card_filter_le _ _).trans_eq (Finset.card_range _)

theorem mem_alive : i ∈ store.alive ↔ ∃ c, store.cell? i = some c := by
  rw [alive, Finset.mem_filter, isAlive, Option.isSome_iff_exists, and_iff_right_iff_imp]
  rintro ⟨c, hc⟩
  exact Finset.mem_range.mpr (lt_of_cell? hc)

/-- A round that changes something removes a rule, and adds none. -/
theorem prune_eq_or_card_lt (store : RuleStore δ) :
    store.prune = store ∨ store.prune.alive.card < store.alive.card := by
  by_cases hsame : ∀ i, store.prune.cell? i = store.cell? i
  · exact .inl (ext_cell? rfl hsame)
  · obtain ⟨i, hi⟩ := not_forall.mp hsame
    have hgone : store.prune.cell? i = none := by
      cases hprune : store.prune.cell? i with
      | none => rfl
      | some c => exact (hi (hprune.trans (cell?_of_prune hprune).symm)).elim
    have hsubset : store.prune.alive ⊆ store.alive := by
      intro j hj
      obtain ⟨c, hc⟩ := mem_alive.mp hj
      exact mem_alive.mpr ⟨c, cell?_of_prune hc⟩
    refine .inr (Finset.card_lt_card ((Finset.ssubset_iff_of_subset hsubset).mpr ⟨i, ?_, ?_⟩))
    · rw [hgone] at hi
      exact mem_alive.mpr (Option.ne_none_iff_exists'.mp (Ne.symm hi))
    · rw [mem_alive, hgone]
      rintro ⟨c, hc⟩
      cases hc

/-- After a sweep there is nothing left to remove. -/
theorem prune_sweep (store : RuleStore δ) : store.sweep.prune = store.sweep :=
  repeat_stable (·.alive.card) prune_eq_or_card_lt store.card_alive_le

/-- What rounds keep, a sweep keeps. -/
theorem sweep_induction {P : RuleStore δ → Prop} (h : P store) (hprune : ∀ s, P s → P s.prune) :
    P store.sweep := by
  have hrounds : ∀ n, P (Nat.repeat prune n store) := by
    intro n
    induction n with
    | zero => exact h
    | succ n ih => exact hprune _ ih
  exact hrounds _

theorem created_sweep (store : RuleStore δ) : store.sweep.created = store.created :=
  sweep_induction (P := fun s => s.created = store.created) rfl fun _ hs => hs

/-- What is lost is swept away. -/
theorem cell?_sweep_of_lost (h : store.Lost i) : store.sweep.cell? i = none := by
  have hlost : store.sweep.Lost i :=
    sweep_induction (P := fun s => s.Lost i) h fun s hs => lost_prune.mpr hs
  clear h
  induction hlost with
  | @intro i houtside _ ih =>
    rw [← prune_sweep]
    refine cell?_prune_of_unowned houtside fun j hj => ?_
    obtain ⟨c, hc⟩ := hj.exists_cell
    rw [ih j hj] at hc
    cases hc

/-- What is not lost stays as it is. -/
theorem cell?_sweep_of_not_lost (h : ¬ store.Lost i) : store.sweep.cell? i = store.cell? i := by
  have hkept : ¬ store.sweep.Lost i ∧ store.sweep.cell? i = store.cell? i := by
    refine sweep_induction (P := fun s => ¬ s.Lost i ∧ s.cell? i = store.cell? i) ⟨h, rfl⟩ ?_
    rintro s ⟨hs, hcell⟩
    refine ⟨fun hlost => hs (lost_prune.mp hlost), ?_⟩
    rw [← hcell]
    cases hc : s.cell? i with
    | none =>
      cases hprune : s.prune.cell? i with
      | none => rfl
      | some c =>
        rw [cell?_of_prune hprune] at hc
        cases hc
    | some c =>
      cases hprune : s.prune.cell? i with
      | none => exact (hs (lost_of_prune hprune hc)).elim
      | some c' => rw [← hc, cell?_of_prune hprune]
  exact hkept.2

/-- What is not there does not come back. -/
theorem cell?_sweep_of_none (h : store.cell? i = none) : store.sweep.cell? i = none := by
  by_cases hlost : store.Lost i
  · exact cell?_sweep_of_lost hlost
  · rw [cell?_sweep_of_not_lost hlost, h]

end RuleStore

end Backtrack
