import Backtrack.Proofs.Alternatives
import Mathlib.Data.List.Basic

/-!
# Sequences

A strict `seq` runs a list of parsers in order, each where the one before it stopped; the first
failure is that of the whole. A list may be run in two parts (`Parser.comesTo_sequence_append`), so
every binary tree of pairs comes to the same, however it is bracketed, once its nested values are
flattened (`Parser.comesTo_sequence_members`). A chain of pairs to the right and the balanced tree
are such trees.

The values of the balanced tree are taken apart by a pattern of numbered variables, which is
computed from the number of parsers and not from the tree (`Bracketing.pattern`). That it has the
shape of the tree, and binds the variable `i` to the value of the parser `i`, is
`Bracketing.destructure_balanced`.

A partial `seq` runs the same parsers up to the first failure, which it takes back: it comes to what
the strict one comes to on the longest part of the list that it accepts
(`Parser.comesTo_partial_iff`).
-/

namespace Backtrack

universe u v

namespace Outcome

variable {α β γ : Type} {e : Nat} {b : β} {f : α → β} {r : Outcome α}

theorem ok_eq_map : ok e b = r.map f ↔ ∃ a, r = ok e a ∧ b = f a := by
  cases r <;> simp [map, eq_comm]

theorem fail_eq_map : fail e = r.map f ↔ r = fail e := by
  cases r <;> simp [map, eq_comm]

theorem map_map (r : Outcome α) (f : α → β) (g : β → γ) : (r.map f).map g = r.map (g ∘ f) := by
  cases r <;> rfl

end Outcome

namespace Bracketing

variable {π : Type u} {α : Type}

/-- Nested pairs of values, one value for each member. -/
def Nested (α : Type) : Bracketing π → Type
  | one _ => α
  | both left right => left.Nested α × right.Nested α

/-- The values in nested pairs, from left to right. -/
def flatten : (T : Bracketing π) → T.Nested α → List α
  | one _, a => [a]
  | both left right, v => left.flatten v.1 ++ right.flatten v.2

/-- There is one value for each member. -/
theorem length_flatten (T : Bracketing π) (v : T.Nested α) :
    (T.flatten v).length = T.members.length := by
  induction T with
  | one x => rfl
  | both left right hleft hright =>
    unfold flatten
    rw [members_both, List.length_append, List.length_append, hleft, hright]

/-- The members are put together from the right, one at a time. -/
def nest (xs : List π) (last : π) : Bracketing π := xs.foldr (fun x T => both (one x) T) (one last)

@[simp] theorem members_nest (xs : List π) (last : π) : (nest xs last).members = xs ++ [last] := by
  induction xs with
  | nil => rfl
  | cons x xs ih =>
    have hcons : nest (x :: xs) last = both (one x) (nest xs last) := rfl
    rw [hcons, members_both, members_one, ih]
    rfl

/-! ## Halves -/

/-- Both halves of two or more are smaller, and neither is empty. -/
private theorem halves_pos_lt {n : Nat} (h : 2 ≤ n) :
    (0 < n / 2 ∧ n / 2 < n) ∧ 0 < n - n / 2 ∧ n - n / 2 < n := by omega

/-- The first half of a list and the second one are put together, each of them in halves. -/
def balanced (xs : List π) (h : 0 < xs.length) : Bracketing π :=
  if hn : 2 ≤ xs.length then
    have halves := halves_pos_lt hn
    both
      (balanced (xs.take (xs.length / 2)) (by rw [List.length_take]; omega))
      (balanced (xs.drop (xs.length / 2)) (by rw [List.length_drop]; omega))
  else one xs[0]
termination_by xs.length
decreasing_by
  · rw [List.length_take]
    omega
  · rw [List.length_drop]
    omega

@[simp] theorem members_balanced (xs : List π) (h : 0 < xs.length) :
    (balanced xs h).members = xs := by
  induction xs, h using balanced.induct with
  | case1 xs h hn halves ihtake ihdrop =>
    rw [balanced, dif_pos hn, members_both, ihtake, ihdrop, List.take_append_drop]
  | case2 xs h hn =>
    have hlength : xs.length = 1 := by omega
    obtain ⟨x, rfl⟩ := List.length_eq_one_iff.mp hlength
    rw [balanced, dif_neg hn, members_one]
    rfl

/-- The pattern of the variables from `start` up to `stop`, in halves. -/
def pattern (start stop : Nat) : Bracketing Nat :=
  if 2 ≤ stop - start then
    both (pattern start (start + (stop - start) / 2)) (pattern (start + (stop - start) / 2) stop)
  else one start
termination_by stop - start

theorem members_pattern {start stop : Nat} (h : start < stop) :
    (pattern start stop).members = List.range' start (stop - start) := by
  induction start, stop using pattern.induct with
  | case1 start stop hn ihleft ihright =>
    have hleft := ihleft (by omega)
    have hright := ihright (by omega)
    rw [pattern, if_pos hn, members_both, hleft, hright, Nat.add_sub_cancel_left,
      List.range'_append_1]
    congr 1
    omega
  | case2 start stop hn =>
    have hlength : stop - start = 1 := by omega
    rw [pattern, if_neg hn, members_one, hlength]
    rfl

/-- Two trees have one shape. -/
inductive Alike {ρ : Type v} : Bracketing ρ → Bracketing π → Prop where
  | one {x : ρ} {y : π} : Alike (one x) (one y)
  | both {P Q : Bracketing ρ} {left right : Bracketing π} (hleft : Alike P left)
    (hright : Alike Q right) : Alike (both P Q) (both left right)

/-- A list and the numbers of its members are halved in the same places. -/
theorem alike_balanced (xs : List π) (h : 0 < xs.length) (start : Nat) :
    Alike (pattern start (start + xs.length)) (balanced xs h) := by
  induction xs, h using balanced.induct generalizing start with
  | case1 xs h hn halves ihtake ihdrop =>
    have hleft := ihtake start
    have hright := ihdrop (start + xs.length / 2)
    have hsum : start + xs.length / 2 + (xs.length - xs.length / 2) = start + xs.length := by omega
    rw [List.length_take, Nat.min_eq_left (Nat.div_le_self _ 2)] at hleft
    rw [List.length_drop, hsum] at hright
    rw [balanced, dif_pos hn, pattern, Nat.add_sub_cancel_left, if_pos hn]
    exact .both hleft hright
  | case2 xs h hn =>
    rw [balanced, dif_neg hn, pattern, Nat.add_sub_cancel_left, if_neg hn]
    exact .one

/-! ## Patterns -/

/-- What the variables of a pattern are bound to, if the pattern has the shape of the value. -/
def bindings : (P : Bracketing Nat) → (T : Bracketing π) → T.Nested α → Option (List (Nat × α))
  | one i, one _, a => some [(i, a)]
  | both P Q, both left right, v => do
    let bs ← bindings P left v.1
    let cs ← bindings Q right v.2
    return bs ++ cs
  | _, _, _ => none

/-- A pattern of the right shape binds its variables to the values, both from left to right. -/
theorem Alike.bindings_eq {P : Bracketing Nat} {T : Bracketing π} (h : Alike P T) (v : T.Nested α) :
    bindings P T v = some (P.members.zip (T.flatten v)) ∧
      P.members.length = T.members.length := by
  induction h with
  | one => exact ⟨rfl, rfl⟩
  | @both P Q left right _ _ hleft hright =>
    obtain ⟨hbind, hlength⟩ := hleft v.1
    obtain ⟨hbind', hlength'⟩ := hright v.2
    have hflatten : P.members.length = (left.flatten v.1).length := by
      rw [length_flatten, hlength]
    constructor
    · rw [members_both, flatten, List.zip_append hflatten, bindings, hbind, hbind']
      rfl
    · rw [members_both, members_both, List.length_append, List.length_append, hlength, hlength']

/-- The values of the variables `0`, `1`, …, in that order, once a value is matched with the
pattern of `n` variables. -/
def destructure (n : Nat) (T : Bracketing π) (v : T.Nested α) : Option (List α) :=
  (bindings (pattern 0 n) T v).map fun bs => (List.range n).filterMap fun i => bs.lookup i

/-- To look up all keys, in order, gives all values. -/
theorem filterMap_lookup_zip {ks : List Nat} {as : List α} (hnodup : ks.Nodup)
    (hlength : ks.length = as.length) :
    (ks.filterMap fun k => (ks.zip as).lookup k) = as := by
  induction ks generalizing as with
  | nil => exact (List.eq_nil_of_length_eq_zero hlength.symm).symm
  | cons k ks ih =>
    obtain ⟨a, as, rfl⟩ := List.exists_cons_of_length_eq_add_one hlength.symm
    obtain ⟨hk, hks⟩ := List.nodup_cons.mp hnodup
    have hrest : (ks.filterMap fun i => ((k, a) :: ks.zip as).lookup i) = as := by
      rw [← ih hks (Nat.succ.inj hlength)]
      refine List.filterMap_congr fun i hi => ?_
      have hne : i ≠ k := fun heq => hk (heq ▸ hi)
      rw [List.lookup_cons, beq_false_of_ne hne, ih hks (Nat.succ.inj hlength)]
    unfold List.filterMap
    rw [List.zip_cons_cons, List.lookup_cons_self, hrest]

/-- The pattern takes apart what the balanced tree puts together. -/
theorem destructure_balanced (xs : List π) (h : 0 < xs.length) (v : (balanced xs h).Nested α) :
    destructure xs.length (balanced xs h) v = some ((balanced xs h).flatten v) := by
  have halike := alike_balanced xs h 0
  rw [Nat.zero_add] at halike
  obtain ⟨hbindings, hlength⟩ := halike.bindings_eq v
  rw [members_pattern h, Nat.sub_zero, ← List.range_eq_range'] at hbindings hlength
  rw [destructure, hbindings, Option.map_some]
  refine congrArg some (filterMap_lookup_zip List.nodup_range ?_)
  rw [hlength, length_flatten]

end Bracketing

variable {σ ι : Type} {τ : ι → Type} {α : Type}

open Act Bracketing

/-- The members run in order, two at a time. -/
def Bracketing.pairs : (T : Bracketing (Parser σ τ α)) → Parser σ τ (T.Nested α)
  | one p => p
  | both left right => .pair left.pairs right.pairs

namespace Parser

variable [BEq σ] [Describe σ] {env : Env σ τ} {p : Parser σ τ α} {rest : Parsers σ τ α}
  {ps qs : List (Parser σ τ α)} {allowPartial : Bool} {pos : Nat} {s t : State}
  {r : Outcome (List α)}

/-! ## Lists -/

theorem comesTo_seq_nil :
    (seq (.nil : Parsers σ τ α) allowPartial).ComesTo env pos s r t ↔ r = .ok pos [] ∧ t = s := by
  constructor
  · intro h
    obtain ⟨n, h⟩ := h.exists_run
    cases h
    exact ⟨rfl, rfl⟩
  · rintro ⟨rfl, rfl⟩
    exact ⟨1, rfl⟩

/-- The rest of the list runs where the first parser succeeds. -/
theorem comesTo_seq_cons :
    (seq (.cons p rest) allowPartial).ComesTo env pos s r t ↔
      (∃ e a u r', p.ComesTo env pos s (.ok e a) u ∧
        (seq rest allowPartial).ComesTo env e u r' t ∧ r = r'.map (a :: ·)) ∨
      ∃ f, p.ComesTo env pos s (.fail f) t ∧ r = if allowPartial then .ok pos [] else .fail f := by
  constructor
  · intro h
    obtain ⟨n, h⟩ := h.exists_run
    rw [run, Parsers.inOrder] at h
    obtain ⟨x, u, hp, h⟩ := bind_eq_some.mp h
    cases x with
    | fail f =>
      cases h
      exact .inr ⟨f, ⟨n, hp⟩, rfl⟩
    | ok e a =>
      obtain ⟨r', v, hrest, h⟩ := bind_eq_some.mp h
      have hrest : (seq rest allowPartial).ComesTo env e u r' v := .of_run (n := n + 1) hrest
      cases r' with
      | ok e' as =>
        cases h
        exact .inl ⟨e, a, u, _, ⟨n, hp⟩, hrest, rfl⟩
      | fail f =>
        cases h
        exact .inl ⟨e, a, u, _, ⟨n, hp⟩, hrest, rfl⟩
  · rintro (⟨e, a, u, r', hp, hrest, rfl⟩ | ⟨f, ⟨n, hp⟩, rfl⟩)
    · obtain ⟨n, hp, hrest⟩ := Returns.both (growing_run env p pos) (growing_run env _ e) hp hrest
      have hrest := run_of_le (Nat.le_succ n) hrest
      refine .of_run (n := n + 1) ?_
      rw [run, Parsers.inOrder]
      refine bind_eq_some.mpr ⟨.ok e a, u, hp, bind_eq_some.mpr ⟨r', t, hrest, ?_⟩⟩
      cases r' <;> rfl
    · refine .of_run (n := n + 1) ?_
      rw [run, Parsers.inOrder]
      exact bind_eq_some.mpr ⟨.fail f, t, hp, rfl⟩

theorem comesTo_sequence_nil :
    (sequence ([] : List (Parser σ τ α))).ComesTo env pos s r t ↔ r = .ok pos [] ∧ t = s :=
  comesTo_seq_nil

theorem comesTo_sequence_cons :
    (sequence (p :: ps)).ComesTo env pos s r t ↔
      (∃ e a u r', p.ComesTo env pos s (.ok e a) u ∧ (sequence ps).ComesTo env e u r' t ∧
        r = r'.map (a :: ·)) ∨
      ∃ f, p.ComesTo env pos s (.fail f) t ∧ r = .fail f :=
  comesTo_seq_cons

/-- A list may be run in two parts. -/
theorem comesTo_sequence_append :
    (sequence (ps ++ qs)).ComesTo env pos s r t ↔
      (∃ e as u r', (sequence ps).ComesTo env pos s (.ok e as) u ∧
        (sequence qs).ComesTo env e u r' t ∧ r = r'.map (as ++ ·)) ∨
      ∃ f, (sequence ps).ComesTo env pos s (.fail f) t ∧ r = .fail f := by
  induction ps generalizing pos s r with
  | nil =>
    constructor
    · intro h
      refine .inl ⟨pos, [], s, r, comesTo_sequence_nil.mpr ⟨rfl, rfl⟩, h, ?_⟩
      cases r <;> rfl
    · rintro (⟨e, as, u, r', h, hrest, rfl⟩ | ⟨f, h, rfl⟩)
      · obtain ⟨heq, rfl⟩ := comesTo_sequence_nil.mp h
        cases heq
        cases r' <;> exact hrest
      · exact absurd (comesTo_sequence_nil.mp h).1 nofun
  | cons p ps ih =>
    rw [List.cons_append, comesTo_sequence_cons]
    constructor
    · rintro (⟨e, a, u, r', hp, hrest, rfl⟩ | ⟨f, hp, rfl⟩)
      · obtain ⟨e', as, v, r', hps, hqs, rfl⟩ | ⟨f, hps, rfl⟩ := ih.mp hrest
        · have hps := comesTo_sequence_cons.mpr (.inl ⟨e, a, u, .ok e' as, hp, hps, rfl⟩)
          exact .inl ⟨e', a :: as, v, r', hps, hqs, Outcome.map_map ..⟩
        · exact .inr ⟨f, comesTo_sequence_cons.mpr (.inl ⟨e, a, u, .fail f, hp, hps, rfl⟩), rfl⟩
      · exact .inr ⟨f, comesTo_sequence_cons.mpr (.inr ⟨f, hp, rfl⟩), rfl⟩
    · rintro (⟨e, as, u, r', h, hqs, rfl⟩ | ⟨f, h, rfl⟩)
      · obtain ⟨e', a, v, x, hp, hps, heq⟩ | ⟨f, -, heq⟩ := comesTo_sequence_cons.mp h
        · obtain ⟨as', rfl, rfl⟩ := Outcome.ok_eq_map.mp heq
          have hrest := ih.mpr (.inl ⟨e, as', u, r', hps, hqs, rfl⟩)
          refine .inl ⟨e', a, v, _, hp, hrest, ?_⟩
          rw [Outcome.map_map]
          rfl
        · cases heq
      · obtain ⟨e', a, v, x, hp, hps, heq⟩ | ⟨g, hp, heq⟩ := comesTo_sequence_cons.mp h
        · cases Outcome.fail_eq_map.mp heq
          exact .inl ⟨e', a, v, .fail f, hp, ih.mpr (.inr ⟨f, hps, rfl⟩), rfl⟩
        · cases heq
          exact .inr ⟨f, hp, rfl⟩

theorem comesTo_sequence_split (ps : List (Parser σ τ α)) (n : Nat) :
    (sequence ps).ComesTo env pos s r t ↔
      (∃ e as u r', (sequence (ps.take n)).ComesTo env pos s (.ok e as) u ∧
        (sequence (ps.drop n)).ComesTo env e u r' t ∧ r = r'.map (as ++ ·)) ∨
      ∃ f, (sequence (ps.take n)).ComesTo env pos s (.fail f) t ∧ r = .fail f := by
  have happend : ps = ps.take n ++ ps.drop n := (List.take_append_drop n ps).symm
  conv_lhs => rw [happend]
  exact comesTo_sequence_append

theorem comesTo_sequence_singleton :
    (sequence [p]).ComesTo env pos s r t ↔
      ∃ r', p.ComesTo env pos s r' t ∧ r = r'.map fun a => [a] := by
  rw [comesTo_sequence_cons]
  constructor
  · rintro (⟨e, a, u, r', hp, hnil, rfl⟩ | ⟨f, hp, rfl⟩)
    · obtain ⟨rfl, rfl⟩ := comesTo_sequence_nil.mp hnil
      exact ⟨_, hp, rfl⟩
    · exact ⟨_, hp, rfl⟩
  · rintro ⟨x, hp, rfl⟩
    cases x with
    | ok e a =>
      exact .inl ⟨e, a, t, .ok e [], hp, comesTo_sequence_nil.mpr ⟨rfl, rfl⟩, rfl⟩
    | fail f => exact .inr ⟨f, hp, rfl⟩

/-! ## Trees -/

/-- The right one of two trees runs where the left one succeeds. -/
theorem comesTo_pairs_both {left right : Bracketing (Parser σ τ α)}
    {r : Outcome ((both left right).Nested α)} :
    (both left right).pairs.ComesTo env pos s r t ↔
      (∃ e v u r', left.pairs.ComesTo env pos s (.ok e v) u ∧ right.pairs.ComesTo env e u r' t ∧
        r = r'.map fun w => (v, w)) ∨
      ∃ f, left.pairs.ComesTo env pos s (.fail f) t ∧ r = .fail f :=
  comesTo_andMap

/-- A tree of pairs runs its members in order. -/
theorem comesTo_sequence_members (T : Bracketing (Parser σ τ α)) :
    ∀ {pos s r t}, (sequence T.members).ComesTo env pos s r t ↔
      ∃ r', T.pairs.ComesTo env pos s r' t ∧ r = r'.map T.flatten := by
  induction T with
  | one p =>
    intro pos s r t
    exact comesTo_sequence_singleton
  | both left right hleft hright =>
    intro pos s r t
    rw [members_both, comesTo_sequence_append]
    simp only [comesTo_pairs_both, hleft, hright]
    constructor
    · rintro (⟨e, as, u, _, ⟨x, hx, heq⟩, ⟨y, hy, rfl⟩, rfl⟩ | ⟨f, ⟨x, hx, heq⟩, rfl⟩)
      · obtain ⟨v, rfl, rfl⟩ := Outcome.ok_eq_map.mp heq
        refine ⟨_, .inl ⟨e, v, u, y, hx, hy, rfl⟩, ?_⟩
        cases y <;> rfl
      · cases Outcome.fail_eq_map.mp heq
        exact ⟨_, .inr ⟨f, hx, rfl⟩, rfl⟩
    · rintro ⟨_, ⟨e, v, u, y, hx, hy, rfl⟩ | ⟨f, hx, rfl⟩, rfl⟩
      · refine .inl ⟨e, left.flatten v, u, _, ⟨_, hx, rfl⟩, ⟨y, hy, rfl⟩, ?_⟩
        cases y <;> rfl
      · exact .inr ⟨f, ⟨_, hx, rfl⟩, rfl⟩

/-- The balanced tree over a list, with its nested values taken apart by the pattern. -/
def destructured (ps : List (Parser σ τ α)) (h : 0 < ps.length) : Parser σ τ (Option (List α)) :=
  (balanced ps h).pairs.map (destructure ps.length (balanced ps h))

/-- The parsers in order, each with its value put in front of what the others give. -/
def chained (ps : List (Parser σ τ α)) (last : Parser σ τ α) : Parser σ τ (List α) :=
  ps.foldr (fun p rest => p.andMap rest List.cons) (last.map fun a => [a])

/-- The pattern gives every value of the list. -/
theorem comesTo_destructured {h : 0 < ps.length} {r : Outcome (Option (List α))} :
    (destructured ps h).ComesTo env pos s r t ↔
      ∃ r', (sequence ps).ComesTo env pos s r' t ∧ r = r'.map some := by
  have hmembers {r' : Outcome (List α)} : (sequence ps).ComesTo env pos s r' t ↔
      ∃ x, (balanced ps h).pairs.ComesTo env pos s x t ∧ r' = x.map (balanced ps h).flatten := by
    rw [← comesTo_sequence_members, members_balanced]
  have hpattern : destructure (α := α) ps.length (balanced ps h) = some ∘ (balanced ps h).flatten :=
    funext (destructure_balanced ps h)
  unfold destructured
  simp only [comesTo_map, hmembers, hpattern, ← Outcome.map_map]
  constructor
  · rintro ⟨x, hx, rfl⟩
    exact ⟨_, ⟨x, hx, rfl⟩, rfl⟩
  · rintro ⟨_, ⟨x, hx, rfl⟩, rfl⟩
    exact ⟨x, hx, rfl⟩

theorem comesTo_chained :
    (chained ps p).ComesTo env pos s r t ↔ (sequence (ps ++ [p])).ComesTo env pos s r t := by
  induction ps generalizing pos s r with
  | nil =>
    rw [List.nil_append, comesTo_sequence_singleton]
    exact comesTo_map
  | cons q ps ih =>
    have hcons : chained (q :: ps) p = q.andMap (chained ps p) List.cons := rfl
    rw [List.cons_append, comesTo_sequence_cons, hcons, comesTo_andMap]
    simp only [ih]

/-- The balanced tree that appends the values of its halves comes to what the list comes to. -/
theorem comesTo_tuple (ps : List (Parser σ τ α)) :
    ∀ {pos s r t}, (tuple ps).ComesTo env pos s r t ↔ (sequence ps).ComesTo env pos s r t := by
  induction ps using tuple.induct
  case case1 =>
    intro pos s r t
    rw [tuple, comesTo_sequence_nil]
    constructor
    · intro h
      obtain ⟨n, h⟩ := h.exists_run
      cases h
      exact ⟨rfl, rfl⟩
    · rintro ⟨rfl, rfl⟩
      exact ⟨1, rfl⟩
  case case2 p =>
    intro pos s r t
    rw [tuple, comesTo_map, comesTo_sequence_singleton]
  case case3 p q rest n ihtake ihdrop =>
    intro pos s r t
    rw [comesTo_sequence_split _ (n / 2), tuple]
    simp only [← ihtake, ← ihdrop]
    exact comesTo_andMap

/-! ## Parts of a list -/

/-- Nothing is left to run, or the next parser fails. -/
inductive LeftOver (env : Env σ τ) (pos : Nat) (s : State) :
    List (Parser σ τ α) → State → Prop where
  | nil : LeftOver env pos s [] s
  | fail {p : Parser σ τ α} {rest : List (Parser σ τ α)} {f : Nat} {t : State}
    (hrun : p.ComesTo env pos s (.fail f) t) : LeftOver env pos s (p :: rest) t

variable {e : Nat} {as : List α}

/-- A list that succeeds gives one value for each parser. -/
theorem length_of_comesTo_sequence (h : (sequence ps).ComesTo env pos s (.ok e as) t) :
    as.length = ps.length := by
  induction ps generalizing pos s as with
  | nil =>
    cases (comesTo_sequence_nil.mp h).1
    rfl
  | cons p ps ih =>
    obtain ⟨e', a, u, r', -, hrest, heq⟩ | ⟨f, -, heq⟩ := comesTo_sequence_cons.mp h
    · obtain ⟨as', rfl, rfl⟩ := Outcome.ok_eq_map.mp heq
      rw [List.length_cons, List.length_cons, ih hrest]
    · cases heq

/-- A list fails where one of its parsers fails, after those before it have succeeded. -/
theorem comesTo_sequence_fail {f : Nat} :
    (sequence ps).ComesTo env pos s (.fail f) t ↔
      ∃ before p after e as u, ps = before ++ p :: after ∧
        (sequence before).ComesTo env pos s (.ok e as) u ∧ p.ComesTo env e u (.fail f) t := by
  constructor
  · intro h
    induction ps generalizing pos s with
    | nil => exact absurd (comesTo_sequence_nil.mp h).1 nofun
    | cons p ps ih =>
      obtain ⟨e, a, u, r', hp, hrest, heq⟩ | ⟨g, hp, heq⟩ := comesTo_sequence_cons.mp h
      · cases Outcome.fail_eq_map.mp heq
        obtain ⟨before, q, after, e', as, v, rfl, hbefore, hq⟩ := ih hrest
        have hbefore := comesTo_sequence_cons.mpr (.inl ⟨e, a, u, _, hp, hbefore, rfl⟩)
        exact ⟨p :: before, q, after, e', a :: as, v, rfl, hbefore, hq⟩
      · cases heq
        exact ⟨[], p, ps, pos, [], s, rfl, comesTo_sequence_nil.mpr ⟨rfl, rfl⟩, hp⟩
  · rintro ⟨before, p, after, e, as, u, rfl, hbefore, hp⟩
    have hrest : (sequence (p :: after)).ComesTo env e u (.fail f) t :=
      comesTo_sequence_cons.mpr (.inr ⟨f, hp, rfl⟩)
    exact comesTo_sequence_append.mpr (.inl ⟨e, as, u, .fail f, hbefore, hrest, rfl⟩)

/-- With a partial result allowed, a list comes to what those before the first failure come to. -/
theorem comesTo_partial_iff :
    (seq (.ofList ps) true).ComesTo env pos s r t ↔
      ∃ before after e as u, ps = before ++ after ∧
        (sequence before).ComesTo env pos s (.ok e as) u ∧ LeftOver env e u after t ∧
        r = .ok e as := by
  constructor
  · intro h
    induction ps generalizing pos s r with
    | nil =>
      obtain ⟨rfl, rfl⟩ := comesTo_seq_nil.mp h
      exact ⟨[], [], pos, [], t, rfl, comesTo_sequence_nil.mpr ⟨rfl, rfl⟩, .nil, rfl⟩
    | cons p ps ih =>
      obtain ⟨e, a, u, r', hp, hrest, rfl⟩ | ⟨f, hp, rfl⟩ := comesTo_seq_cons.mp h
      · obtain ⟨before, after, e', as, v, rfl, hbefore, hends, rfl⟩ := ih hrest
        have hbefore := comesTo_sequence_cons.mpr (.inl ⟨e, a, u, _, hp, hbefore, rfl⟩)
        exact ⟨p :: before, after, e', a :: as, v, rfl, hbefore, hends, rfl⟩
      · exact ⟨[], p :: ps, pos, [], s, rfl, comesTo_sequence_nil.mpr ⟨rfl, rfl⟩, .fail hp, rfl⟩
  · rintro ⟨before, after, e, as, u, rfl, hbefore, hends, rfl⟩
    induction before generalizing pos s as with
    | nil =>
      obtain ⟨heq, rfl⟩ := comesTo_sequence_nil.mp hbefore
      cases heq
      cases hends with
      | nil => exact comesTo_seq_nil.mpr ⟨rfl, rfl⟩
      | fail hrun => exact comesTo_seq_cons.mpr (.inr ⟨_, hrun, rfl⟩)
    | cons p before ih =>
      obtain ⟨e', a, v, r', hp, hrest, heq⟩ | ⟨f, -, heq⟩ := comesTo_sequence_cons.mp hbefore
      · obtain ⟨as', rfl, rfl⟩ := Outcome.ok_eq_map.mp heq
        exact comesTo_seq_cons.mpr (.inl ⟨e', a, v, _, hp, ih _ hrest, rfl⟩)
      · cases heq

/-- No longer part of a list succeeds than the one before the parser that ends it. -/
theorem sequence_fails_of_ends {after more : List (Parser σ τ α)} {u : State}
    (hps : (sequence ps).ComesTo env pos s (.ok e as) u) (hends : LeftOver env e u after t)
    (hmore : more ≠ []) (hafter : more <+: after) :
    ∃ f, (sequence (ps ++ more)).ComesTo env pos s (.fail f) t := by
  cases hends with
  | nil => exact absurd (List.prefix_nil.mp hafter) hmore
  | @fail p rest f t hrun =>
    obtain ⟨more', rfl, -⟩ := List.prefix_cons_iff.mp hafter |>.resolve_left hmore
    exact ⟨f, comesTo_sequence_fail.mpr ⟨ps, p, more', e, as, u, rfl, hps, hrun⟩⟩

/-- A partial run of a list returns where a strict one does, and leaves the same state. -/
theorem partial_returns_iff :
    (∃ r, (seq (.ofList ps) true).ComesTo env pos s r t) ↔
      ∃ r, (sequence ps).ComesTo env pos s r t := by
  constructor
  · rintro ⟨r, h⟩
    obtain ⟨before, after, e, as, u, rfl, hbefore, hends, -⟩ := comesTo_partial_iff.mp h
    cases hends with
    | nil =>
      rw [List.append_nil]
      exact ⟨_, hbefore⟩
    | @fail p rest f t hrun =>
      exact ⟨_, comesTo_sequence_fail.mpr ⟨before, p, rest, e, as, u, rfl, hbefore, hrun⟩⟩
  · rintro ⟨r, h⟩
    cases r with
    | ok e as =>
      have happend : ps = ps ++ [] := (List.append_nil ps).symm
      exact ⟨_, comesTo_partial_iff.mpr ⟨ps, [], e, as, t, happend, h, .nil, rfl⟩⟩
    | fail f =>
      obtain ⟨before, p, after, e, as, u, rfl, hbefore, hp⟩ := comesTo_sequence_fail.mp h
      have hends : LeftOver env e u (p :: after) t := .fail hp
      exact ⟨_, comesTo_partial_iff.mpr ⟨before, p :: after, e, as, u, rfl, hbefore, hends, rfl⟩⟩

/-- A strict run of a list succeeds where a partial one gives as many values as there are
parsers. -/
theorem comesTo_sequence_ok_iff :
    (sequence ps).ComesTo env pos s (.ok e as) t ↔
      (seq (.ofList ps) true).ComesTo env pos s (.ok e as) t ∧ as.length = ps.length := by
  constructor
  · intro h
    have happend : ps = ps ++ [] := (List.append_nil ps).symm
    exact ⟨comesTo_partial_iff.mpr ⟨ps, [], e, as, t, happend, h, .nil, rfl⟩,
      length_of_comesTo_sequence h⟩
  · rintro ⟨h, hlength⟩
    obtain ⟨before, after, e', as', u, rfl, hbefore, hends, heq⟩ := comesTo_partial_iff.mp h
    cases heq
    rw [length_of_comesTo_sequence hbefore, List.length_append] at hlength
    have hafter : after = [] := List.eq_nil_of_length_eq_zero (by omega)
    subst hafter
    cases hends
    rw [List.append_nil]
    exact hbefore

/-- A list of parsers that all return, returns. -/
theorem sequence_returns (hps : ∀ p ∈ ps, ∀ pos s, ∃ r t, p.ComesTo env pos s r t) :
    ∀ pos s, ∃ r t, (sequence ps).ComesTo env pos s r t := by
  induction ps with
  | nil => exact fun pos s => ⟨_, s, comesTo_sequence_nil.mpr ⟨rfl, rfl⟩⟩
  | cons p ps ih =>
    intro pos s
    obtain ⟨x, u, hp⟩ := hps p List.mem_cons_self pos s
    cases x with
    | ok e a =>
      obtain ⟨r', t, hrest⟩ := ih (fun q hq => hps q (List.mem_cons_of_mem p hq)) e u
      exact ⟨_, t, comesTo_sequence_cons.mpr (.inl ⟨e, a, u, r', hp, hrest, rfl⟩)⟩
    | fail f => exact ⟨_, u, comesTo_sequence_cons.mpr (.inr ⟨f, hp, rfl⟩)⟩

/-- Sequences agree in every form. A strict run of a list comes to what each binary tree of pairs
over it comes to, with the values in the order of the list. Such trees are the pairs nested to the
right, as which its values may also be put in front of each other, and the balanced tree, whose
values its pattern takes apart.

A partial run succeeds, if the parsers return, and it returns where a strict one does. It comes to
what a strict run of the longest part comes to that succeeds, and runs no parser after the first one
that fails. -/
theorem sequences_agree (env : Env σ τ) (ps : List (Parser σ τ α)) (hps : 0 < ps.length) (pos : Nat)
    (s : State) :
    (∀ r t, (∀ T : Bracketing (Parser σ τ α), T.members = ps →
        ((sequence ps).ComesTo env pos s r t ↔
          ∃ r', T.pairs.ComesTo env pos s r' t ∧ r = r'.map T.flatten)) ∧
      (∀ init last, ps = init ++ [last] →
        ((sequence ps).ComesTo env pos s r t ↔
          ∃ r', (nest init last).pairs.ComesTo env pos s r' t ∧
            r = r'.map (nest init last).flatten) ∧
        ((sequence ps).ComesTo env pos s r t ↔ (chained init last).ComesTo env pos s r t)) ∧
      ((sequence ps).ComesTo env pos s r t ↔ (tuple ps).ComesTo env pos s r t)) ∧
    (∀ r t, (destructured ps hps).ComesTo env pos s r t ↔
      ∃ r', (sequence ps).ComesTo env pos s r' t ∧ r = r'.map some) ∧
    (∀ r t, (seq (.ofList ps) true).ComesTo env pos s r t ↔
      ∃ before after e as u, ps = before ++ after ∧
        (sequence before).ComesTo env pos s (.ok e as) u ∧ LeftOver env e u after t ∧
        (∀ more, more ≠ [] → more <+: after →
          ∃ f, (sequence (before ++ more)).ComesTo env pos s (.fail f) t) ∧ r = .ok e as) ∧
    (∀ t, (∃ r, (seq (.ofList ps) true).ComesTo env pos s r t) ↔
      ∃ r, (sequence ps).ComesTo env pos s r t) ∧
    ((∀ p ∈ ps, ∀ pos s, ∃ r t, p.ComesTo env pos s r t) →
      ∃ e as t, (seq (.ofList ps) true).ComesTo env pos s (.ok e as) t) ∧
    ∀ e as t, (sequence ps).ComesTo env pos s (.ok e as) t ↔
      (seq (.ofList ps) true).ComesTo env pos s (.ok e as) t ∧ as.length = ps.length := by
  have htree (T : Bracketing (Parser σ τ α)) (hT : T.members = ps) r t :
      (sequence ps).ComesTo env pos s r t ↔
        ∃ r', T.pairs.ComesTo env pos s r' t ∧ r = r'.map T.flatten := by
    rw [← hT]
    exact comesTo_sequence_members T
  refine ⟨fun r t => ⟨fun T hT => htree T hT r t, fun init last hinit => ?_,
    (comesTo_tuple ps).symm⟩, fun r t => comesTo_destructured, fun r t => ?_,
    fun t => partial_returns_iff, fun hreturns => ?_, fun e as t => comesTo_sequence_ok_iff⟩
  · constructor
    · exact htree (nest init last) (by rw [members_nest, hinit]) r t
    · rw [hinit, comesTo_chained]
  · constructor
    · intro h
      obtain ⟨before, after, e, as, u, hsplit, hbefore, hends, rfl⟩ := comesTo_partial_iff.mp h
      refine ⟨before, after, e, as, u, hsplit, hbefore, hends, ?_, rfl⟩
      intro more hmore hprefix
      exact sequence_fails_of_ends hbefore hends hmore hprefix
    · rintro ⟨before, after, e, as, u, hsplit, hbefore, hends, -, rfl⟩
      exact comesTo_partial_iff.mpr ⟨before, after, e, as, u, hsplit, hbefore, hends, rfl⟩
  · obtain ⟨r, t, hstrict⟩ := sequence_returns hreturns pos s
    obtain ⟨r', hpartial⟩ := partial_returns_iff.mpr ⟨r, hstrict⟩
    obtain ⟨before, after, e, as, u, -, -, -, rfl⟩ := comesTo_partial_iff.mp hpartial
    exact ⟨e, as, t, hpartial⟩

/-- Three letters, the last of which is not there. The balanced tree fails where it is missing, and
the two letters before it are what a partial run gives. -/
theorem sequences_agree_letters :
    let env := Env.bare (.text ['x', 'y', 'z'])
    let p (c : Char) : Parser Char (Empty.elim : Empty → Type) Char := .el c
    let t : State := {
      sink := .reached 2 [.expected 2 "'x'"], entries := [⟨2, some (.expected 2 "'x'")⟩] }
    0 < [p 'x', p 'y', p 'x'].length ∧
      (sequence [p 'x', p 'y', p 'x']).ComesTo env 0 {} (.fail 2) t ∧
      (pair (p 'x') (pair (p 'y') (p 'x'))).ComesTo env 0 {} (.fail 2) t ∧
      (destructured [p 'x', p 'y', p 'x'] (by decide)).ComesTo env 0 {} (.fail 2) t ∧
      (seq (.ofList [p 'x', p 'y', p 'x']) true).ComesTo env 0 {} (.ok 2 ['x', 'y']) t := by
  intro env p t
  have hlength : 0 < [p 'x', p 'y', p 'x'].length := by decide
  obtain ⟨hforms, hpattern, hpartial, -⟩ :=
    sequences_agree env [p 'x', p 'y', p 'x'] hlength 0 {}
  have hstrict : (sequence [p 'x', p 'y', p 'x']).ComesTo env 0 {} (.fail 2) t := ⟨2, rfl⟩
  have hbefore : (sequence [p 'x', p 'y']).ComesTo env 0 {} (.ok 2 ['x', 'y']) {} := ⟨2, rfl⟩
  have hlast : (p 'x').ComesTo env 2 {} (.fail 2) t := ⟨1, rfl⟩
  obtain ⟨r, hnested, heq⟩ := ((hforms (.fail 2) t).2.1 [p 'x', p 'y'] (p 'x') rfl).1.mp hstrict
  cases Outcome.fail_eq_map.mp heq
  refine ⟨hlength, hstrict, hnested, (hpattern _ t).mpr ⟨_, hstrict, rfl⟩, (hpartial _ t).mpr ?_⟩
  refine ⟨[p 'x', p 'y'], [p 'x'], 2, ['x', 'y'], {}, rfl, hbefore, .fail hlast, ?_, rfl⟩
  intro more hmore hprefix
  exact sequence_fails_of_ends hbefore (.fail hlast) hmore hprefix

end Parser

end Backtrack
