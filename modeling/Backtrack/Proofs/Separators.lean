import Backtrack.Proofs.Repetition
import Backtrack.Proofs.Soundness

/-!
# Separators

A repetition with separators is an item and then a repetition of separator and item together, as
one parser. The loop behind `Parser.sepBy` is written out by hand; `Parser.expandedSepBy` says the
same with sequencing and repetition. Both come to the same list, end and state, whatever the bounds
are, and also where items or separators do not advance (`Parser.sepBy_expands`). They differ only
where the first item fails: then `sepBy` has found an empty list, which is enough without a lower
bound, and else is a bare failure at the start. The first item has failed there or beyond by then,
so the sink does not notice, unless the item failed by the signal of another block and registered
nothing (`Parser.sepBy_not_expands`).
-/

namespace Backtrack

variable {σ ι : Type} {τ : ι → Type} {α β : Type}

open Success

/-- One more than what is counted, and one more that is asked for. -/
theorem atLeast_succ {min count pos : Nat} {a : α} {f : α → β} {s t : State} {r : Outcome β} :
    atLeast min (count + 1) pos (f a) s = some (r, t) ↔
      ∃ r', atLeast (min - 1) count pos a s = some (r', t) ∧ r = r'.map f := by
  have hfew : count + 1 < min ↔ count < min - 1 := by omega
  have henough : min ≤ count + 1 ↔ min - 1 ≤ count := by omega
  simp only [atLeast_eq_some, hfew, henough]
  constructor
  · rintro (⟨h, rfl, rfl⟩ | ⟨h, rfl, rfl⟩)
    · exact ⟨.ok pos a, .inl ⟨h, rfl, rfl⟩, rfl⟩
    · exact ⟨.fail pos, .inr ⟨h, rfl, rfl⟩, rfl⟩
  · rintro ⟨_, ⟨h, rfl, rfl⟩ | ⟨h, rfl, rfl⟩, rfl⟩
    · exact .inl ⟨h, rfl, rfl⟩
    · exact .inr ⟨h, rfl, rfl⟩

namespace Parser

/-- A list of items with separators, as an item and a repetition. The bounds count the first item
too. -/
def expandedSepBy (p : Parser σ τ α) (sep : Parser σ τ β) (bounds : Bounds) :
    Parser σ τ (List α) :=
  andMap p (many (sep.andThen p) { min := bounds.min - 1, max := bounds.max.map (· - 1) }) List.cons

variable [BEq σ] [Describe σ] {env : Env σ τ} {p : Parser σ τ α} {sep : Parser σ τ β}
  {bounds : Bounds} {pos e : Nat} {s t : State} {r : Outcome (List α)} {as : List α}

theorem comesTo_andThen_ok {a : α} :
    (sep.andThen p).ComesTo env pos s (.ok e a) t ↔
      ∃ q b u, sep.ComesTo env pos s (.ok q b) u ∧ p.ComesTo env q u (.ok e a) t := by
  rw [andThen, comesTo_andMap]
  constructor
  · rintro (⟨q, b, u, r, hsep, hp, h⟩ | ⟨_, _, h⟩)
    · cases r with
      | ok e' a' =>
        cases h
        exact ⟨q, b, u, hsep, hp⟩
      | fail f => cases h
    · cases h
  · rintro ⟨q, b, u, hsep, hp⟩
    exact .inl ⟨q, b, u, .ok e a, hsep, hp, rfl⟩

/-- What is left to do after the first item: separators and items are repeated together, and there
have to be enough items. -/
def Listed (env : Env σ τ) (p : Parser σ τ α) (sep : Parser σ τ β) (bounds : Bounds) (pos : Nat)
    (s : State) (r : Outcome (List α)) (t : State) : Prop :=
  ∃ q a u as e v, p.ComesTo env pos s (.ok q a) u ∧
    (sep.andThen p).Repeats env (bounds.max.map (· - 1)) q u as e v ∧
    atLeast bounds.min (as.length + 1) e (a :: as) v = some (r, t)

theorem comesTo_expandedSepBy :
    (expandedSepBy p sep bounds).ComesTo env pos s r t ↔
      Listed env p sep bounds pos s r t ∨ ∃ f, p.ComesTo env pos s (.fail f) t ∧ r = .fail f := by
  rw [expandedSepBy, comesTo_andMap]
  refine or_congr_left ?_
  simp only [comesTo_many, Listed, atLeast_succ]
  constructor
  · rintro ⟨q, a, u, r', hp, ⟨as, e, v, hloop, hleast⟩, rfl⟩
    exact ⟨q, a, u, as, e, v, hp, hloop, r', hleast, rfl⟩
  · rintro ⟨q, a, u, as, e, v, hp, hloop, r', hleast, rfl⟩
    exact ⟨q, a, u, r', hp, ⟨as, e, v, hloop, hleast⟩, rfl⟩

/-- Without a lower bound, a list that has a first item is long enough. -/
theorem Listed.isOk (hmin : bounds.min = 0) (h : Listed env p sep bounds pos s r t) :
    ∃ e as, r = .ok e as := by
  obtain ⟨q, a, u, as, e, v, -, -, hleast⟩ := h
  obtain ⟨-, rfl, -⟩ | ⟨hfew, -⟩ := atLeast_eq_some.mp hleast
  · exact ⟨e, a :: as, rfl⟩
  · omega

/-- The last value of a list is that of the last run of the item, and the list ends where that run
does. -/
theorem Listed.last (h : Listed env p sep bounds pos s (.ok e as) t) :
    ∃ q u v a, as.getLast? = some a ∧ p.ComesTo env q u (.ok e a) v := by
  obtain ⟨q, a, u, as', e', v, hp, hloop, hleast⟩ := h
  obtain ⟨-, h, -⟩ | ⟨-, h, -⟩ := atLeast_eq_some.mp hleast
  · cases h
    obtain ⟨xs, hxs, -, rfl, rfl⟩ := repeats_iff_advances.mp hloop
    -- The last value is the first item, or that of the last pair.
    obtain rfl | ⟨x, q', u', hlast, hx, hstop⟩ := hxs.last
    · exact ⟨pos, s, u, a, rfl, hp⟩
    · obtain ⟨q'', b, u'', -, hx⟩ := comesTo_andThen_ok.mp hx
      refine ⟨q'', u'', x.state, x.value, ?_, by rwa [hstop]⟩
      rw [List.getLast?_cons, List.getLast?_map, hlast]
      rfl
  · cases h

/-- If the item is self-contained, a bare failure where it has failed is not noticed. -/
theorem sink_missed_of_fail (henv : env.SelfContained) (hp : p.SelfContained) {f : Nat}
    (h : p.ComesTo env pos s (.fail f) t) : (t.missed pos).sink = t.sink := by
  obtain ⟨n, hn⟩ := h
  have henv' : env.Oblivious (fun init body => body.OwnAborts init) fun _ _ => False :=
    fun i q hq => (henv i q hq).oblivious
  have hreach := Oblivious.reaches_of_fail (fun _ _ h => h) henv' hp.oblivious hn
  exact Sink.add_none hreach

/-- With the upper bound zero no parser is run: a bound of one on the depth is enough. -/
theorem run_sepBy_none (hmax : bounds.max = some 0) (n : Nat) :
    (sepBy p sep bounds).run env (n + 1) pos s =
      if bounds.min = 0 then some (.ok pos [], s) else some (.fail pos, s.missed pos) := by
  rw [run, if_pos hmax]
  by_cases hmin : bounds.min = 0
  · rw [if_pos hmin]
    exact atLeast_eq_some.mpr (.inl ⟨Nat.le_of_eq hmin, rfl, rfl⟩)
  · rw [if_neg hmin]
    exact atLeast_eq_some.mpr (.inr ⟨Nat.pos_of_ne_zero hmin, rfl, rfl⟩)

/-- Without a lower bound, a failure of the expansion is an empty list. -/
theorem comesTo_sepBy_iff_option (hmax : bounds.max ≠ some 0) (hmin : bounds.min = 0) :
    (sepBy p sep bounds).ComesTo env pos s r t ↔
      ((expandedSepBy p sep bounds).option []).ComesTo env pos s r t := by
  rw [comesTo_sepBy hmax, comesTo_option]
  simp only [comesTo_expandedSepBy]
  constructor
  · rintro (hlist | ⟨f, u, hfail, hleast⟩)
    · obtain ⟨e, as, rfl⟩ := Listed.isOk hmin hlist
      exact .inl ⟨e, as, .inl hlist, rfl⟩
    · obtain ⟨-, rfl, rfl⟩ | ⟨hfew, -⟩ := atLeast_eq_some.mp hleast
      · exact .inr ⟨f, .inr ⟨f, hfail, rfl⟩, rfl⟩
      · omega
  · rintro (⟨e, as, hlist | ⟨f, -, h⟩, rfl⟩ | ⟨f, hlist | ⟨f, hfail, -⟩, rfl⟩)
    · exact .inl hlist
    · cases h
    · obtain ⟨e, as, h⟩ := hlist.isOk hmin
      cases h
    · exact .inr ⟨f, t, hfail, atLeast_eq_some.mpr (.inl ⟨Nat.le_of_eq hmin, rfl, rfl⟩)⟩

/-- With a lower bound, the successes are those of the expansion. -/
theorem comesTo_sepBy_ok (hmax : bounds.max ≠ some 0) (hmin : 0 < bounds.min) :
    (sepBy p sep bounds).ComesTo env pos s (.ok e as) t ↔
      (expandedSepBy p sep bounds).ComesTo env pos s (.ok e as) t := by
  rw [comesTo_sepBy hmax, comesTo_expandedSepBy]
  refine or_congr_right ⟨?_, ?_⟩
  · rintro ⟨f, u, -, hleast⟩
    obtain ⟨henough, -⟩ | ⟨-, h, -⟩ := atLeast_eq_some.mp hleast
    · omega
    · cases h
  · rintro ⟨f, -, h⟩
    cases h

/-- With a lower bound, the failures are those of the expansion. -/
theorem sepBy_fails_iff (hmax : bounds.max ≠ some 0) (hmin : 0 < bounds.min) :
    (∃ q t, (sepBy p sep bounds).ComesTo env pos s (.fail q) t) ↔
      ∃ q t, (expandedSepBy p sep bounds).ComesTo env pos s (.fail q) t := by
  simp only [comesTo_sepBy hmax, comesTo_expandedSepBy]
  constructor
  · rintro ⟨q, t, hlist | ⟨f, v, hfail, -⟩⟩
    · exact ⟨q, t, .inl hlist⟩
    · exact ⟨f, v, .inr ⟨f, hfail, rfl⟩⟩
  · rintro ⟨q, t, hlist | ⟨f, hfail, -⟩⟩
    · exact ⟨q, t, .inl hlist⟩
    · have hleast : atLeast bounds.min 0 pos ([] : List α) t = some (.fail pos, t.missed pos) :=
        atLeast_eq_some.mpr (.inr ⟨hmin, rfl, rfl⟩)
      exact ⟨pos, t.missed pos, .inr ⟨f, t, hfail, hleast⟩⟩

/-- With a lower bound, both fail with the same sink, if the item is self-contained. -/
theorem comesTo_sepBy_fail (hmax : bounds.max ≠ some 0) (hmin : 0 < bounds.min)
    (henv : env.SelfContained) (hp : p.SelfContained) (u : Sink) :
    (∃ q t, (sepBy p sep bounds).ComesTo env pos s (.fail q) t ∧ t.sink = u) ↔
      ∃ q t, (expandedSepBy p sep bounds).ComesTo env pos s (.fail q) t ∧ t.sink = u := by
  simp only [comesTo_sepBy hmax, comesTo_expandedSepBy]
  constructor
  · rintro ⟨q, t, hlist | ⟨f, v, hfail, hleast⟩, rfl⟩
    · exact ⟨q, t, .inl hlist, rfl⟩
    · obtain ⟨henough, -⟩ | ⟨-, -, rfl⟩ := atLeast_eq_some.mp hleast
      · omega
      · exact ⟨f, v, .inr ⟨f, hfail, rfl⟩, (sink_missed_of_fail henv hp hfail).symm⟩
  · rintro ⟨q, t, hlist | ⟨f, hfail, -⟩, rfl⟩
    · exact ⟨q, t, .inl hlist, rfl⟩
    · have hleast : atLeast bounds.min 0 pos ([] : List α) t = some (.fail pos, t.missed pos) :=
        atLeast_eq_some.mpr (.inr ⟨hmin, rfl, rfl⟩)
      exact ⟨pos, t.missed pos, .inr ⟨f, t, hfail, hleast⟩, sink_missed_of_fail henv hp hfail⟩

/-- No separator is consumed after the last item that is kept. -/
theorem sepBy_last (h : (sepBy p sep bounds).ComesTo env pos s (.ok e as) t) :
    (as = [] ∧ e = pos) ∨
      ∃ q u v a, as.getLast? = some a ∧ p.ComesTo env q u (.ok e a) v := by
  have hempty {u : State} (hleast : atLeast bounds.min 0 pos [] u = some (.ok e as, t)) :
      as = [] ∧ e = pos := by
    obtain ⟨-, h, -⟩ | ⟨-, h, -⟩ := atLeast_eq_some.mp hleast
    · cases h
      exact ⟨rfl, rfl⟩
    · cases h
  by_cases hmax : bounds.max = some 0
  · obtain ⟨n, hn⟩ := h.exists_run
    rw [run, if_pos hmax] at hn
    exact .inl (hempty hn)
  · rcases (comesTo_sepBy hmax).mp h with hlist | ⟨f, u, -, hleast⟩
    · exact .inr (Listed.last hlist)
    · exact .inl (hempty hleast)

/-- Items with separators are an item and a repetition of separator and item. With the upper bound
zero no parser is run. Else, without a lower bound, the expansion may fail, which is an empty list;
with a lower bound both succeed in the same way and fail together, and where they fail they leave
the same sink, if blocks raise only signals of their own. A list ends where its last item does. -/
theorem sepBy_expands (env : Env σ τ) (p : Parser σ τ α) (sep : Parser σ τ β) (bounds : Bounds)
    (pos : Nat) (s : State) :
    (bounds.max = some 0 → ∀ n, (sepBy p sep bounds).run env (n + 1) pos s =
      if bounds.min = 0 then some (.ok pos [], s) else some (.fail pos, s.missed pos)) ∧
    (bounds.max ≠ some 0 → bounds.min = 0 → ∀ r t,
      (sepBy p sep bounds).ComesTo env pos s r t ↔
        ((expandedSepBy p sep bounds).option []).ComesTo env pos s r t) ∧
    (bounds.max ≠ some 0 → 0 < bounds.min →
      (∀ e as t, (sepBy p sep bounds).ComesTo env pos s (.ok e as) t ↔
        (expandedSepBy p sep bounds).ComesTo env pos s (.ok e as) t) ∧
      ((∃ q t, (sepBy p sep bounds).ComesTo env pos s (.fail q) t) ↔
        ∃ q t, (expandedSepBy p sep bounds).ComesTo env pos s (.fail q) t) ∧
      (env.SelfContained → p.SelfContained → ∀ u,
        (∃ q t, (sepBy p sep bounds).ComesTo env pos s (.fail q) t ∧ t.sink = u) ↔
          ∃ q t, (expandedSepBy p sep bounds).ComesTo env pos s (.fail q) t ∧ t.sink = u)) ∧
    ∀ e as t, (sepBy p sep bounds).ComesTo env pos s (.ok e as) t →
      (as = [] ∧ e = pos) ∨
        ∃ q u v a, as.getLast? = some a ∧ p.ComesTo env q u (.ok e a) v := by
  refine ⟨run_sepBy_none, fun hmax hmin r t => comesTo_sepBy_iff_option hmax hmin,
    fun hmax hmin => ⟨fun e as t => comesTo_sepBy_ok hmax hmin, sepBy_fails_iff hmax hmin,
      fun henv hp u => ?_⟩,
    fun e as t => sepBy_last⟩
  exact comesTo_sepBy_fail hmax hmin henv hp u

/-- A separator at the end, and bounds that are met or not. -/
theorem sepBy_expands_trailing :
    let env := Env.bare (.text ['a', ',', 'a', ','])
    let p : Parser Char (Empty.elim : Empty → Type) Char := .el 'a'
    let sep : Parser Char (Empty.elim : Empty → Type) Char := .el ','
    let t : State := {
      sink := .reached 4 [.expected 4 "'a'"], entries := [⟨4, some (.expected 4 "'a'")⟩] }
    (sepBy p sep { max := some 0 }).run env 1 0 {} = some (.ok 0 [], {}) ∧
      ((expandedSepBy p sep {}).option []).ComesTo env 0 {} (.ok 3 ['a', 'a']) t ∧
      (expandedSepBy p sep { min := 2 }).ComesTo env 0 {} (.ok 3 ['a', 'a']) t ∧
      (∃ q u, (expandedSepBy p sep { min := 3 }).ComesTo env 0 {} (.fail q) u ∧
        u.sink = t.sink) ∧
      ∃ q u v, p.ComesTo env q u (.ok 3 'a') v := by
  intro env p sep t
  have henv : env.SelfContained := Env.bare_builtFrom _ _
  have hrun : (sepBy p sep {}).ComesTo env 0 {} (.ok 3 ['a', 'a']) t := ⟨6, rfl⟩
  have hmin : (sepBy p sep { min := 2 }).ComesTo env 0 {} (.ok 3 ['a', 'a']) t := ⟨6, rfl⟩
  have hfew : (sepBy p sep { min := 3 }).ComesTo env 0 {} (.fail 3) (t.missed 3) := ⟨6, rfl⟩
  obtain ⟨hnone, -⟩ := sepBy_expands env p sep { max := some 0 } 0 {}
  obtain ⟨-, hoption, -, hlast⟩ := sepBy_expands env p sep {} 0 {}
  obtain ⟨-, -, htwo, -⟩ := sepBy_expands env p sep { min := 2 } 0 {}
  obtain ⟨-, -, hthree, -⟩ := sepBy_expands env p sep { min := 3 } 0 {}
  refine ⟨hnone rfl 0, (hoption nofun rfl _ _).mp hrun, ?_, ?_, ?_⟩
  · exact ((htwo nofun (Nat.succ_pos 1)).1 _ _ _).mp hmin
  · exact ((hthree nofun (Nat.succ_pos 2)).2.2 henv trivial _).mp ⟨3, t.missed 3, hfew, rfl⟩
  · rcases hlast _ _ _ hrun with ⟨h, -⟩ | ⟨q, u, v, a, ha, hrun⟩
    · cases h
    · cases ha
      exact ⟨q, u, v, hrun⟩

/-- An item that raises a signal of another block leaves nothing in the sink. With a lower bound, a
list registers a bare failure all the same, and its expansion does not. -/
theorem sepBy_not_expands :
    let env := Env.bare (.text [])
    let given : Abort := ⟨0, false⟩
    let p : Parser Char (Empty.elim : Empty → Type) Unit := raising given
    let sep : Parser Char (Empty.elim : Empty → Type) Char := any
    let bounds : Bounds := { min := 1 }
    (∃ t, (signalOf (.el 'x') : Parser Char (Empty.elim : Empty → Type) _).run env 2 0 {} =
      some (.ok 0 (.error given), t)) ∧
      (p.LibraryBuilt ∧ sep.LibraryBuilt) ∧
      (∃ t, (sepBy p sep bounds).ComesTo env 0 {} (.fail 0) t ∧ t.sink.farthest = some 0) ∧
      (expandedSepBy p sep bounds).ComesTo env 0 {} (.fail 0) {} := by
  intro env given p sep bounds
  have hfail : (sepBy p sep bounds).ComesTo env 0 {} (.fail 0) (({} : State).missed 0) := ⟨2, rfl⟩
  exact ⟨⟨_, run_signalOf_fail rfl⟩, ⟨raising_libraryBuilt given, trivial⟩, ⟨_, hfail, rfl⟩, 3, rfl⟩

end Parser

end Backtrack
