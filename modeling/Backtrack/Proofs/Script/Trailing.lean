import Backtrack.Proofs.Isolation
import Backtrack.Proofs.Separators
import Backtrack.Proofs.Steps
import Backtrack.Proofs.Termination.Grammars
import Backtrack.Proofs.Termination.Repetition

/-!
# A separator at the end

`Script.sepByTrailing` is a block that repeats an item and a separator behind it, where a separator
that is missing ends the loop and keeps the item. `Parser.sepBy` repeats a separator and an item
behind it. The passes of the two loops are shifted against each other, but both make the same runs
in the same order: an item, and then separators and items in turn (`Parser.Follows`). They differ in
where they stop if a separator has no item behind it: `sepBy` goes back to the last item, and the
block stays behind the separator (`Script.comesTo_sepByTrailing_iff`).

The item has to advance whenever it succeeds. Else the one loop may stop at a pass with which the
other goes on.
-/

namespace Backtrack

open Act

section Generic

variable {σ ι : Type} {τ : ι → Type} {α β ν : Type} [BEq σ] [Describe σ] {env : Env σ τ}

/-! ## Runs from other states -/

/-- What a library-built parser returns does not depend on the state. -/
theorem Parser.ComesTo.of_state {p : Parser σ τ α} {pos : Nat} {s t : State} {r : Outcome α}
    (henv : env.LibraryBuilt) (hp : p.LibraryBuilt) (h : p.ComesTo env pos s r t) (s' : State) :
    ∃ t', p.ComesTo env pos s' r t' := by
  obtain ⟨n, hn⟩ := h
  have hs := run_map_sink henv hp n pos s
  have hs' := run_map_sink henv hp n pos s'
  dsimp only at hn
  rw [hn, Option.map_some] at hs
  obtain ⟨⟨_, u⟩, halone, heq⟩ := Option.map_eq_some_iff.mp hs.symm
  obtain ⟨rfl, -⟩ := Prod.mk.inj heq
  rw [halone, Option.map_some] at hs'
  obtain ⟨⟨_, t'⟩, hrun, heq⟩ := Option.map_eq_some_iff.mp hs'
  obtain ⟨rfl, -⟩ := Prod.mk.inj heq
  exact ⟨t', n, hrun⟩

/-! ## Items and separators -/

namespace Parser

variable {p : Parser σ τ α} {sep : Parser σ τ β} {pos e q : Nat} {as : List α} {s t : State}

/-- Behind an item that ended at `pos`, separators and items in turn find the values `as`. The last
item ends at `e`, and a separator behind it at `q`; without one, `q` is `e`. -/
inductive Follows (env : Env σ τ) (p : Parser σ τ α) (sep : Parser σ τ β) :
    Nat → State → List α → Nat → Nat → State → Prop where
  | noSeparator {pos f : Nat} {s t : State} (hsep : sep.ComesTo env pos s (.fail f) t) :
    Follows env p sep pos s [] pos pos t
  | noItem {pos q f : Nat} {b : β} {s u t : State} (hsep : sep.ComesTo env pos s (.ok q b) u)
    (hitem : p.ComesTo env q u (.fail f) t) : Follows env p sep pos s [] pos q t
  | item {pos q q' e e' : Nat} {b : β} {a : α} {as : List α} {s u v t : State}
    (hsep : sep.ComesTo env pos s (.ok q b) u) (hitem : p.ComesTo env q u (.ok e a) v)
    (hrest : Follows env p sep e v as e' q' t) : Follows env p sep pos s (a :: as) e' q' t

/-- Behind a list that ends at `e` there is no separator, and `q` is `e`, or there is one that ends
at `q` and has no item behind it. -/
def TrailsTo (env : Env σ τ) (p : Parser σ τ α) (sep : Parser σ τ β) (e : Nat) (s : State)
    (q : Nat) : Prop :=
  (∃ f t, sep.ComesTo env e s (.fail f) t ∧ q = e) ∨
    ∃ b u f t, sep.ComesTo env e s (.ok q b) u ∧ p.ComesTo env q u (.fail f) t

theorem TrailsTo.unique {q' : Nat} (h : TrailsTo env p sep e s q) (h' : TrailsTo env p sep e s q') :
    q = q' := by
  obtain ⟨f, t, hs, rfl⟩ | ⟨b, u, f, t, hs, -⟩ := h <;>
    obtain ⟨f', t', hs', rfl⟩ | ⟨b', u', f', t', hs', -⟩ := h' <;>
      cases hs.unique hs' |>.1 <;> rfl

theorem Follows.trailsTo (henv : env.LibraryBuilt) (hp : p.LibraryBuilt) (hsep : sep.LibraryBuilt)
    (h : Follows env p sep pos s as e q t) (s' : State) : TrailsTo env p sep e s' q := by
  induction h with
  | noSeparator hs =>
    obtain ⟨t', hs'⟩ := hs.of_state henv hsep s'
    exact .inl ⟨_, t', hs', rfl⟩
  | noItem hs hitem =>
    obtain ⟨u', hs'⟩ := hs.of_state henv hsep s'
    obtain ⟨t', hitem'⟩ := hitem.of_state henv hp u'
    exact .inr ⟨_, u', _, t', hs', hitem'⟩
  | item _ _ _ ih => exact ih

/-- A separator and an item together, or neither of them. -/
theorem comesTo_andThen_fail {f : Nat} :
    (sep.andThen p).ComesTo env pos s (.fail f) t ↔
      sep.ComesTo env pos s (.fail f) t ∨
        ∃ q b u, sep.ComesTo env pos s (.ok q b) u ∧ p.ComesTo env q u (.fail f) t := by
  rw [andThen, comesTo_andMap]
  constructor
  · rintro (⟨q, b, u, r, hsep, hp, h⟩ | ⟨_, hsep, h⟩)
    · cases r with
      | ok e a => cases h
      | fail g =>
        cases h
        exact .inr ⟨q, b, u, hsep, hp⟩
    · cases h
      exact .inl hsep
  · rintro (hsep | ⟨q, b, u, hsep, hp⟩)
    · exact .inr ⟨f, hsep, rfl⟩
    · exact .inl ⟨q, b, u, .fail f, hsep, hp, rfl⟩

/-- A separator and an item advance together, as the item does. -/
theorem lt_of_item {b : β} {a : α} {u v : State} (henv : env.LibraryBuilt) (hsep : sep.LibraryBuilt)
    (hadv : p.Consumes env) (h : sep.ComesTo env pos s (.ok q b) u)
    (hitem : p.ComesTo env q u (.ok e a) v) : pos < e :=
  Nat.lt_of_le_of_lt (h.ahead henv hsep).1 (hadv q e a u v hitem)

/-- So do an item and a separator. -/
theorem lt_of_separator {b : β} {a : α} {u v : State} (henv : env.LibraryBuilt)
    (hsep : sep.LibraryBuilt) (hadv : p.Consumes env) (hitem : p.ComesTo env pos s (.ok e a) u)
    (h : sep.ComesTo env e u (.ok q b) v) : pos < q :=
  Nat.lt_of_lt_of_le (hadv pos e a s u hitem) (h.ahead henv hsep).1

/-- What a separator and an item together find as often as they can. -/
theorem repeats_iff_follows (henv : env.LibraryBuilt) (hsep : sep.LibraryBuilt)
    (hadv : p.Consumes env) :
    (sep.andThen p).Repeats env none pos s as e t ↔ ∃ q, Follows env p sep pos s as e q t := by
  constructor
  · intro h
    induction as generalizing pos s with
    | nil =>
      rcases repeats_iff.mp h with ⟨h, -⟩ | ⟨-, -, rfl, r, hrun, hstuck⟩ |
        ⟨-, _, _, _, _, -, -, -, h⟩
      · cases h
      · cases r with
        | ok e' a =>
          -- An item that succeeds goes on with the repetition.
          obtain ⟨q, b, u, hs, hitem⟩ := comesTo_andThen_ok.mp hrun
          have hlt := lt_of_item henv hsep hadv hs hitem
          exact absurd (hstuck e' a rfl) (Nat.not_le_of_lt hlt)
        | fail f =>
          rcases comesTo_andThen_fail.mp hrun with hs | ⟨q, b, u, hs, hitem⟩
          · exact ⟨e, .noSeparator hs⟩
          · exact ⟨q, .noItem hs hitem⟩
      · cases h
    | cons a as ih =>
      rcases repeats_iff.mp h with ⟨h, -⟩ | ⟨-, h, -⟩ | ⟨-, e', a', v, as', hrun, -, hrest, h⟩
      · cases h
      · cases h
      · cases h
        obtain ⟨q, b, u, hs, hitem⟩ := comesTo_andThen_ok.mp hrun
        obtain ⟨q', hfollows⟩ := ih hrest
        exact ⟨q', .item hs hitem hfollows⟩
  · rintro ⟨q, h⟩
    induction h with
    | @noSeparator pos f s t hs =>
      have hrun : (sep.andThen p).ComesTo env pos s (.fail f) t :=
        comesTo_andThen_fail.mpr (.inl hs)
      exact repeats_iff.mpr (.inr (.inl ⟨nofun, rfl, rfl, _, hrun, nofun⟩))
    | @noItem pos q f b s u t hs hitem =>
      have hrun : (sep.andThen p).ComesTo env pos s (.fail f) t :=
        comesTo_andThen_fail.mpr (.inr ⟨q, b, u, hs, hitem⟩)
      exact repeats_iff.mpr (.inr (.inl ⟨nofun, rfl, rfl, _, hrun, nofun⟩))
    | item hs hitem _ hrest =>
      have hrun := comesTo_andThen_ok.mpr ⟨_, _, _, hs, hitem⟩
      have hlt := lt_of_item henv hsep hadv hs hitem
      exact repeats_iff.mpr (.inr (.inr ⟨nofun, _, _, _, _, hrun, hlt, hrest, rfl⟩))

/-- Items with separators in between: none, or one and those that follow it. -/
theorem comesTo_sepBy_iff_follows (henv : env.LibraryBuilt) (hsep : sep.LibraryBuilt)
    (hadv : p.Consumes env) {r : Outcome (List α)} :
    (sepBy p sep {}).ComesTo env pos s r t ↔
      (∃ f, p.ComesTo env pos s (.fail f) t ∧ r = .ok pos []) ∨
        ∃ e a u as e' q, p.ComesTo env pos s (.ok e a) u ∧ Follows env p sep e u as e' q t ∧
          r = .ok e' (a :: as) := by
  have hmax : ({} : Bounds).max ≠ some 0 := nofun
  rw [comesTo_sepBy hmax, or_comm]
  constructor
  · rintro (⟨f, u, hitem, hend⟩ | ⟨e, a, u, as, e', v, hitem, hrest, hend⟩)
    · obtain ⟨-, rfl, rfl⟩ | ⟨hfew, -⟩ := atLeast_eq_some.mp hend
      · exact .inl ⟨f, hitem, rfl⟩
      · cases hfew
    · obtain ⟨-, rfl, rfl⟩ | ⟨hfew, -⟩ := atLeast_eq_some.mp hend
      · obtain ⟨q, hfollows⟩ := (repeats_iff_follows henv hsep hadv).mp hrest
        exact .inr ⟨e, a, u, as, e', q, hitem, hfollows, rfl⟩
      · cases hfew
  · rintro (⟨f, hitem, rfl⟩ | ⟨e, a, u, as, e', q, hitem, hfollows, rfl⟩)
    · exact .inl ⟨f, t, hitem, atLeast_eq_some.mpr (.inl ⟨Nat.zero_le _, rfl, rfl⟩)⟩
    · have hrest := (repeats_iff_follows henv hsep hadv).mpr ⟨q, hfollows⟩
      exact .inr ⟨e, a, u, as, e', t, hitem, hrest,
        atLeast_eq_some.mpr (.inl ⟨Nat.zero_le _, rfl, rfl⟩)⟩

end Parser

/-! ## Passes -/

namespace Block

variable {body : Block σ τ ν Unit} {pos q : Nat} {v w : ν} {s t : State}

/-- From `pos` on and with the variables `v`, the steps end with `r` at `q`. -/
def EndsWith (env : Env σ τ) (body : Block σ τ ν α) (pos : Nat) (v : ν) (s : State)
    (r : Except Abort α) (q : Nat) (w : ν) (t : State) : Prop :=
  Returns (fun n => body.execIn env n pos v) s (r, q, w) t

/-- The loop of passes stops after a pass that fails, or that does not advance, and goes on after
one that does. -/
theorem passes_iff :
    Passes env body pos v s q w t ↔
      (∃ e q', body.EndsWith env pos v s (.error e) q' w t ∧ q = resumed e pos q') ∨
      (body.EndsWith env pos v s (.ok ()) q w t ∧ q ≤ pos) ∨
      ∃ q' w' u, body.EndsWith env pos v s (.ok ()) q' w' u ∧ pos < q' ∧
        Passes env body q' w' u q w t := by
  have hgrowing (pos : Nat) (v : ν) : Growing fun n => body.execIn env n pos v :=
    Simulates.growing fun _ _ hmn => execIn_simulates_of_le hmn body pos v
  have hloop {n : Nat} {x : Except Abort Unit × Nat × ν} {u : State}
      (hpass : body.execIn env n pos v s = some (x, u))
      (hafter : afterPass (body.execIn env (n + 1)) n pos x u = some ((q, w), t)) :
      Passes env body pos v s q w t := by
    refine ⟨n + 1, ?_⟩
    dsimp only
    rw [passLoop_succ]
    exact bind_eq_some.mpr ⟨x, u, hgrowing pos v n _ (Nat.le_succ n) s _ hpass, hafter⟩
  constructor
  · rintro ⟨n, h⟩
    dsimp only at h
    cases n with
    | zero => cases h
    | succ n =>
      rw [passLoop_succ] at h
      obtain ⟨⟨r, q', w'⟩, u, hpass, h⟩ := bind_eq_some.mp h
      cases r with
      | error e =>
        cases h
        exact .inl ⟨e, q', ⟨n + 1, hpass⟩, rfl⟩
      | ok a =>
        rw [afterPass] at h
        by_cases hlt : pos < q'
        · rw [if_pos hlt] at h
          have hrest := (Simulates.passLoop (execIn_simulates_of_le (Nat.le_refl (n + 1)) body)
            (Nat.le_succ n) q' w').eq_some h
          exact .inr (.inr ⟨q', w', u, ⟨n + 1, hpass⟩, hlt, n + 1, hrest⟩)
        · rw [if_neg hlt] at h
          cases h
          exact .inr (.inl ⟨⟨n + 1, hpass⟩, Nat.le_of_not_lt hlt⟩)
  · rintro (⟨e, q', ⟨n, hpass⟩, rfl⟩ | ⟨⟨n, hpass⟩, hle⟩ | ⟨q', w', u, hpass, hlt, hrest⟩)
    · exact hloop hpass rfl
    · refine hloop hpass ?_
      rw [afterPass, if_neg (Nat.not_lt_of_le hle)]
      rfl
    · obtain ⟨n, hpass, hrest⟩ := Returns.both (hgrowing pos v) (growing_passLoop env body q' w')
        hpass hrest
      refine hloop hpass ?_
      rw [afterPass, if_pos hlt]
      exact (Simulates.passLoop (execIn_simulates_of_le (Nat.le_succ n) body) (Nat.le_refl n) q'
        w').eq_some hrest

end Block

end Generic

/-! ## The block -/

open Block
open Backtrack.Parser (Follows TrailsTo Reliable comesTo_sepBy_iff_follows growing_run
  lt_of_separator)

namespace Script

variable {ι : Type} {τ : ι → Type} {α β : Type} {env : Env Char τ} {p : Parser Char τ α}
  {sep : Parser Char τ β} {pos q : Nat} {s t : State} {v w : List α}

/-- A pass of the block: an item, which is put down, and a separator. -/
def itemPass (p : Parser Char τ α) (sep : Parser Char τ β) : Block Char τ (List α) Unit := do
  let a ← Block.step p false
  Block.modify (· ++ [a])
  let _ ← Block.step sep true

theorem exec_itemPass (n : Nat) : (itemPass p sep).execIn env n pos v = (do
    match ← p.run env n pos with
    | .ok e a =>
      match ← sep.run env n e with
      | .ok q _ => return (.ok (), q, v ++ [a])
      | .fail _ => return (.error ⟨e, true⟩, e, v ++ [a])
    | .fail _ => return (.error ⟨pos, false⟩, pos, v)) := by
  rw [itemPass, execIn, exec_step_bind]
  refine bind_congr_outcome (fun e a => ?_) fun _ => rfl
  dsimp only
  rw [exec_modify_bind, exec_step_bind]
  exact bind_congr_outcome (fun _ _ => rfl) fun _ => rfl

/-- A pass fails at its start without an item, and behind the item without a separator. The item
has been put down by then. -/
theorem itemPass_endsWith {r : Except Abort Unit} :
    (itemPass p sep).EndsWith env pos v s r q w t ↔
      (∃ f, p.ComesTo env pos s (.fail f) t ∧ r = .error ⟨pos, false⟩ ∧ q = pos ∧ w = v) ∨
        ∃ e a u, p.ComesTo env pos s (.ok e a) u ∧ w = v ++ [a] ∧
          ((∃ f, sep.ComesTo env e u (.fail f) t ∧ r = .error ⟨e, true⟩ ∧ q = e) ∨
            ∃ b, sep.ComesTo env e u (.ok q b) t ∧ r = .ok ()) := by
  simp only [EndsWith, exec_itemPass]
  constructor
  · rintro ⟨n, h⟩
    obtain ⟨x, u, hitem, h⟩ := bind_eq_some.mp h
    cases x with
    | fail f =>
      cases h
      exact .inl ⟨f, ⟨n, hitem⟩, rfl, rfl, rfl⟩
    | ok e a =>
      obtain ⟨y, _, hs, h⟩ := bind_eq_some.mp h
      refine .inr ⟨e, a, u, ⟨n, hitem⟩, ?_⟩
      cases y with
      | fail f =>
        cases h
        exact ⟨rfl, .inl ⟨f, ⟨n, hs⟩, rfl, rfl⟩⟩
      | ok q b =>
        cases h
        exact ⟨rfl, .inr ⟨b, ⟨n, hs⟩, rfl⟩⟩
  · rintro (⟨f, ⟨n, hitem⟩, rfl, rfl, rfl⟩ | ⟨e, a, u, hitem, rfl, h⟩)
    · exact ⟨n, bind_eq_some.mpr ⟨_, t, hitem, rfl⟩⟩
    · have hboth {y : Outcome β} (hs : sep.ComesTo env e u y t) :
          ∃ n, p.run env n pos s = some (.ok e a, u) ∧ sep.run env n e u = some (y, t) :=
        Returns.both (growing_run env p pos) (growing_run env sep e) hitem hs
      obtain ⟨f, hs, rfl, rfl⟩ | ⟨b, hs, rfl⟩ := h
      · obtain ⟨n, hitem, hs⟩ := hboth hs
        exact ⟨n, bind_eq_some.mpr ⟨_, u, hitem, bind_eq_some.mpr ⟨_, t, hs, rfl⟩⟩⟩
      · obtain ⟨n, hitem, hs⟩ := hboth hs
        exact ⟨n, bind_eq_some.mpr ⟨_, u, hitem, bind_eq_some.mpr ⟨_, t, hs, rfl⟩⟩⟩

/-- The passes put down an item and those that follow it, and stop behind the last separator. -/
theorem follows_of_passes (henv : env.LibraryBuilt) (hp : p.LibraryBuilt) (hsep : sep.LibraryBuilt)
    (hadv : p.Consumes env) (h : Passes env (itemPass p sep) pos v s q w t) :
    (∃ f, p.ComesTo env pos s (.fail f) t ∧ q = pos ∧ w = v) ∨
      ∃ e a u as e', p.ComesTo env pos s (.ok e a) u ∧ Follows env p sep e u as e' q t ∧
        w = v ++ a :: as := by
  -- Each pass that goes on is nearer to the end of the source.
  induction hd : env.source.len - pos using Nat.strongRecOn generalizing pos v s with
  | _ d ih =>
    rcases passes_iff.mp h with ⟨e, q', hpass, rfl⟩ | ⟨hpass, hle⟩ | ⟨q', w', u, hpass, _, hrest⟩
    · obtain ⟨f, hitem, herr, rfl, rfl⟩ | ⟨e', a, u, hitem, rfl, hend⟩ := itemPass_endsWith.mp hpass
      · cases herr
        exact .inl ⟨f, hitem, rfl, rfl⟩
      · obtain ⟨f, hs, herr, rfl⟩ | ⟨b, -, herr⟩ := hend
        · cases herr
          exact .inr ⟨_, a, u, [], _, hitem, .noSeparator hs, rfl⟩
        · cases herr
    · obtain ⟨f, -, herr, -⟩ | ⟨e, a, u, hitem, -, ⟨f, -, herr, -⟩ | ⟨b, hs, -⟩⟩ :=
        itemPass_endsWith.mp hpass
      · cases herr
      · cases herr
      · exact absurd hle (Nat.not_le_of_lt (lt_of_separator henv hsep hadv hitem hs))
    · obtain ⟨f, -, herr, -⟩ | ⟨e, a, u', hitem, rfl, ⟨f, -, herr, -⟩ | ⟨b, hs, -⟩⟩ :=
        itemPass_endsWith.mp hpass
      · cases herr
      · cases herr
      · have hahead := (hitem.ahead henv hp).trans (hs.ahead henv hsep)
        have hnearer := hahead.sub_lt (lt_of_separator henv hsep hadv hitem hs)
        rcases ih _ (hd ▸ hnearer) hrest rfl with
          ⟨f, hnext, rfl, rfl⟩ | ⟨e', a', u'', as, e'', hnext, hfollows, rfl⟩
        · exact .inr ⟨e, a, u', [], e, hitem, .noItem hs hnext, rfl⟩
        · refine .inr ⟨e, a, u', a' :: as, e'', hitem, .item hs hnext hfollows, ?_⟩
          rw [List.append_assoc, List.singleton_append]

/-- Without an item, nothing is put down. -/
theorem passes_of_fail {f : Nat} (hitem : p.ComesTo env pos s (.fail f) t) :
    Passes env (itemPass p sep) pos v s pos v t := by
  have hpass : (itemPass p sep).EndsWith env pos v s (.error ⟨pos, false⟩) pos v t :=
    itemPass_endsWith.mpr (.inl ⟨f, hitem, rfl, rfl, rfl⟩)
  exact passes_iff.mpr (.inl ⟨_, _, hpass, rfl⟩)

/-- An item and those that follow it are put down. -/
theorem passes_of_follows {e e' : Nat} {a : α} {as : List α} {u : State} (henv : env.LibraryBuilt)
    (hsep : sep.LibraryBuilt) (hadv : p.Consumes env) (hitem : p.ComesTo env pos s (.ok e a) u)
    (h : Follows env p sep e u as e' q t) :
    Passes env (itemPass p sep) pos v s q (v ++ a :: as) t := by
  induction h generalizing pos v s a with
  | @noSeparator e f u t hs =>
    have hpass : (itemPass p sep).EndsWith env pos v s (.error ⟨e, true⟩) e (v ++ [a]) t :=
      itemPass_endsWith.mpr (.inr ⟨e, a, u, hitem, rfl, .inl ⟨f, hs, rfl, rfl⟩⟩)
    exact passes_iff.mpr (.inl ⟨_, _, hpass, rfl⟩)
  | @noItem e q f b u u' t hs hnext =>
    have hpass : (itemPass p sep).EndsWith env pos v s (.ok ()) q (v ++ [a]) u' :=
      itemPass_endsWith.mpr (.inr ⟨e, a, u, hitem, rfl, .inr ⟨b, hs, rfl⟩⟩)
    have hlt := lt_of_separator henv hsep hadv hitem hs
    exact passes_iff.mpr (.inr (.inr ⟨q, _, u', hpass, hlt, passes_of_fail hnext⟩))
  | @item e q q' e' e'' b a' as u u' v' t hs hnext _ ih =>
    have hpass : (itemPass p sep).EndsWith env pos v s (.ok ()) q (v ++ [a]) u' :=
      itemPass_endsWith.mpr (.inr ⟨e, a, u, hitem, rfl, .inr ⟨b, hs, rfl⟩⟩)
    have hlt := lt_of_separator henv hsep hadv hitem hs
    have hrest := ih hnext (v := v ++ [a])
    rw [List.append_assoc] at hrest
    exact passes_iff.mpr (.inr (.inr ⟨q, _, u', hpass, hlt, hrest⟩))

/-- The block comes to what its passes have put down. It never fails. -/
theorem comesTo_sepByTrailing {r : Outcome (List α)} :
    (sepByTrailing p sep).ComesTo env pos s r t ↔
      ∃ q w, Passes env (itemPass p sep) pos [] s q w t ∧ r = .ok q w := by
  have hrun (n : Nat) : (sepByTrailing p sep).run env (n + 1) pos = (do
      let x ← passLoop ((itemPass p sep).execIn env n) n pos []
      return .ok x.1 x.2) := by
    rw [sepByTrailing, Parser.run, Block.bind_eq, exec_bind, Block.passes, exec, bind_assoc,
      bind_assoc]
    refine bind_congr fun x => ?_
    dsimp only
    rw [exec, pure_bind, execThen, Block.vars, exec, exec, pure_bind]
  constructor
  · intro h
    obtain ⟨n, h⟩ := h.exists_run
    rw [hrun] at h
    obtain ⟨⟨q, w⟩, u, hpasses, h⟩ := bind_eq_some.mp h
    cases h
    exact ⟨q, w, ⟨n, hpasses⟩, rfl⟩
  · rintro ⟨q, w, ⟨n, hpasses⟩, rfl⟩
    refine .of_run (n := n + 1) ?_
    rw [hrun]
    exact bind_eq_some.mpr ⟨(q, w), t, hpasses, rfl⟩

/-! ## The two loops -/

/-- The block comes to the list of `sepBy`, behind a separator if there is one at its end. -/
theorem comesTo_sepByTrailing_iff (henv : env.LibraryBuilt) (hp : p.LibraryBuilt)
    (hsep : sep.LibraryBuilt) (hadv : p.Consumes env) {r : Outcome (List α)} :
    (sepByTrailing p sep).ComesTo env pos s r t ↔
      ∃ e as q, (Parser.sepBy p sep {}).ComesTo env pos s (.ok e as) t ∧ r = .ok q as ∧
        (as = [] → q = pos) ∧ (as ≠ [] → ∀ u, TrailsTo env p sep e u q) := by
  rw [comesTo_sepByTrailing]
  constructor
  · rintro ⟨q, as, hpasses, rfl⟩
    rcases follows_of_passes henv hp hsep hadv hpasses with
      ⟨f, hitem, rfl, rfl⟩ | ⟨e, a, u, as, e', hitem, hfollows, rfl⟩
    · have hlist := (comesTo_sepBy_iff_follows henv hsep hadv).mpr (.inl ⟨f, hitem, rfl⟩)
      exact ⟨q, [], q, hlist, rfl, fun _ => rfl, fun h => absurd rfl h⟩
    · have hlist := (comesTo_sepBy_iff_follows henv hsep hadv).mpr
        (.inr ⟨e, a, u, as, e', q, hitem, hfollows, rfl⟩)
      exact ⟨e', a :: as, q, hlist, rfl, nofun, fun _ => hfollows.trailsTo henv hp hsep⟩
  · rintro ⟨e, as, q, hlist, rfl, hnone, hsome⟩
    rcases (comesTo_sepBy_iff_follows henv hsep hadv).mp hlist with
      ⟨f, hitem, h⟩ | ⟨e, a, u, as, e', q', hitem, hfollows, h⟩
    · cases h
      obtain rfl := hnone rfl
      exact ⟨q, [], passes_of_fail hitem, rfl⟩
    · cases h
      obtain rfl := (hsome nofun s).unique (hfollows.trailsTo henv hp hsep s)
      exact ⟨q, a :: as, passes_of_follows henv hsep hadv hitem hfollows, rfl⟩

/-- Where `sepBy` returns, the block does. -/
theorem sepByTrailing_of_sepBy (henv : env.LibraryBuilt) (hsep : sep.LibraryBuilt)
    (hadv : p.Consumes env) {r : Outcome (List α)}
    (h : (Parser.sepBy p sep {}).ComesTo env pos s r t) :
    ∃ e q as, r = .ok e as ∧ (sepByTrailing p sep).ComesTo env pos s (.ok q as) t := by
  rcases (comesTo_sepBy_iff_follows henv hsep hadv).mp h with
    ⟨f, hitem, rfl⟩ | ⟨e, a, u, as, e', q, hitem, hfollows, rfl⟩
  · have hpasses : Passes env (itemPass p sep) pos [] s pos [] t := passes_of_fail hitem
    exact ⟨pos, pos, [], rfl, comesTo_sepByTrailing.mpr ⟨pos, [], hpasses, rfl⟩⟩
  · have hpasses : Passes env (itemPass p sep) pos [] s q (a :: as) t :=
      passes_of_follows henv hsep hadv hitem hfollows
    exact ⟨e', q, a :: as, rfl, comesTo_sepByTrailing.mpr ⟨q, a :: as, hpasses, rfl⟩⟩

/-- The block is `sepBy` and perhaps a separator behind it: it never fails, finds the same list,
leaves the same state, returns whenever `sepBy` does, and stays where it is without an item. -/
theorem sepByTrailing_refines_sepBy (henv : env.LibraryBuilt) (hp : p.LibraryBuilt)
    (hsep : sep.LibraryBuilt) (hadv : p.Consumes env) (pos : Nat) (s : State) :
    (∀ r t, (sepByTrailing p sep).ComesTo env pos s r t ↔
      ∃ e as q, (Parser.sepBy p sep {}).ComesTo env pos s (.ok e as) t ∧ r = .ok q as ∧
        (as = [] → q = pos) ∧ (as ≠ [] → ∀ u, TrailsTo env p sep e u q)) ∧
    (∀ r t, (Parser.sepBy p sep {}).ComesTo env pos s r t →
      ∃ e q as, r = .ok e as ∧ (sepByTrailing p sep).ComesTo env pos s (.ok q as) t) ∧
    (∀ f t, p.ComesTo env pos s (.fail f) t →
      (sepByTrailing p sep).ComesTo env pos s (.ok pos []) t) ∧
    (p.Reliable env pos → sep.Reliable env pos →
      ∃ q as t, (sepByTrailing p sep).ComesTo env pos s (.ok q as) t) := by
  refine ⟨fun r t => comesTo_sepByTrailing_iff henv hp hsep hadv,
    fun r t => sepByTrailing_of_sepBy henv hsep hadv, fun f t hitem => ?_, fun hp' hsep' => ?_⟩
  · exact comesTo_sepByTrailing.mpr ⟨pos, [], passes_of_fail hitem, rfl⟩
  · obtain ⟨r, t, hlist⟩ := (hp'.sepBy henv hsep' {}).run s
    obtain ⟨e, q, as, -, hblock⟩ := sepByTrailing_of_sepBy henv hsep hadv hlist
    exact ⟨q, as, t, hblock⟩

/-- The last comma of `a,a,` belongs to the block and not to `sepBy`. -/
theorem sepByTrailing_refines_sepBy_commas :
    ∃ t, (Parser.sepBy (.el 'a') (.el ',') {}).ComesTo (Script.env ['a', ',', 'a', ',']) 0 {}
        (.ok 3 ['a', 'a']) t ∧
      (sepByTrailing (.el 'a') (.el ',')).ComesTo (Script.env ['a', ',', 'a', ',']) 0 {}
        (.ok 4 ['a', 'a']) t := by
  have hitem : (Parser.el 'a' : Grammar Char).LibraryBuilt := trivial
  have hcomma : (Parser.el ',' : Grammar Char).LibraryBuilt := trivial
  have hrefines := sepByTrailing_refines_sepBy (env_built ['a', ',', 'a', ',']) hitem hcomma
    (.el 'a') 0 {}
  obtain ⟨t, hlist⟩ : ∃ t, (Parser.sepBy (.el 'a') (.el ',') {}).ComesTo
      (Script.env ['a', ',', 'a', ',']) 0 {} (.ok 3 ['a', 'a']) t := ⟨_, 10, rfl⟩
  refine ⟨t, hlist, (hrefines.1 _ t).mpr ⟨3, _, 4, hlist, rfl, nofun, fun _ u => ?_⟩⟩
  exact .inr ⟨',', u, 4, _, ⟨1, rfl⟩, ⟨1, rfl⟩⟩

end Script

end Backtrack
