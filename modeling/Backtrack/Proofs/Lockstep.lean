import Backtrack.Proofs.Act
import Mathlib.Data.Nat.Basic
import Mathlib.Order.Monotone.Basic

/-!
# Runs in lockstep

`Act.Lockstep R Q a b` compares two parts of runs that take the same steps, perhaps at different
positions. From states related by `R` either both exceed their bound, or both return, with results
related by `Q` and states related by `R` again.

The positions of the second run are those of the first under a strictly increasing map `φ`. A loop
goes on as long as it advances, and the two runs agree on that, as `φ` keeps the order.
-/

namespace Backtrack

variable {σ ι : Type} {τ : ι → Type} {α β γ δ ν : Type}

/-- The outcome at another position. -/
def Outcome.move (φ : Nat → Nat) : Outcome α → Outcome α
  | .ok e a => .ok (φ e) a
  | .fail q => .fail (φ q)

namespace Act

/-- From states related by `R`, both parts exceed their bound, or both return and the results are
related by `Q` and the states left by `R`. -/
def Lockstep (R : State → State → Prop) (Q : α → β → Prop) (a : Act α) (b : Act β) : Prop :=
  ∀ s t, R s t → Option.Rel (fun x y => Q x.1 y.1 ∧ R x.2 y.2) (a s) (b t)

namespace Lockstep

variable {R : State → State → Prop} {Q Q' : α → β → Prop} {a : Act α} {b : Act β}

theorem pure {x : α} {y : β} (h : Q x y) : Lockstep R Q (Pure.pure x) (Pure.pure y) :=
  fun _ _ hst => .some ⟨h, hst⟩

theorem exceeded : Lockstep R Q Act.exceeded Act.exceeded := fun _ _ _ => .none

theorem bind {f : α → Act γ} {g : β → Act δ} {P : γ → δ → Prop} (hab : Lockstep R Q a b)
    (hfg : ∀ x y, Q x y → Lockstep R P (f x) (g y)) : Lockstep R P (a >>= f) (b >>= g) := by
  intro s t hst
  have h := hab s t hst
  rw [bind_apply, bind_apply]
  generalize a s = x, b t = y at h
  cases h with
  | none => exact .none
  | some h => exact hfg _ _ h.1 _ _ h.2

variable {φ : Nat → Nat}

/-- The rule for a sequence of which the first part has an outcome. -/
theorem bindOutcome {a b : Act (Outcome α)} {f : Outcome α → Act γ} {g : Outcome α → Act δ}
    {P : γ → δ → Prop} (hab : Lockstep R (fun r r' => r' = r.move φ) a b)
    (hok : ∀ e x, Lockstep R P (f (.ok e x)) (g (.ok (φ e) x)))
    (hfail : ∀ q, Lockstep R P (f (.fail q)) (g (.fail (φ q)))) :
    Lockstep R P (a >>= f) (b >>= g) := by
  refine hab.bind fun r r' hr => ?_
  subst hr
  cases r with
  | ok e x => exact hok e x
  | fail q => exact hfail q

section Loops

variable (hφ : StrictMono φ) {item item' : Nat → Act (Outcome α)} {sep sep' : Nat → Act (Outcome β)}

include hφ

theorem manyLoop
    (hitem : ∀ q, Lockstep R (fun r r' => r' = r.move φ) (item q) (item' (φ q))) (n : Nat)
    (limit : Option Nat) (pos : Nat) :
    Lockstep R (fun x y => y = (x.1, φ x.2)) (Backtrack.manyLoop item n limit pos)
      (Backtrack.manyLoop item' n limit (φ pos)) := by
  induction n generalizing limit pos with
  | zero => exact exceeded
  | succ n ih =>
    rw [Backtrack.manyLoop, Backtrack.manyLoop]
    split
    · exact pure rfl
    · refine (hitem pos).bindOutcome (fun q a => ?_) fun q => pure rfl
      simp only [hφ.lt_iff_lt]
      split
      · exact (ih _ q).bind fun x y hxy => pure (by rw [hxy])
      · exact pure rfl

theorem foldLoop
    (hitem : ∀ q, Lockstep R (fun r r' => r' = r.move φ) (item q) (item' (φ q))) (f : β → α → β)
    (n : Nat) (limit : Option Nat) (acc : β) (count pos : Nat) :
    Lockstep R (fun x y => y = (x.1, x.2.1, φ x.2.2))
      (Backtrack.foldLoop item f n limit acc count pos)
      (Backtrack.foldLoop item' f n limit acc count (φ pos)) := by
  induction n generalizing limit acc count pos with
  | zero => exact exceeded
  | succ n ih =>
    rw [Backtrack.foldLoop, Backtrack.foldLoop]
    split
    · exact pure rfl
    · refine (hitem pos).bindOutcome (fun q a => ?_) fun q => pure rfl
      simp only [hφ.lt_iff_lt]
      split
      · exact ih _ _ _ q
      · exact pure rfl

theorem sepLoop
    (hitem : ∀ q, Lockstep R (fun r r' => r' = r.move φ) (item q) (item' (φ q)))
    (hsep : ∀ q, Lockstep R (fun r r' => r' = r.move φ) (sep q) (sep' (φ q))) (n : Nat)
    (limit : Option Nat) (pos : Nat) :
    Lockstep R (fun x y => y = (x.1, φ x.2)) (Backtrack.sepLoop item sep n limit pos)
      (Backtrack.sepLoop item' sep' n limit (φ pos)) := by
  induction n generalizing limit pos with
  | zero => exact exceeded
  | succ n ih =>
    rw [Backtrack.sepLoop, Backtrack.sepLoop]
    split
    · exact pure rfl
    · refine (hsep pos).bindOutcome (fun q b => ?_) fun q => pure rfl
      refine (hitem q).bindOutcome (fun e a => ?_) fun e => pure rfl
      simp only [hφ.lt_iff_lt]
      split
      · exact (ih _ e).bind fun x y hxy => pure (by rw [hxy])
      · exact pure rfl

end Loops

section Lists

variable {call call' : Call σ τ}

theorem firstOf : ∀ (ps : Parsers σ τ α), (∀ p ∈ ps.toList, ∀ q,
      Lockstep R (fun r r' => r' = r.move φ) (call p q) (call' p (φ q))) →
    ∀ pos, Lockstep R (fun r r' => r' = r.move φ) (ps.firstOf call pos) (ps.firstOf call' (φ pos))
  | .nil, _, pos => pure rfl
  | .cons p ps, hps, pos => by
    rw [Parsers.toList, List.forall_mem_cons] at hps
    rw [Parsers.firstOf, Parsers.firstOf]
    exact (hps.1 pos).bindOutcome (fun q a => pure rfl) fun q => firstOf ps hps.2 pos

theorem inOrder (allowPartial : Bool) : ∀ (ps : Parsers σ τ α), (∀ p ∈ ps.toList, ∀ q,
      Lockstep R (fun r r' => r' = r.move φ) (call p q) (call' p (φ q))) →
    ∀ pos, Lockstep R (fun r r' => r' = r.move φ) (ps.inOrder call allowPartial pos)
      (ps.inOrder call' allowPartial (φ pos))
  | .nil, _, pos => pure rfl
  | .cons p ps, hps, pos => by
    rw [Parsers.toList, List.forall_mem_cons] at hps
    rw [Parsers.inOrder, Parsers.inOrder]
    refine (hps.1 pos).bindOutcome (fun q a => ?_) fun q => ?_
    · exact (inOrder allowPartial ps hps.2 q).bindOutcome (fun e as => pure rfl) fun e => pure rfl
    · cases allowPartial with
      | true => exact pure rfl
      | false => exact pure rfl

end Lists

end Lockstep

end Act

end Backtrack
