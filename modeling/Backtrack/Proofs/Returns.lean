import Backtrack.Proofs.Steps

/-!
# What a part of a run returns

Two kinds of statements about an `Act` that look at its result only, whatever the state is that it
starts from. It yields a result of a certain kind if it returns one from every state
(`Act.Yields`). It gives only results of that kind if it never returns another (`Act.Gives`).
-/

namespace Backtrack

variable {σ : Type} {α β : Type}

open Act

theorem Outcome.state?_map (f : α → β) (r : Outcome α) :
    (r.map f).state? = r.state?.map fun (q, a) => (q, f a) := by
  cases r <;> rfl

namespace Act

/-- From every state, the part returns something that satisfies `Q`. -/
def Yields (a : Act α) (Q : α → Prop) : Prop := ∀ s, ∃ x t, a s = some (x, t) ∧ Q x

/-- From no state does the part return something that does not satisfy `Q`. -/
def Gives (a : Act α) (Q : α → Prop) : Prop := ∀ s x t, a s = some (x, t) → Q x

namespace Yields

variable {a : Act α} {Q : α → Prop}

theorem pure {x : α} (h : Q x) : (Pure.pure x : Act α).Yields Q := fun s => ⟨x, s, rfl, h⟩

theorem bind {f : α → Act β} {P : β → Prop} (ha : a.Yields Q) (hf : ∀ x, Q x → (f x).Yields P) :
    (a >>= f).Yields P := by
  intro s
  obtain ⟨x, t, hx, hq⟩ := ha s
  obtain ⟨y, u, hy, hp⟩ := hf x hq t
  exact ⟨y, u, bind_eq_some.mpr ⟨x, t, hx, hy⟩, hp⟩

theorem imp {P : α → Prop} (h : a.Yields Q) (hQ : ∀ x, Q x → P x) : a.Yields P := by
  intro s
  obtain ⟨x, t, hx, hq⟩ := h s
  exact ⟨x, t, hx, hQ x hq⟩

/-- What a part yields is all that it gives. -/
theorem gives (h : a.Yields Q) : a.Gives Q := by
  intro s x t hx
  obtain ⟨y, u, hy, hq⟩ := h s
  rw [hx] at hy
  cases hy
  exact hq

theorem register (i : Nat) (r : Option Expectation) : (Act.register i r).Yields fun _ => True :=
  fun _ => ⟨(), _, rfl, trivial⟩

theorem build (id : Nat) : (Act.build id).Yields fun _ => True := fun _ => ⟨(), _, rfl, trivial⟩

theorem isolated (h : a.Yields Q) : (Act.isolated a).Yields Q := by
  intro s
  obtain ⟨x, u, hrun, hx⟩ := h { s with sink := .empty, entries := [] }
  exact ⟨x, _, isolated_eq_some.mpr ⟨u, hrun, rfl⟩, hx⟩

theorem currentSink : Act.currentSink.Yields fun _ => True := fun s => ⟨s.sink, s, rfl, trivial⟩

theorem failWith (e : Expectation) (pos : Nat) :
    (Act.failWith e pos : Act (Outcome α)).Yields (·.state? = none) :=
  (register e.index (some e)).bind fun _ _ => pure rfl

theorem mismatch (pos : Nat) : (Act.mismatch pos : Act (Outcome α)).Yields (·.state? = none) :=
  failWith (.unknown pos) pos

theorem expectEach [Describe σ] (xs : List σ) (pos : Nat) :
    (Backtrack.expectEach xs pos : Act (Outcome α)).Yields (·.state? = none) := by
  have heach (xs : List σ) : (xs.forM fun x =>
      Act.register pos (some (.expected pos (describe x)))).Yields fun _ => True := by
    induction xs with
    | nil => exact pure trivial
    | cons x xs ih => exact (register pos _).bind fun _ _ => ih
  rw [Backtrack.expectEach]
  cases xs with
  | nil => exact (register pos none).bind fun _ _ => (heach []).bind fun _ _ => pure rfl
  | cons x xs => exact (heach (x :: xs)).bind fun _ _ => pure rfl

/-- Reading a symbol returns, whatever it is. -/
theorem symbolWhere {src : Source σ} {pos : Nat} {accept : σ → Bool} {reject : Act (Outcome σ)}
    (hreject : reject.Yields fun _ => True) :
    (Backtrack.symbolWhere src pos accept reject).Yields fun _ => True := by
  unfold Backtrack.symbolWhere
  split
  · split
    · exact pure trivial
    · exact hreject
  · exact hreject

theorem charWhere (src : Source σ) (pos : Nat) (accept : Char → Bool) :
    (Backtrack.charWhere src pos accept).Yields fun _ => True := by
  have hreject : (Act.mismatch pos : Act (Outcome Char)).Yields fun _ => True :=
    (register pos _).bind fun _ _ => pure trivial
  unfold Backtrack.charWhere
  split
  · split
    · exact pure trivial
    · exact hreject
  · exact hreject

theorem regexWhere (src : Source σ) (re : Regex) (pos : Nat)
    (value : Regex.Match → List Char → α) :
    (Backtrack.regexWhere src re pos value).Yields fun _ => True := by
  have hreject : (Act.mismatch pos : Act (Outcome α)).Yields fun _ => True :=
    (register pos _).bind fun _ _ => pure trivial
  unfold Backtrack.regexWhere
  split
  · split
    · exact pure trivial
    · exact hreject
  · exact hreject

section Outcomes

variable {a : Act (Outcome α)} {f : Outcome α → Act β} {P : β → Prop}

/-- The rule for a first part that has an outcome. -/
theorem bindOutcome {r : Option (Nat × α)} (ha : a.Yields (·.state? = r))
    (hok : ∀ q x, r = some (q, x) → (f (.ok q x)).Yields P)
    (hfail : ∀ q, r = none → (f (.fail q)).Yields P) : (a >>= f).Yields P := by
  refine ha.bind fun x hx => ?_
  cases x with
  | ok q x => exact hok q x hx.symm
  | fail q => exact hfail q hx.symm

/-- The rule for a first part that succeeds. -/
theorem bindOk {q : Nat} {x : α} (ha : a.Yields (·.state? = some (q, x)))
    (hf : (f (.ok q x)).Yields P) : (a >>= f).Yields P := by
  refine ha.bindOutcome (fun q' x' h => ?_) fun q' h => ?_
  · cases h
    exact hf
  · cases h

/-- The rule for a first part that fails. -/
theorem bindFail (ha : a.Yields (·.state? = none)) (hf : ∀ q, (f (.fail q)).Yields P) :
    (a >>= f).Yields P := by
  refine ha.bindOutcome (fun q x h => ?_) fun q _ => hf q
  cases h

end Outcomes

end Yields

namespace Gives

variable {a : Act α} {Q : α → Prop}

theorem pure {x : α} (h : Q x) : (Pure.pure x : Act α).Gives Q := (Yields.pure h).gives

theorem exceeded : (Act.exceeded : Act α).Gives Q := by
  intro s x t hrun
  cases hrun

theorem bind {f : α → Act β} {P : β → Prop} (ha : a.Gives Q) (hf : ∀ x, Q x → (f x).Gives P) :
    (a >>= f).Gives P := by
  intro s y u hrun
  obtain ⟨x, t, hx, hy⟩ := bind_eq_some.mp hrun
  exact hf x (ha s x t hx) t y u hy

theorem imp {P : α → Prop} (h : a.Gives Q) (hQ : ∀ x, Q x → P x) : a.Gives P :=
  fun s x t hrun => hQ x (h s x t hrun)

/-- The rule for a first part that has an outcome. -/
theorem bindOutcome {a : Act (Outcome α)} {f : Outcome α → Act β} {D : Option (Nat × α) → Prop}
    {P : β → Prop} (ha : a.Gives fun r => D r.state?)
    (hok : ∀ q x, D (some (q, x)) → (f (.ok q x)).Gives P)
    (hfail : ∀ q, D none → (f (.fail q)).Gives P) : (a >>= f).Gives P := by
  refine ha.bind fun r hr => ?_
  cases r with
  | ok q x => exact hok q x hr
  | fail q => exact hfail q hr

end Gives

end Act

end Backtrack
