import Backtrack.Proofs.Act

/-!
# The loops behind repetition

There are three loops, which differ in what they do with the values and in what a pass is. The fold
is the loop that collects, with the values folded afterwards (`foldLoop_eq_manyLoop`). The loop with
separators is the loop that collects, over the parser that runs a separator and an item
(`Parser.sepLoop_eq_manyLoop`).
-/

namespace Backtrack

variable {σ ι : Type} {τ : ι → Type} {α β : Type}

/-- Values that are folded are those that a repetition collects. -/
theorem foldLoop_eq_manyLoop (item : Nat → Act (Outcome α)) (f : β → α → β) (n : Nat)
    (limit : Option Nat) (acc : β) (count pos : Nat) :
    foldLoop item f n limit acc count pos = (do
      let (as, e) ← manyLoop item n limit pos
      return (as.foldl f acc, count + as.length, e)) := by
  induction n generalizing limit acc count pos with
  | zero => rfl
  | succ n ih =>
    rw [foldLoop, manyLoop]
    split
    · rfl
    · rw [bind_assoc]
      refine bind_congr fun r => ?_
      cases r with
      | fail q => rfl
      | ok q a =>
        dsimp only
        split
        · rw [ih, bind_assoc]
          refine bind_congr fun x => ?_
          obtain ⟨as, e⟩ := x
          rw [pure_bind, List.foldl_cons, List.length_cons]
          dsimp only
          rw [Nat.add_assoc, Nat.add_comm 1]
        · rfl

/-- A separator and an item are repeated as one parser is that runs both. -/
theorem Parser.sepLoop_eq_manyLoop [BEq σ] [Describe σ] (env : Env σ τ) (p : Parser σ τ α)
    (sep : Parser σ τ β) (m n : Nat) (limit : Option Nat) (pos : Nat) :
    sepLoop (fun q => p.run env m q) (fun q => sep.run env m q) n limit pos =
      manyLoop (fun q => (sep.andThen p).run env (m + 1) q) n limit pos := by
  induction n generalizing limit pos with
  | zero => rfl
  | succ n ih =>
    rw [sepLoop, manyLoop]
    split
    · rfl
    · rw [andThen, run, bind_assoc]
      refine bind_congr fun r => ?_
      cases r with
      | fail e => rfl
      | ok e b =>
        dsimp only
        rw [bind_assoc]
        refine bind_congr fun r => ?_
        cases r with
        | fail e => rfl
        | ok q a =>
          rw [pure_bind]
          simp only [Outcome.map, ih]
          rfl

end Backtrack
