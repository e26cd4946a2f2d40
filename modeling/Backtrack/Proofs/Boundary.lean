import Backtrack.Proofs.Landing

/-!
# Reading from boundary to boundary

Symbols, characters and matches of regular expressions lead from one boundary of the source to
another (`Source.readsWithin_boundary`), and a pattern is found at a boundary where its symbols are
the first of those that remain (`Source.matchSymbols?_prefix_iff`).
-/

namespace Backtrack.Source

variable {σ : Type} {src : Source σ}

/-- The symbols of a pattern are found where they are the first of those that remain. -/
theorem matchSymbols?_prefix_iff [DecidableEq σ] {xs front back : List σ} {q : Nat}
    (h : src.symbols = front ++ back) :
    src.matchSymbols? xs (extent src.width front) = some q ↔
      xs <+: back ∧ q = extent src.width front + extent src.width xs := by
  induction xs generalizing front back with
  | nil => simp [matchSymbols?, eq_comm]
  | cons x xs ih =>
    rw [matchSymbols?, symbolAt?, rest?_of_symbols h]
    cases back with
    | nil => simp
    | cons y back =>
      dsimp only
      rw [List.cons_prefix_cons]
      by_cases hyx : y = x
      · subst hyx
        have hnext : src.symbols = (front ++ [y]) ++ back := by
          rw [h, List.append_assoc, List.singleton_append]
        have hwidth : extent src.width (front ++ [y]) = extent src.width front + src.width y := by
          rw [extent_append, extent_cons, extent_nil, Nat.add_zero]
        rw [if_pos (beq_self_eq_true y), ← hwidth, ih hnext, hwidth, extent_cons, Nat.add_assoc]
        simp
      · simp [hyx, eq_comm (a := x)]

/-- Everything that a leaf reads leads forward and to a boundary. -/
theorem readsWithin_boundary (src : Source σ) (start : Nat) :
    src.ReadsWithin fun i => start ≤ i ∧ src.IsBoundary i where
  symbol hpos h := ⟨Nat.le_add_right_of_le hpos.1, .symbol h⟩
  char {pos c rest} hpos h := by
    have hchars : src.IsBoundary (pos + extent Char.utf8Size [c]) := .chars h
    exact ⟨Nat.le_add_right_of_le hpos.1, by simpa using hchars⟩
  regex hpos h hm := by
    obtain ⟨front, back, rfl, hstop⟩ := Regex.match?_covers hm
    exact ⟨Nat.le_add_right_of_le hpos.1, hstop ▸ .chars h⟩

end Backtrack.Source
