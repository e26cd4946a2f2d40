import Backtrack.Symbol

/-!
# Patterns

A pattern is a sequence of symbols to match against a source, or the set of the symbols in it. A
single symbol and a list are patterns of any symbols; a string is a pattern of characters.
-/

namespace Backtrack

/-- A sequence of symbols to match. -/
inductive Pattern (σ : Type) where
  | single (x : σ)
  | text (s : String) (isChar : σ = Char)
  | symbols (xs : List σ)

namespace Pattern

variable {σ : Type}

/-- The characters of a string. -/
def string (s : String) : Pattern Char := text s rfl

/-- The symbols of the pattern, in order. -/
def toList : Pattern σ → List σ
  | single x => [x]
  | text s isChar => isChar ▸ s.toList
  | symbols xs => xs

/-- The symbol at an index, if the pattern is that long. -/
def nth? (p : Pattern σ) (i : Nat) : Option σ :=
  match p with
  | single x => if i = 0 then some x else none
  | text s isChar => (isChar ▸ s.toList : List σ)[i]?
  | symbols xs => xs[i]?

/-- Whether a symbol occurs in the pattern. -/
def contains [BEq σ] (p : Pattern σ) (x : σ) : Bool :=
  match p with
  | single y => y == x
  | text s isChar => (isChar ▸ s.toList : List σ).any (· == x)
  | symbols ys => ys.any (· == x)

/-- The pattern as an expectation shows it. -/
def describe [Describe σ] : Pattern σ → String
  | single x => Backtrack.describe x
  | text s _ => Text.quoteString s
  | symbols xs => Text.bracketed (xs.map Backtrack.describe)

/-- Asking for one symbol after another finds the symbols of the pattern in order. -/
theorem nth?_eq (p : Pattern σ) (i : Nat) : p.nth? i = p.toList[i]? := by
  cases p with
  | single x => cases i <;> rfl
  | text s isChar => rfl
  | symbols xs => rfl

@[simp] theorem toList_string (s : String) : (string s).toList = s.toList := rfl

/-- A symbol is in the pattern, taken as a set, when it is one of its symbols. -/
theorem contains_iff [DecidableEq σ] {p : Pattern σ} {x : σ} :
    p.contains x = true ↔ x ∈ p.toList := by
  cases p with
  | single y => simp only [contains, toList, beq_iff_eq, List.mem_singleton]; exact eq_comm
  | text s isChar => cases isChar; simp [contains, toList]
  | symbols ys => simp [contains, toList]

end Pattern

end Backtrack
