import Backtrack.Recipe.Value

/-!
# Functions of recipes

The predicates, functions and folds that a recipe can name.
-/

namespace Backtrack.Recipe

/-- A predicate on symbols. -/
inductive Pred where
  | digit | lower | upper | alpha | alnum | even | isInt | isStr | never
  /-- A character or an integer between two bounds. -/
  | range (first last : Value)
  | not (p : Pred)

/-- Whether the predicate holds of a symbol. The letters and digits are those of ASCII. -/
def Pred.holds : Pred → Value → Bool
  | digit, .char c => c.isDigit
  | lower, .char c => c.isLower
  | upper, .char c => c.isUpper
  | alpha, .char c => c.isAlpha
  | alnum, .char c => c.isAlphanum
  | even, .int n => n.toInt % 2 == 0
  | isInt, .int _ => true
  | isStr, .str _ => true
  | range (.char a) (.char b), .char c => a ≤ c && c ≤ b
  | range (.int a) (.int b), .int n => a ≤ n && n ≤ b
  | not p, v => !p.holds v
  | _, _ => false

/-- A function of one value. -/
inductive Fn where
  | id | size | num | text | inc | neg | upper | wrap

/-- Applies a function. Arithmetic is that of 64-bit words. -/
def Fn.apply : Fn → Value → Value
  | id, v => v
  | size, v => .ofNat v.size
  | num, v => .int v.num
  | text, v => .str v.text
  | inc, v => .int (v.num + 1)
  | neg, v => .int (-v.num)
  | upper, v => .str (String.ofList (v.text.toList.map Char.toUpper))
  | wrap, v => .list [v]

/-- A function of two values. -/
inductive Fn2 where
  | tuple | swap | add | concat

/-- Applies a function of two values. -/
def Fn2.apply : Fn2 → Value → Value → Value
  | tuple, a, b => .tuple [a, b]
  | swap, a, b => .tuple [b, a]
  | add, a, b => .int (a.num + b.num)
  | concat, a, b => .str (a.text ++ b.text)

/-- A way to fold values. -/
inductive Fold where
  | count | decimal | sum | concat | rev | last

/-- What a fold starts with. -/
def Fold.start : Fold → Value
  | count | decimal | sum => .int 0
  | concat => .str ""
  | rev => .list []
  | last => .none

/-- Adds a value to what has been folded. -/
def Fold.step : Fold → Value → Value → Value
  | count, acc, _ => .int (acc.num + 1)
  | decimal, acc, v => .int (acc.num * 10 + v.num)
  | sum, acc, v => .int (acc.num + v.num)
  | concat, acc, v => .str (acc.text ++ v.text)
  | rev, .list vs, v => .list (v :: vs)
  | rev, _, v => .list [v]
  | last, _, v => .some v

end Backtrack.Recipe
