import Backtrack.Text.Quoted

/-!
# Symbols

The symbols of a source can be compared, and shown in an expectation. Characters, words and tokens
are the symbols at hand.
-/

namespace Backtrack

/-- Symbols that can be shown in an expectation. -/
class Describe (σ : Type) where
  describe : σ → String

export Describe (describe)

instance : Describe Char := ⟨Text.quoteChar⟩

instance : Describe Int64 := ⟨fun n => toString n.toInt⟩

/-- What an earlier stage hands over when it splits a text into numbers and words. -/
inductive Token where
  | int (value : Int64)
  | text (value : String)
  deriving DecidableEq

namespace Token

/-- The token with the name of its kind. -/
def inspect : Token → String
  | int n => "Int(" ++ describe n ++ ")"
  | text s => "Text(" ++ Text.quoteString s ++ ")"

end Token

instance : Describe Token := ⟨Token.inspect⟩

end Backtrack
