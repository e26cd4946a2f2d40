import Backtrack.Parser.Run
import Backtrack.Unicode.Property

/-!
# Grapheme clusters

A grammar of extended grapheme clusters, the characters that a reader perceives as one. The parser
takes a whole cluster and fails only at the end of the input or on a source that is no text.

The grammar is defined over the properties of characters that it asks for. `Properties.unicode` are
those of the character table.
-/

namespace Backtrack.Grapheme

open Unicode (GraphemeBreak ConjunctBreak Trait)

/-- The properties of characters that decide where a cluster ends. -/
structure Properties where
  breaks : Char → GraphemeBreak
  conjuncts : Char → ConjunctBreak
  pictographic : Char → Bool

namespace Properties

/-- The properties of the character table. -/
def unicode : Properties where
  breaks := .of
  conjuncts := .of
  pictographic := Trait.extendedPictographic.holds

variable (P : Properties)

/-- The characters with one of the given break properties. -/
def breakIn (gs : List GraphemeBreak) (c : Char) : Bool := gs.contains (P.breaks c)

/-- The characters with one of the given conjunct properties. -/
def conjunctIn (bs : List ConjunctBreak) (c : Char) : Bool := bs.contains (P.conjuncts c)

/-- The characters that stand alone. -/
def control : Char → Bool := P.breakIn [.control, .carriageReturn, .lineFeed]

/-- The characters that extend a cluster, whatever it is made of. -/
def extending : Char → Bool := P.breakIn [.extend, .zeroWidthJoiner, .spacingMark]

end Properties

variable {σ ι : Type} {τ : ι → Type} {α : Type}

/-- A character of a set. -/
def one (accept : Char → Bool) : Parser σ τ Unit := (Parser.charWith accept).withValue ()

/-- At least `min` runs of a parser. -/
def skipMany (p : Parser σ τ α) (min : Nat) : Parser σ τ Unit :=
  .manyAccum p () (fun _ _ => ()) { min := min }

variable (P : Properties)

/-- A line break. -/
def lineBreak : Parser σ τ Unit :=
  .choiceOf
    [(one (P.breakIn [.carriageReturn])).andThen (one (P.breakIn [.lineFeed])),
     one (P.breakIn [.carriageReturn]),
     one (P.breakIn [.lineFeed])]

/-- The vowel of a syllable of Hangul, which may be part of a composed syllable. -/
def syllableVowel : Parser σ τ Unit :=
  .choiceOf
    [skipMany (one (P.breakIn [.vowelJamo])) 1,
     (one (P.breakIn [.syllableLV])).andThen (skipMany (one (P.breakIn [.vowelJamo])) 0),
     one (P.breakIn [.syllableLVT])]

/-- A syllable of Hangul, or a run of leading or trailing parts of one. -/
def hangulSyllable : Parser σ τ Unit :=
  .choiceOf
    [(skipMany (one (P.breakIn [.leadingJamo])) 0).andThen <|
       (syllableVowel P).andThen (skipMany (one (P.breakIn [.trailingJamo])) 0),
     skipMany (one (P.breakIn [.leadingJamo])) 1,
     skipMany (one (P.breakIn [.trailingJamo])) 1]

/-- A pair of regional indicators, which spells a flag. -/
def flag : Parser σ τ Unit :=
  (one (P.breakIn [.regionalIndicator])).andThen (one (P.breakIn [.regionalIndicator]))

/-- A pictograph that is joined to one before, which may be modified. -/
def joinedPictograph : Parser σ τ Unit :=
  (skipMany (one (P.breakIn [.extend])) 0).andThen <|
    (one (P.breakIn [.zeroWidthJoiner])).andThen (one P.pictographic)

/-- Pictographs that are joined, also when they are modified. -/
def pictographs : Parser σ τ Unit :=
  (one P.pictographic).andThen (skipMany (joinedPictograph P) 0)

/-- A consonant that is linked to one before. -/
def linkedConsonant : Parser σ τ Unit :=
  (skipMany (one (P.conjunctIn [.extend])) 0).andThen <|
    (one (P.conjunctIn [.linker])).andThen <|
    (skipMany (one (P.conjunctIn [.extend, .linker])) 0).andThen
      (one (P.conjunctIn [.consonant]))

/-- Consonants that are linked to a conjunct. -/
def conjunct : Parser σ τ Unit :=
  (one (P.conjunctIn [.consonant])).andThen (skipMany (linkedConsonant P) 1)

/-- What a cluster is built around: one of the larger units, or any character that is no control. -/
def core : Parser σ τ Unit :=
  .choiceOf [hangulSyllable P, flag P, pictographs P, conjunct P, one fun c => !P.control c]

/-- A core with what is prepended to it and what extends it. -/
def extended : Parser σ τ Unit :=
  (skipMany (one (P.breakIn [.prepend])) 0).andThen <|
    (core P).andThen (skipMany (one P.extending) 0)

/-- A cluster: a line break, a control, a core with its surroundings, or any other character. -/
def cluster : Parser σ τ Unit :=
  .choiceOf
    [lineBreak P, one (P.breakIn [.control]), extended P, Parser.char.withValue ()]

/-- The text of one extended grapheme cluster. -/
def parser : Parser σ τ String := .covered (cluster P)

end Backtrack.Grapheme
