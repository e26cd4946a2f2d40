import Backtrack.Unicode.Table

/-!
# Character properties

A property is a set of characters that is put together from Unicode's own properties by
complement, intersection and union.
-/

namespace Backtrack.Unicode

/-- The general category of a character. -/
def GeneralCategory.of (c : Char) : GeneralCategory := (Row.of c).category

/-- The grapheme cluster break property of a character. -/
def GraphemeBreak.of (c : Char) : GraphemeBreak := (Row.of c).grapheme

/-- The syllabic category of a character. -/
def SyllabicCategory.of (c : Char) : SyllabicCategory := (Row.of c).syllabic

/-- The conjunct break property of a character. In a script whose conjuncts are kept together a
virama links and a consonant is joined. Elsewhere a character that extends a cluster extends a
conjunct too, but for the zero-width non-joiner. -/
def ConjunctBreak.of (c : Char) : ConjunctBreak :=
  let row := Row.of c
  match row.conjoining, row.syllabic with
  | true, .virama => .linker
  | true, .consonant => .consonant
  | _, _ =>
    if (row.grapheme == .zeroWidthJoiner || row.grapheme == .extend) && c != '\u200c' then .extend
    else .none

/-- Whether a character has a boolean property. -/
def Trait.holds (t : Trait) (c : Char) : Bool := (Row.of c).traits.contains t

/-- The groups of general categories that are named by one letter. -/
inductive CategoryGroup where
  | letter | mark | number | punctuation | symbol | separator
  deriving DecidableEq, Repr

namespace CategoryGroup

/-- The categories of a group. -/
def members : CategoryGroup → List GeneralCategory
  | letter =>
    [.uppercaseLetter, .lowercaseLetter, .titlecaseLetter, .modifierLetter, .otherLetter]
  | mark => [.nonspacingMark, .spacingMark, .enclosingMark]
  | number => [.decimalNumber, .letterNumber, .otherNumber]
  | punctuation =>
    [.dashPunctuation, .openPunctuation, .closePunctuation, .connectorPunctuation,
     .initialPunctuation, .finalPunctuation, .otherPunctuation]
  | symbol => [.mathSymbol, .currencySymbol, .modifierSymbol, .otherSymbol]
  | separator => [.spaceSeparator, .lineSeparator, .paragraphSeparator]

/-- The group of a given one-letter name. -/
def ofName? : String → Option CategoryGroup
  | "L" => some letter
  | "M" => some mark
  | "N" => some number
  | "P" => some punctuation
  | "S" => some symbol
  | "Z" => some separator
  | _ => none

end CategoryGroup

/-- A set of characters described by their properties. -/
inductive Property where
  | has (t : Trait)
  | category (g : GeneralCategory)
  | group (g : CategoryGroup)
  | grapheme (g : GraphemeBreak)
  | syllabic (s : SyllabicCategory)
  | conjunct (b : ConjunctBreak)
  | not (p : Property)
  | and (p q : Property)
  | or (p q : Property)
  deriving DecidableEq, Repr

namespace Property

/-- The characters that have none of the properties. -/
def never : Property := .and (.has .alphabetic) (.not (.has .alphabetic))

/-- The characters that have all properties of a list, which is not empty. -/
def all : List Property → Property
  | [] => .not never
  | [p] => p
  | p :: ps => .and p (all ps)

/-- The characters that have some property of a list, which is not empty. -/
def any : List Property → Property
  | [] => never
  | [p] => p
  | p :: ps => .or p (any ps)

/-- Whether a character is in the set. -/
def contains : Property → Char → Bool
  | has t, c => t.holds c
  | category g, c => g == .of c
  | group g, c => g.members.contains (.of c)
  | grapheme g, c => g == .of c
  | syllabic s, c => s == .of c
  | conjunct b, c => b == .of c
  | not p, c => !p.contains c
  | and p q, c => p.contains c && q.contains c
  | or p q, c => p.contains c || q.contains c

end Property

end Backtrack.Unicode
