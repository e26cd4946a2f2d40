import Backtrack.Unicode.Property

/-!
# Sets of characters

The character classes of regular expressions, as expressions over ranges and character properties.
-/

namespace Backtrack.Regex

/-- A set of characters. -/
inductive CharSet where
  | none
  | range (first last : Char)
  | property (p : Unicode.Property)
  | union (s t : CharSet)
  | inter (s t : CharSet)
  | diff (s t : CharSet)
  | compl (s : CharSet)
  /-- The set with both cases of every ASCII letter in it. -/
  | folded (s : CharSet)
  deriving DecidableEq, Repr

namespace CharSet

/-- The other case of an ASCII letter. -/
def otherCase (c : Char) : Char := if c.isUpper then c.toLower else c.toUpper

/-- Whether a character is in the set. -/
def contains : CharSet → Char → Bool
  | none, _ => false
  | range first last, c => first ≤ c && c ≤ last
  | property p, c => p.contains c
  | union s t, c => s.contains c || t.contains c
  | inter s t, c => s.contains c && t.contains c
  | diff s t, c => s.contains c && !t.contains c
  | compl s, c => !s.contains c
  | folded s, c => s.contains c || s.contains (otherCase c)

/-- The set of a single character. -/
def char (c : Char) : CharSet := range c c

/-- The union of a list of sets. -/
def ofList (sets : List CharSet) : CharSet := sets.foldl union none

/-- The characters of a string. -/
def ofString (s : String) : CharSet := ofList (s.toList.map char)

/-- Every character. -/
def all : CharSet := compl none

/-- Decimal digits of all scripts. -/
def digit : CharSet := property (.category .decimalNumber)

/-- White space. -/
def space : CharSet := property (.has .whiteSpace)

/-- The characters of words: letters, marks, digits, connecting punctuation and the two joiners. -/
def word : CharSet :=
  union
    (property <| .any
      [.has .alphabetic, .group .mark, .category .decimalNumber, .category .connectorPunctuation])
    (range '\u200c' '\u200d')

/-- The ASCII classes by their names. -/
def ascii? : String → Option CharSet
  | "alnum" => some (ofList [range '0' '9', range 'A' 'Z', range 'a' 'z'])
  | "alpha" => some (ofList [range 'A' 'Z', range 'a' 'z'])
  | "ascii" => some (range '\x00' '\x7f')
  | "blank" => some (ofString "\t ")
  | "cntrl" => some (ofList [range '\x00' '\x1f', char '\x7f'])
  | "digit" => some (range '0' '9')
  | "graph" => some (range '!' '~')
  | "lower" => some (range 'a' 'z')
  | "print" => some (range ' ' '~')
  | "punct" => some (ofList [range '!' '/', range ':' '@', range '[' '\x60', range '\x7b' '~'])
  | "space" => some (ofList [range '\t' '\r', char ' '])
  | "upper" => some (range 'A' 'Z')
  | "word" => some (ofList [range '0' '9', range 'A' 'Z', char '_', range 'a' 'z'])
  | "xdigit" => some (ofList [range '0' '9', range 'A' 'F', range 'a' 'f'])
  | _ => Option.none

/-- Names of properties are compared without case, blanks, hyphens and underscores. -/
def looseName (name : String) : String :=
  String.ofList ((name.toList.filter fun c => !" -_".toList.contains c).map Char.toLower)

/-- The general categories and their groups by name. -/
def category? (name : String) : Option CharSet :=
  let key := looseName name
  let isKey (n : String) : Bool := looseName n == key
  let groups : List (String × Unicode.CategoryGroup) :=
    [("L", .letter), ("Letter", .letter), ("M", .mark), ("Mark", .mark), ("N", .number),
     ("Number", .number), ("P", .punctuation), ("Punctuation", .punctuation), ("S", .symbol),
     ("Symbol", .symbol), ("Z", .separator), ("Separator", .separator)]
  match Unicode.GeneralCategory.aliases.find? (isKey ·.1),
      Unicode.GeneralCategory.names.find? (isKey ·.2), groups.find? (isKey ·.1) with
  | some (_, g), _, _ => some (property (.category g))
  | _, some (g, _), _ => some (property (.category g))
  | _, _, some (_, g) => some (property (.group g))
  | _, _, _ => Option.none

/-- The characters that have a property of a given name. -/
def property? (name : String) : Option CharSet :=
  let key := looseName name
  let traits : List (String × Unicode.Trait) :=
    [("space", .whiteSpace), ("alpha", .alphabetic), ("lower", .lowercase), ("upper", .uppercase),
     ("hex", .hexDigit), ("ahex", .asciiHexDigit)]
  match category? name with
  | some s => some s
  | Option.none =>
    if key == "any" then some all
    else if key == "ascii" then some (range '\x00' '\x7f')
    else if key == "assigned" then some (compl (property (.category .unassigned)))
    else
      match Unicode.Trait.names.find? (looseName ·.2 == key), traits.lookup key with
      | some (t, _), _ => some (property (.has t))
      | _, some t => some (property (.has t))
      | _, _ => Option.none

end CharSet

end Backtrack.Regex
