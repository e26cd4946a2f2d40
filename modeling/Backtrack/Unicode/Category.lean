/-!
# Character classes of Unicode

The enumerated properties of characters that parsers ask for, and the names of the boolean ones.
-/

namespace Backtrack.Unicode

/-- The general category of a character. -/
inductive GeneralCategory where
  | unassigned | uppercaseLetter | lowercaseLetter | titlecaseLetter | modifierLetter
  | otherLetter | nonspacingMark | spacingMark | enclosingMark | decimalNumber | letterNumber
  | otherNumber | spaceSeparator | lineSeparator | paragraphSeparator | control | format
  | privateUse | surrogate | dashPunctuation | openPunctuation | closePunctuation
  | connectorPunctuation | initialPunctuation | finalPunctuation | otherPunctuation | mathSymbol
  | currencySymbol | modifierSymbol | otherSymbol
  deriving DecidableEq, Repr

namespace GeneralCategory

/-- The values with their names. -/
def names : List (GeneralCategory × String) :=
  [(.unassigned, "Unassigned"), (.uppercaseLetter, "UppercaseLetter"),
   (.lowercaseLetter, "LowercaseLetter"), (.titlecaseLetter, "TitlecaseLetter"),
   (.modifierLetter, "ModifierLetter"), (.otherLetter, "OtherLetter"),
   (.nonspacingMark, "NonspacingMark"), (.spacingMark, "SpacingMark"),
   (.enclosingMark, "EnclosingMark"), (.decimalNumber, "DecimalNumber"),
   (.letterNumber, "LetterNumber"), (.otherNumber, "OtherNumber"),
   (.spaceSeparator, "SpaceSeparator"), (.lineSeparator, "LineSeparator"),
   (.paragraphSeparator, "ParagraphSeparator"), (.control, "Control"), (.format, "Format"),
   (.privateUse, "PrivateUse"), (.surrogate, "Surrogate"),
   (.dashPunctuation, "DashPunctuation"), (.openPunctuation, "OpenPunctuation"),
   (.closePunctuation, "ClosePunctuation"), (.connectorPunctuation, "ConnectorPunctuation"),
   (.initialPunctuation, "InitialPunctuation"), (.finalPunctuation, "FinalPunctuation"),
   (.otherPunctuation, "OtherPunctuation"), (.mathSymbol, "MathSymbol"),
   (.currencySymbol, "CurrencySymbol"), (.modifierSymbol, "ModifierSymbol"),
   (.otherSymbol, "OtherSymbol")]

/-- The name of the value. -/
def name (x : GeneralCategory) : String := (names.lookup x).getD ""

/-- The value of a given name. -/
def ofName? (n : String) : Option GeneralCategory := (names.find? (·.2 == n)).map (·.1)

/-- The two-letter names. -/
def aliases : List (String × GeneralCategory) :=
  [("Cn", .unassigned), ("Lu", .uppercaseLetter), ("Ll", .lowercaseLetter),
   ("Lt", .titlecaseLetter), ("Lm", .modifierLetter), ("Lo", .otherLetter),
   ("Mn", .nonspacingMark), ("Mc", .spacingMark), ("Me", .enclosingMark),
   ("Nd", .decimalNumber), ("Nl", .letterNumber), ("No", .otherNumber), ("Zs", .spaceSeparator),
   ("Zl", .lineSeparator), ("Zp", .paragraphSeparator), ("Cc", .control), ("Cf", .format),
   ("Co", .privateUse), ("Cs", .surrogate), ("Pd", .dashPunctuation), ("Ps", .openPunctuation),
   ("Pe", .closePunctuation), ("Pc", .connectorPunctuation), ("Pi", .initialPunctuation),
   ("Pf", .finalPunctuation), ("Po", .otherPunctuation), ("Sm", .mathSymbol),
   ("Sc", .currencySymbol), ("Sk", .modifierSymbol), ("So", .otherSymbol)]

/-- The value of a given two-letter name. -/
def ofAlias? (n : String) : Option GeneralCategory := aliases.lookup n

end GeneralCategory

/-- How a character takes part in the segmentation of a text into grapheme clusters. -/
inductive GraphemeBreak where
  | other | control | carriageReturn | extend | leadingJamo | lineFeed | syllableLV
  | syllableLVT | trailingJamo | vowelJamo | spacingMark | prepend | regionalIndicator
  | emojiBase | emojiBaseGlueAfterZwj | emojiModifier | glueAfterZwj | zeroWidthJoiner
  deriving DecidableEq, Repr

namespace GraphemeBreak

/-- The values with their names. -/
def names : List (GraphemeBreak × String) :=
  [(.other, "Other"), (.control, "Control"), (.carriageReturn, "CR"), (.extend, "Extend"),
   (.leadingJamo, "L"), (.lineFeed, "LF"), (.syllableLV, "LV"), (.syllableLVT, "LVT"),
   (.trailingJamo, "T"), (.vowelJamo, "V"), (.spacingMark, "SpacingMark"),
   (.prepend, "Prepend"), (.regionalIndicator, "RegionalIndicator"), (.emojiBase, "EBase"),
   (.emojiBaseGlueAfterZwj, "EBaseGAZ"), (.emojiModifier, "EModifier"),
   (.glueAfterZwj, "GlueAfterZwj"), (.zeroWidthJoiner, "ZWJ")]

/-- The name of the value. -/
def name (x : GraphemeBreak) : String := (names.lookup x).getD ""

/-- The value of a given name. -/
def ofName? (n : String) : Option GraphemeBreak := (names.find? (·.2 == n)).map (·.1)

end GraphemeBreak

/-- The role of a character in a syllable of an Indic script, as far as conjuncts need it. -/
inductive SyllabicCategory where
  | other | consonant | virama
  deriving DecidableEq, Repr

namespace SyllabicCategory

/-- The values with their names. -/
def names : List (SyllabicCategory × String) :=
  [(.other, "Other"), (.consonant, "Consonant"), (.virama, "Virama")]

/-- The name of the value. -/
def name (x : SyllabicCategory) : String := (names.lookup x).getD ""

/-- The value of a given name. -/
def ofName? (n : String) : Option SyllabicCategory := (names.find? (·.2 == n)).map (·.1)

end SyllabicCategory

/-- How a character takes part in Indic conjuncts. -/
inductive ConjunctBreak where
  | none | linker | consonant | extend
  deriving DecidableEq, Repr

namespace ConjunctBreak

/-- The values with their names. -/
def names : List (ConjunctBreak × String) :=
  [(.none, "None"), (.linker, "Linker"), (.consonant, "Consonant"), (.extend, "Extend")]

/-- The name of the value. -/
def name (x : ConjunctBreak) : String := (names.lookup x).getD ""

/-- The value of a given name. -/
def ofName? (n : String) : Option ConjunctBreak := (names.find? (·.2 == n)).map (·.1)

end ConjunctBreak

/-- The boolean properties of characters. -/
inductive Trait where
  | alphabetic | asciiHexDigit | dash | emoji | extendedPictographic | hexDigit | idContinue
  | idStart | ideographic | lowercase | math | patternSyntax | patternWhiteSpace | quotationMark
  | uppercase | whiteSpace | xidContinue | xidStart
  deriving DecidableEq, Repr

namespace Trait

/-- The values with their names. -/
def names : List (Trait × String) :=
  [(.alphabetic, "Alphabetic"), (.asciiHexDigit, "AsciiHexDigit"), (.dash, "Dash"),
   (.emoji, "Emoji"), (.extendedPictographic, "ExtendedPictographic"), (.hexDigit, "HexDigit"),
   (.idContinue, "IdContinue"), (.idStart, "IdStart"), (.ideographic, "Ideographic"),
   (.lowercase, "Lowercase"), (.math, "Math"), (.patternSyntax, "PatternSyntax"),
   (.patternWhiteSpace, "PatternWhiteSpace"), (.quotationMark, "QuotationMark"),
   (.uppercase, "Uppercase"), (.whiteSpace, "WhiteSpace"), (.xidContinue, "XidContinue"),
   (.xidStart, "XidStart")]

/-- The name of the value. -/
def name (x : Trait) : String := (names.lookup x).getD ""

/-- The value of a given name. -/
def ofName? (n : String) : Option Trait := (names.find? (·.2 == n)).map (·.1)

end Trait

end Backtrack.Unicode
