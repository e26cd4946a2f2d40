import Backtrack.Unicode.Category

/-!
# The character table

Properties of characters, one row for each run of adjacent code points that agree in all of them.
The table is partial: it does not have every character, and one that it does not have counts as
unassigned. The grammars take the properties that they ask for as a parameter
(`Grapheme.Properties`, `Script.Alphabet`), and the table is only the instance that is run.
-/

namespace Backtrack.Unicode

/-- A run of code points that agree in all properties. -/
structure Row where
  first : Nat
  last : Nat
  category : GeneralCategory
  grapheme : GraphemeBreak
  syllabic : SyllabicCategory
  /-- The script is one of those whose conjuncts are kept together. -/
  conjoining : Bool
  traits : List Trait
  /-- The character is written by its number in quoted text. -/
  escaped : Bool
  deriving Repr

namespace Row

/-- Traits of a letter without case. -/
def letter : List Trait :=
  [.alphabetic, .idContinue, .idStart, .xidContinue, .xidStart]

/-- Traits of a lower-case letter. -/
def lowercaseLetter : List Trait :=
  [.alphabetic, .idContinue, .idStart, .lowercase, .xidContinue, .xidStart]

/-- Traits of an upper-case letter. -/
def uppercaseLetter : List Trait :=
  [.alphabetic, .idContinue, .idStart, .uppercase, .xidContinue, .xidStart]

/-- Traits of a character that continues identifiers. -/
def continuing : List Trait :=
  [.idContinue, .xidContinue]

/-- Traits of a mathematical symbol. -/
def mathSyntax : List Trait :=
  [.math, .patternSyntax]

/-- Traits of an ASCII digit. -/
def asciiDigit : List Trait :=
  [.asciiHexDigit, .emoji, .hexDigit, .idContinue, .xidContinue]

/-- Traits of white space that patterns ignore. -/
def blank : List Trait :=
  [.patternWhiteSpace, .whiteSpace]

/-- Traits of a quotation mark. -/
def quote : List Trait :=
  [.patternSyntax, .quotationMark]

/-- Traits of an emoji. -/
def pictograph : List Trait :=
  [.emoji, .extendedPictographic]

/-- Traits of the letters `A` to `F`. -/
def uppercaseHexLetter : List Trait :=
  [.alphabetic, .asciiHexDigit, .hexDigit, .idContinue, .idStart, .uppercase, .xidContinue,
   .xidStart]

/-- Traits of the letters `a` to `f`. -/
def lowercaseHexLetter : List Trait :=
  [.alphabetic, .asciiHexDigit, .hexDigit, .idContinue, .idStart, .lowercase, .xidContinue,
   .xidStart]

/-- Traits of an emoji that patterns reserve. -/
def patternPictograph : List Trait :=
  [.emoji, .extendedPictographic, .patternSyntax]

/-- Traits of a dependent vowel sign. -/
def vowelSign : List Trait :=
  [.alphabetic, .idContinue, .xidContinue]

/-- The rows, by code point. -/
def table : List Row :=
  [
    ⟨0x0, 0x8, .control, .control, .other, false, [], true⟩,
    ⟨0x9, 0x9, .control, .control, .other, false, blank, true⟩,
    ⟨0xA, 0xA, .control, .lineFeed, .other, false, blank, true⟩,
    ⟨0xB, 0xC, .control, .control, .other, false, blank, true⟩,
    ⟨0xD, 0xD, .control, .carriageReturn, .other, false, blank, true⟩,
    ⟨0xE, 0x1F, .control, .control, .other, false, [], true⟩,
    ⟨0x20, 0x20, .spaceSeparator, .other, .other, false, blank, false⟩,
    ⟨0x21, 0x21, .otherPunctuation, .other, .other, false, [.patternSyntax], false⟩,
    ⟨0x22, 0x22, .otherPunctuation, .other, .other, false, quote, false⟩,
    ⟨0x23, 0x23, .otherPunctuation, .other, .other, false, [.emoji, .patternSyntax], false⟩,
    ⟨0x24, 0x24, .currencySymbol, .other, .other, false, [.patternSyntax], false⟩,
    ⟨0x25, 0x26, .otherPunctuation, .other, .other, false, [.patternSyntax], false⟩,
    ⟨0x27, 0x27, .otherPunctuation, .other, .other, false, quote, true⟩,
    ⟨0x28, 0x28, .openPunctuation, .other, .other, false, [.patternSyntax], false⟩,
    ⟨0x29, 0x29, .closePunctuation, .other, .other, false, [.patternSyntax], false⟩,
    ⟨0x2A, 0x2A, .otherPunctuation, .other, .other, false, [.emoji, .patternSyntax], false⟩,
    ⟨0x2B, 0x2B, .mathSymbol, .other, .other, false, mathSyntax, false⟩,
    ⟨0x2C, 0x2C, .otherPunctuation, .other, .other, false, [.patternSyntax], false⟩,
    ⟨0x2D, 0x2D, .dashPunctuation, .other, .other, false, [.dash, .patternSyntax], false⟩,
    ⟨0x2E, 0x2F, .otherPunctuation, .other, .other, false, [.patternSyntax], false⟩,
    ⟨0x30, 0x39, .decimalNumber, .other, .other, false, asciiDigit, false⟩,
    ⟨0x3A, 0x3B, .otherPunctuation, .other, .other, false, [.patternSyntax], false⟩,
    ⟨0x3C, 0x3E, .mathSymbol, .other, .other, false, mathSyntax, false⟩,
    ⟨0x3F, 0x40, .otherPunctuation, .other, .other, false, [.patternSyntax], false⟩,
    ⟨0x41, 0x46, .uppercaseLetter, .other, .other, false, uppercaseHexLetter, false⟩,
    ⟨0x47, 0x5A, .uppercaseLetter, .other, .other, false, uppercaseLetter, false⟩,
    ⟨0x5B, 0x5B, .openPunctuation, .other, .other, false, [.patternSyntax], false⟩,
    ⟨0x5C, 0x5C, .otherPunctuation, .other, .other, false, [.patternSyntax], true⟩,
    ⟨0x5D, 0x5D, .closePunctuation, .other, .other, false, [.patternSyntax], false⟩,
    ⟨0x5E, 0x5E, .modifierSymbol, .other, .other, false, mathSyntax, false⟩,
    ⟨0x5F, 0x5F, .connectorPunctuation, .other, .other, false, continuing, false⟩,
    ⟨0x60, 0x60, .modifierSymbol, .other, .other, false, [.patternSyntax], false⟩,
    ⟨0x61, 0x66, .lowercaseLetter, .other, .other, false, lowercaseHexLetter, false⟩,
    ⟨0x67, 0x7A, .lowercaseLetter, .other, .other, false, lowercaseLetter, false⟩,
    ⟨0x7B, 0x7B, .openPunctuation, .other, .other, false, [.patternSyntax], false⟩,
    ⟨0x7C, 0x7C, .mathSymbol, .other, .other, false, mathSyntax, false⟩,
    ⟨0x7D, 0x7D, .closePunctuation, .other, .other, false, [.patternSyntax], false⟩,
    ⟨0x7E, 0x7E, .mathSymbol, .other, .other, false, mathSyntax, false⟩,
    ⟨0x7F, 0x80, .control, .control, .other, false, [], true⟩,
    ⟨0x85, 0x85, .control, .control, .other, false, blank, true⟩,
    ⟨0x9F, 0x9F, .control, .control, .other, false, [], true⟩,
    ⟨0xA0, 0xA0, .spaceSeparator, .other, .other, false, [.whiteSpace], true⟩,
    ⟨0xA1, 0xA1, .otherPunctuation, .other, .other, false, [.patternSyntax], false⟩,
    ⟨0xA3, 0xA3, .currencySymbol, .other, .other, false, [.patternSyntax], false⟩,
    ⟨0xA7, 0xA7, .otherPunctuation, .other, .other, false, [.patternSyntax], false⟩,
    ⟨0xA8, 0xA8, .modifierSymbol, .other, .other, false, [], false⟩,
    ⟨0xA9, 0xA9, .otherSymbol, .other, .other, false, patternPictograph, false⟩,
    ⟨0xAA, 0xAA, .otherLetter, .other, .other, false, lowercaseLetter, false⟩,
    ⟨0xAB, 0xAB, .initialPunctuation, .other, .other, false, quote, false⟩,
    ⟨0xAD, 0xAD, .format, .control, .other, false, [], true⟩,
    ⟨0xAE, 0xAE, .otherSymbol, .other, .other, false, patternPictograph, false⟩,
    ⟨0xB0, 0xB0, .otherSymbol, .other, .other, false, [.patternSyntax], false⟩,
    ⟨0xB2, 0xB2, .otherNumber, .other, .other, false, [], false⟩,
    ⟨0xB5, 0xB5, .lowercaseLetter, .other, .other, false, lowercaseLetter, false⟩,
    ⟨0xB6, 0xB6, .otherPunctuation, .other, .other, false, [.patternSyntax], false⟩,
    ⟨0xB7, 0xB7, .otherPunctuation, .other, .other, false, continuing, false⟩,
    ⟨0xBA, 0xBA, .otherLetter, .other, .other, false, lowercaseLetter, false⟩,
    ⟨0xBB, 0xBB, .finalPunctuation, .other, .other, false, quote, false⟩,
    ⟨0xBC, 0xBC, .otherNumber, .other, .other, false, [], false⟩,
    ⟨0xBF, 0xBF, .otherPunctuation, .other, .other, false, [.patternSyntax], false⟩,
    ⟨0xC0, 0xC1, .uppercaseLetter, .other, .other, false, uppercaseLetter, false⟩,
    ⟨0xD7, 0xD7, .mathSymbol, .other, .other, false, mathSyntax, false⟩,
    ⟨0xDF, 0xDF, .lowercaseLetter, .other, .other, false, lowercaseLetter, false⟩,
    ⟨0xE1, 0xE1, .lowercaseLetter, .other, .other, false, lowercaseLetter, false⟩,
    ⟨0xE9, 0xE9, .lowercaseLetter, .other, .other, false, lowercaseLetter, false⟩,
    ⟨0xF7, 0xF7, .mathSymbol, .other, .other, false, mathSyntax, false⟩,
    ⟨0x1C5, 0x1C5, .titlecaseLetter, .other, .other, false, letter, false⟩,
    ⟨0x2B0, 0x2B0, .modifierLetter, .other, .other, false, lowercaseLetter, false⟩,
    ⟨0x2C6, 0x2C6, .modifierLetter, .other, .other, false, letter, false⟩,
    ⟨0x300, 0x301, .nonspacingMark, .extend, .other, false, continuing, true⟩,
    ⟨0x308, 0x308, .nonspacingMark, .extend, .other, false, continuing, true⟩,
    ⟨0x345, 0x345, .nonspacingMark, .extend, .other, false,
      [.alphabetic, .idContinue, .lowercase, .xidContinue], true⟩,
    ⟨0x378, 0x378, .unassigned, .other, .other, false, [], true⟩,
    ⟨0x37E, 0x37E, .otherPunctuation, .other, .other, false, [], false⟩,
    ⟨0x391, 0x391, .uppercaseLetter, .other, .other, false, uppercaseLetter, false⟩,
    ⟨0x3A9, 0x3A9, .uppercaseLetter, .other, .other, false, uppercaseLetter, false⟩,
    ⟨0x3BB, 0x3BB, .lowercaseLetter, .other, .other, false, lowercaseLetter, false⟩,
    ⟨0x3C2, 0x3C3, .lowercaseLetter, .other, .other, false, lowercaseLetter, false⟩,
    ⟨0x3C9, 0x3C9, .lowercaseLetter, .other, .other, false, lowercaseLetter, false⟩,
    ⟨0x416, 0x416, .uppercaseLetter, .other, .other, false, uppercaseLetter, false⟩,
    ⟨0x436, 0x436, .lowercaseLetter, .other, .other, false, lowercaseLetter, false⟩,
    ⟨0x489, 0x489, .enclosingMark, .extend, .other, false, [], true⟩,
    ⟨0x5D0, 0x5D0, .otherLetter, .other, .other, false, letter, false⟩,
    ⟨0x600, 0x600, .format, .prepend, .other, false, [], true⟩,
    ⟨0x627, 0x627, .otherLetter, .other, .other, false, letter, false⟩,
    ⟨0x663, 0x663, .decimalNumber, .other, .other, false, continuing, false⟩,
    ⟨0x6DD, 0x6DD, .format, .prepend, .other, false, [], true⟩,
    ⟨0x70F, 0x70F, .format, .prepend, .other, false, [], true⟩,
    ⟨0x902, 0x902, .nonspacingMark, .extend, .other, true, vowelSign, true⟩,
    ⟨0x903, 0x903, .spacingMark, .spacingMark, .other, true, vowelSign, false⟩,
    ⟨0x905, 0x905, .otherLetter, .other, .other, true, letter, false⟩,
    ⟨0x915, 0x915, .otherLetter, .other, .consonant, true, letter, false⟩,
    ⟨0x924, 0x924, .otherLetter, .other, .consonant, true, letter, false⟩,
    ⟨0x930, 0x930, .otherLetter, .other, .consonant, true, letter, false⟩,
    ⟨0x937, 0x937, .otherLetter, .other, .consonant, true, letter, false⟩,
    ⟨0x93C, 0x93C, .nonspacingMark, .extend, .other, true, continuing, true⟩,
    ⟨0x93E, 0x93F, .spacingMark, .spacingMark, .other, true, vowelSign, false⟩,
    ⟨0x94D, 0x94D, .nonspacingMark, .extend, .virama, true, continuing, true⟩,
    ⟨0x951, 0x951, .nonspacingMark, .extend, .other, false, continuing, true⟩,
    ⟨0x964, 0x964, .otherPunctuation, .other, .other, false, [], false⟩,
    ⟨0x966, 0x966, .decimalNumber, .other, .other, true, continuing, false⟩,
    ⟨0x995, 0x995, .otherLetter, .other, .consonant, true, letter, false⟩,
    ⟨0x9BE, 0x9BE, .spacingMark, .extend, .other, true, vowelSign, true⟩,
    ⟨0x9CD, 0x9CD, .nonspacingMark, .extend, .virama, true, continuing, true⟩,
    ⟨0xA15, 0xA15, .otherLetter, .other, .consonant, false, letter, false⟩,
    ⟨0xA4D, 0xA4D, .nonspacingMark, .extend, .virama, false, continuing, true⟩,
    ⟨0xA95, 0xA95, .otherLetter, .other, .consonant, true, letter, false⟩,
    ⟨0xACD, 0xACD, .nonspacingMark, .extend, .virama, true, continuing, true⟩,
    ⟨0xAB7, 0xAB7, .otherLetter, .other, .consonant, true, letter, false⟩,
    ⟨0xB15, 0xB15, .otherLetter, .other, .consonant, true, letter, false⟩,
    ⟨0xB4D, 0xB4D, .nonspacingMark, .extend, .virama, true, continuing, true⟩,
    ⟨0xB95, 0xB95, .otherLetter, .other, .consonant, false, letter, false⟩,
    ⟨0xBCD, 0xBCD, .nonspacingMark, .extend, .virama, false, continuing, true⟩,
    ⟨0xBB7, 0xBB7, .otherLetter, .other, .consonant, false, letter, false⟩,
    ⟨0xC15, 0xC15, .otherLetter, .other, .consonant, true, letter, false⟩,
    ⟨0xC37, 0xC37, .otherLetter, .other, .consonant, true, letter, false⟩,
    ⟨0xC4D, 0xC4D, .nonspacingMark, .extend, .virama, true, continuing, true⟩,
    ⟨0xC95, 0xC95, .otherLetter, .other, .consonant, false, letter, false⟩,
    ⟨0xCCD, 0xCCD, .nonspacingMark, .extend, .virama, false, continuing, true⟩,
    ⟨0xD15, 0xD15, .otherLetter, .other, .consonant, true, letter, false⟩,
    ⟨0xD37, 0xD37, .otherLetter, .other, .consonant, true, letter, false⟩,
    ⟨0xD4D, 0xD4D, .nonspacingMark, .extend, .virama, true, continuing, true⟩,
    ⟨0xD4E, 0xD4E, .otherLetter, .prepend, .other, true, letter, false⟩,
    ⟨0xE01, 0xE01, .otherLetter, .other, .consonant, false, letter, false⟩,
    ⟨0xE33, 0xE33, .otherLetter, .spacingMark, .other, false,
      [.alphabetic, .idContinue, .idStart, .xidContinue], false⟩,
    ⟨0x1000, 0x1000, .otherLetter, .other, .consonant, false, letter, false⟩,
    ⟨0x1039, 0x1039, .nonspacingMark, .extend, .other, false, continuing, true⟩,
    ⟨0x1100, 0x1100, .otherLetter, .leadingJamo, .other, false, letter, false⟩,
    ⟨0x1112, 0x1112, .otherLetter, .leadingJamo, .other, false, letter, false⟩,
    ⟨0x1160, 0x1160, .otherLetter, .vowelJamo, .other, false, letter, true⟩,
    ⟨0x1161, 0x1162, .otherLetter, .vowelJamo, .other, false, letter, false⟩,
    ⟨0x1175, 0x1175, .otherLetter, .vowelJamo, .other, false, letter, false⟩,
    ⟨0x11A8, 0x11A8, .otherLetter, .trailingJamo, .other, false, letter, false⟩,
    ⟨0x11AB, 0x11AB, .otherLetter, .trailingJamo, .other, false, letter, false⟩,
    ⟨0x115F, 0x115F, .otherLetter, .leadingJamo, .other, false, letter, true⟩,
    ⟨0x1680, 0x1680, .spaceSeparator, .other, .other, false, [.whiteSpace], true⟩,
    ⟨0x1780, 0x1780, .otherLetter, .other, .consonant, false, letter, false⟩,
    ⟨0x17D2, 0x17D2, .nonspacingMark, .extend, .other, false, continuing, true⟩,
    ⟨0x180E, 0x180E, .format, .control, .other, false, [], true⟩,
    ⟨0x2003, 0x2003, .spaceSeparator, .other, .other, false, [.whiteSpace], true⟩,
    ⟨0x200B, 0x200B, .format, .control, .other, false, [], true⟩,
    ⟨0x200C, 0x200C, .format, .extend, .other, false, continuing, true⟩,
    ⟨0x200D, 0x200D, .format, .zeroWidthJoiner, .other, false, continuing, true⟩,
    ⟨0x200E, 0x200E, .format, .control, .other, false, [.patternWhiteSpace], true⟩,
    ⟨0x2010, 0x2010, .dashPunctuation, .other, .other, false, [.dash, .patternSyntax], false⟩,
    ⟨0x2013, 0x2014, .dashPunctuation, .other, .other, false, [.dash, .patternSyntax], false⟩,
    ⟨0x2018, 0x2018, .initialPunctuation, .other, .other, false, quote, false⟩,
    ⟨0x2019, 0x2019, .finalPunctuation, .other, .other, false, quote, false⟩,
    ⟨0x201C, 0x201C, .initialPunctuation, .other, .other, false, quote, false⟩,
    ⟨0x201D, 0x201D, .finalPunctuation, .other, .other, false, quote, false⟩,
    ⟨0x2028, 0x2028, .lineSeparator, .control, .other, false, blank, true⟩,
    ⟨0x2029, 0x2029, .paragraphSeparator, .control, .other, false, blank, true⟩,
    ⟨0x202F, 0x202F, .spaceSeparator, .other, .other, false, [.whiteSpace], true⟩,
    ⟨0x203F, 0x203F, .connectorPunctuation, .other, .other, false, continuing, false⟩,
    ⟨0x2040, 0x2040, .connectorPunctuation, .other, .other, false,
      [.idContinue, .math, .xidContinue], false⟩,
    ⟨0x2060, 0x2060, .format, .control, .other, false, [], true⟩,
    ⟨0x20AC, 0x20AC, .currencySymbol, .other, .other, false, [], false⟩,
    ⟨0x20DD, 0x20DD, .enclosingMark, .extend, .other, false, [], true⟩,
    ⟨0x20E3, 0x20E3, .enclosingMark, .extend, .other, false, [], true⟩,
    ⟨0x2115, 0x2115, .uppercaseLetter, .other, .other, false,
      [.alphabetic, .idContinue, .idStart, .math, .uppercase, .xidContinue, .xidStart], false⟩,
    ⟨0x2122, 0x2122, .otherSymbol, .other, .other, false, pictograph, false⟩,
    ⟨0x2160, 0x2160, .letterNumber, .other, .other, false, uppercaseLetter, false⟩,
    ⟨0x2167, 0x2167, .letterNumber, .other, .other, false, uppercaseLetter, false⟩,
    ⟨0x2170, 0x2170, .letterNumber, .other, .other, false, lowercaseLetter, false⟩,
    ⟨0x2203, 0x2203, .mathSymbol, .other, .other, false, mathSyntax, false⟩,
    ⟨0x2211, 0x2211, .mathSymbol, .other, .other, false, mathSyntax, false⟩,
    ⟨0x221A, 0x221A, .mathSymbol, .other, .other, false, mathSyntax, false⟩,
    ⟨0x2260, 0x2260, .mathSymbol, .other, .other, false, mathSyntax, false⟩,
    ⟨0x231A, 0x231A, .otherSymbol, .other, .other, false, patternPictograph, false⟩,
    ⟨0x263A, 0x263A, .otherSymbol, .other, .other, false, patternPictograph, false⟩,
    ⟨0x2764, 0x2764, .otherSymbol, .other, .other, false, patternPictograph, false⟩,
    ⟨0x27E8, 0x27E8, .openPunctuation, .other, .other, false, mathSyntax, false⟩,
    ⟨0x27E9, 0x27E9, .closePunctuation, .other, .other, false, mathSyntax, false⟩,
    ⟨0x2B50, 0x2B50, .otherSymbol, .other, .other, false, patternPictograph, false⟩,
    ⟨0x3000, 0x3000, .spaceSeparator, .other, .other, false, [.whiteSpace], true⟩,
    ⟨0x3001, 0x3001, .otherPunctuation, .other, .other, false, [.patternSyntax], false⟩,
    ⟨0x3005, 0x3005, .modifierLetter, .other, .other, false, letter, false⟩,
    ⟨0x3007, 0x3007, .letterNumber, .other, .other, false,
      [.alphabetic, .idContinue, .idStart, .ideographic, .xidContinue, .xidStart], false⟩,
    ⟨0x3042, 0x3042, .otherLetter, .other, .other, false, letter, false⟩,
    ⟨0x3099, 0x3099, .nonspacingMark, .extend, .other, false, continuing, true⟩,
    ⟨0x30A2, 0x30A2, .otherLetter, .other, .other, false, letter, false⟩,
    ⟨0x3131, 0x3131, .otherLetter, .other, .other, false, letter, false⟩,
    ⟨0x4E00, 0x4E00, .otherLetter, .other, .other, false,
      [.alphabetic, .idContinue, .idStart, .ideographic, .xidContinue, .xidStart], false⟩,
    ⟨0x4E2D, 0x4E2D, .otherLetter, .other, .other, false,
      [.alphabetic, .idContinue, .idStart, .ideographic, .xidContinue, .xidStart], false⟩,
    ⟨0xA960, 0xA960, .otherLetter, .leadingJamo, .other, false, letter, false⟩,
    ⟨0xAC00, 0xAC00, .otherLetter, .syllableLV, .other, false, letter, false⟩,
    ⟨0xAC01, 0xAC01, .otherLetter, .syllableLVT, .other, false, letter, false⟩,
    ⟨0xAC1C, 0xAC1C, .otherLetter, .syllableLV, .other, false, letter, false⟩,
    ⟨0xD7A3, 0xD7A3, .otherLetter, .syllableLVT, .other, false, letter, false⟩,
    ⟨0xD7B0, 0xD7B0, .otherLetter, .vowelJamo, .other, false, letter, false⟩,
    ⟨0xD7CB, 0xD7CB, .otherLetter, .trailingJamo, .other, false, letter, false⟩,
    ⟨0xE000, 0xE000, .privateUse, .other, .other, false, [], true⟩,
    ⟨0xF8FF, 0xF8FF, .privateUse, .other, .other, false, [], true⟩,
    ⟨0xFB01, 0xFB01, .lowercaseLetter, .other, .other, false, lowercaseLetter, false⟩,
    ⟨0xFE0E, 0xFE0F, .nonspacingMark, .extend, .other, false, continuing, true⟩,
    ⟨0xFE33, 0xFE33, .connectorPunctuation, .other, .other, false, continuing, false⟩,
    ⟨0xFEFF, 0xFEFF, .format, .control, .other, false, [], true⟩,
    ⟨0xFF10, 0xFF10, .decimalNumber, .other, .other, false,
      [.hexDigit, .idContinue, .xidContinue], false⟩,
    ⟨0xFF21, 0xFF21, .uppercaseLetter, .other, .other, false,
      [.alphabetic, .hexDigit, .idContinue, .idStart, .uppercase, .xidContinue, .xidStart],
      false⟩,
    ⟨0xFF41, 0xFF41, .lowercaseLetter, .other, .other, false,
      [.alphabetic, .hexDigit, .idContinue, .idStart, .lowercase, .xidContinue, .xidStart],
      false⟩,
    ⟨0xFFFD, 0xFFFD, .otherSymbol, .other, .other, false, [], false⟩,
    ⟨0xFFFF, 0xFFFF, .unassigned, .other, .other, false, [], true⟩,
    ⟨0x10400, 0x10400, .uppercaseLetter, .other, .other, false, uppercaseLetter, false⟩,
    ⟨0x10428, 0x10428, .lowercaseLetter, .other, .other, false, lowercaseLetter, false⟩,
    ⟨0x110BD, 0x110BD, .format, .prepend, .other, false, [], true⟩,
    ⟨0x1D400, 0x1D400, .uppercaseLetter, .other, .other, false,
      [.alphabetic, .idContinue, .idStart, .math, .uppercase, .xidContinue, .xidStart], false⟩,
    ⟨0x1D7D8, 0x1D7D8, .decimalNumber, .other, .other, false,
      [.idContinue, .math, .xidContinue], false⟩,
    ⟨0x1F1E6, 0x1F1E6, .otherSymbol, .regionalIndicator, .other, false, [.emoji], false⟩,
    ⟨0x1F1EB, 0x1F1EB, .otherSymbol, .regionalIndicator, .other, false, [.emoji], false⟩,
    ⟨0x1F1EF, 0x1F1EF, .otherSymbol, .regionalIndicator, .other, false, [.emoji], false⟩,
    ⟨0x1F1F5, 0x1F1F5, .otherSymbol, .regionalIndicator, .other, false, [.emoji], false⟩,
    ⟨0x1F1F7, 0x1F1F7, .otherSymbol, .regionalIndicator, .other, false, [.emoji], false⟩,
    ⟨0x1F308, 0x1F308, .otherSymbol, .other, .other, false, pictograph, false⟩,
    ⟨0x1F3F3, 0x1F3F3, .otherSymbol, .other, .other, false, pictograph, false⟩,
    ⟨0x1F3FD, 0x1F3FD, .modifierSymbol, .extend, .other, false, [.emoji], false⟩,
    ⟨0x1F3FF, 0x1F3FF, .modifierSymbol, .extend, .other, false, [.emoji], false⟩,
    ⟨0x1F44D, 0x1F44D, .otherSymbol, .other, .other, false, pictograph, false⟩,
    ⟨0x1F467, 0x1F469, .otherSymbol, .other, .other, false, pictograph, false⟩,
    ⟨0x1F600, 0x1F600, .otherSymbol, .other, .other, false, pictograph, false⟩,
    ⟨0xE0001, 0xE0001, .format, .control, .other, false, [], true⟩,
    ⟨0xE0067, 0xE0067, .format, .extend, .other, false, [], true⟩,
    ⟨0xE007F, 0xE007F, .format, .extend, .other, false, [], true⟩,
    ⟨0x10FFFE, 0x10FFFF, .unassigned, .other, .other, false, [], true⟩
  ]

/-- The row of a code point that is not in the table. -/
def unassigned (n : Nat) : Row := ⟨n, n, .unassigned, .other, .other, false, [], false⟩

/-- The row of a character. -/
def of (c : Char) : Row :=
  (table.find? fun r => r.first ≤ c.toNat && c.toNat ≤ r.last).getD (unassigned c.toNat)

/-- What holds of the rows of the table and of unassigned characters holds of all characters. -/
theorem of_induction {Q : Row → Prop} (htable : ∀ row ∈ table, Q row)
    (hunassigned : ∀ n, Q (unassigned n)) (c : Char) : Q (of c) := by
  rw [of]
  cases h : table.find? fun row => row.first ≤ c.toNat && c.toNat ≤ row.last with
  | none => exact hunassigned c.toNat
  | some row => exact htable row (List.mem_of_find?_eq_some h)

end Row

end Backtrack.Unicode
