import Backtrack.Unicode.Table

/-!
# Quoted text

How characters and strings are shown in expectations and diagnostics: between quotes, with the
quote itself, the backslash and some controls escaped by a letter, and every other character that
does not print on its own escaped by its number.
-/

namespace Backtrack.Text

/-- A number in lower-case hexadecimal digits, without leading zeros. -/
def hex (n : Nat) : String := String.ofList (Nat.toDigits 16 n)

/-- A character as it stands between two quotes of the given kind. -/
def escape (quote c : Char) : String :=
  if c = quote then "\\" ++ quote.toString
  else if c = '\\' then "\\\\"
  else if c = '\x00' then "\\0"
  else if c = '\t' then "\\t"
  else if c = '\r' then "\\r"
  else if c = '\n' then "\\n"
  else if c = '\'' then "'"
  else if (Unicode.Row.of c).escaped then "\\u\x7b" ++ hex c.toNat ++ "\x7d"
  else c.toString

/-- A character between single quotes. -/
def quoteChar (c : Char) : String := "'" ++ escape '\'' c ++ "'"

/-- A string between double quotes. -/
def quoteString (s : String) : String :=
  "\"" ++ String.join (s.toList.map (escape '"')) ++ "\""

/-- Shown items between brackets. -/
def bracketed (items : List String) : String := "[" ++ String.intercalate ", " items ++ "]"

end Backtrack.Text
