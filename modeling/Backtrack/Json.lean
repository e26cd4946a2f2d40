import Backtrack.Number.Literal
import Backtrack.ParseResult
import Backtrack.Regex.Program

/-!
# JSON

The grammar of JSON documents. A value is a rule that refers to itself. White space may stand
around every token; strings are read by a block that alternates plain chunks and escapes.
-/

namespace Backtrack

/-- A JSON value. Members of an object are kept in order, also those with equal keys. -/
inductive Json where
  | null
  | bool (b : Bool)
  | number (x : Binary64)
  | string (s : String)
  | array (items : List Json)
  | object (members : List (String × Json))

namespace Json

/-! ## Lexemes -/

section Lexemes

open Regex (Program)
open Regex.CharSet Regex.Node

/-- White space between tokens. -/
def blankText : Program := { node := star (.set (ofString " \t\n\r")) }

/-- A decimal digit. -/
def digit : Regex.Node := .set (ofList [range '0' '9'])

/-- A number: no superfluous zero in front, and digits on both sides of the point. -/
def numberText : Program where
  node := concat
    [optional (.set (.char '-')),
     alt none (.set (.char '0')) (.seq (.set (ofList [range '1' '9'])) (star digit)),
     optional (.seq (.set (.char '.')) (plus digit)),
     optional (concat [.set (ofString "eE"), optional (.set (ofString "+-")), plus digit])]

/-- Characters of a string that stand for themselves. -/
def plainText : Program where
  node := plus (.set (.compl (ofList [.char '"', .char '\\', range '\x00' '\x1f'])))

/-- A hexadecimal digit. -/
def hexDigit : Regex.Node := .set (ofList [range '0' '9', range 'a' 'f', range 'A' 'F'])

/-- An escape in a string; its first group is what follows the backslash. -/
def escapeText : Program where
  node := .seq (.set (.char '\\')) <| .group 1 <|
    alt none (.set (ofString "\"\\/bfnrt"))
      (concat [.set (.char 'u'), hexDigit, hexDigit, hexDigit, hexDigit, .empty])
  groupCount := 2

/-- The lexemes are what these patterns stand for. -/
theorem lexemes_read :
    Program.read? "[ \\t\\n\\r]*" = some blankText ∧
    Program.read? "-?(?:0|[1-9][0-9]*)(?:\\.[0-9]+)?(?:[eE][+-]?[0-9]+)?" = some numberText ∧
    Program.read? "[^\"\\\\\\x00-\\x1f]+" = some plainText ∧
    Program.read? "\\\\([\"\\\\/bfnrt]|u[0-9a-fA-F]\x7b4\x7d)" = some escapeText :=
  ⟨rfl, rfl, rfl, rfl⟩

end Lexemes

/-! ## Strings -/

/-- The value of hexadecimal digits. -/
def hexValue (ds : List Char) : Nat :=
  ds.foldl (fun acc d => 16 * acc + (Regex.Reader.hexDigit? d).getD 0) 0

/-- The character that an escape stands for. A number that is no character is replaced. -/
def unescape (code : List Char) : Char :=
  match code with
  | ['b'] => '\x08'
  | ['f'] => '\x0c'
  | ['n'] => '\n'
  | ['r'] => '\r'
  | ['t'] => '\t'
  | 'u' :: ds => (Regex.Reader.scalar? (hexValue ds)).getD '\ufffd'
  | c :: _ => c
  | [] => '\x00'

/-! ## Grammar -/

/-- Parsers of JSON text, in a grammar with the one rule of values. -/
abbrev Grammar (α : Type) := Parser Char (fun _ : Unit => Json) α

/-- White space. -/
def blank : Grammar String := .regex blankText.regex

/-- A character with white space behind it. -/
def token (c : Char) : Grammar Unit := ((Parser.el c).skip blank).withValue ()

/-- A string between double quotes. -/
def stringLiteral : Grammar String :=
  .label
    (.block "" do
      let _ ← Block.step (.el '"') false
      Block.passes do
        match ← Block.option (.regex plainText.regex) with
        | some chunk => Block.modify (· ++ chunk)
        | none =>
          let code ← Block.step (.regexGroup escapeText.regex 1) false
          Block.modify fun text => text.push (unescape (code.getD "").toList)
      let _ ← Block.step (.el '"') false
      Block.vars)
    "string"

/-- A number. -/
def numberValue : Grammar Json :=
  (Parser.label (.regex numberText.regex) "number").map fun text =>
    .number ((Binary64.ofLiteral? text.toList).getD .nan)

/-- The rule of values. -/
def valueRef : Grammar Json := .rule ()

/-- Values between brackets. -/
def arrayValue : Grammar Json :=
  ((Parser.sepBy valueRef (token ',') {}).between (token '[') (token ']')).map .array

/-- A key with its value. -/
def member : Grammar (String × Json) :=
  Parser.andMap (stringLiteral.skip blank) ((token ':').andThen valueRef) Prod.mk

/-- Members between braces. -/
def objectValue : Grammar Json :=
  ((Parser.sepBy member (token ',') {}).between (token '\x7b') (token '\x7d')).map .object

/-- A value with white space behind it. -/
def value : Grammar Json :=
  (Parser.choiceOf
    [(Parser.literal (.string "null")).withValue .null,
     (Parser.literal (.string "true")).withValue (.bool true),
     (Parser.literal (.string "false")).withValue (.bool false),
     numberValue,
     stringLiteral.map .string,
     arrayValue,
     objectValue]).skip blank

/-- A document: one value and nothing else but white space. -/
def document : Grammar Json := (blank.andThen valueRef).skip .eoi

/-- What parsing a text runs in. -/
def env (text : List Char) : Env Char (fun _ : Unit => Json) where
  source := .text text
  rules _ := some value

/-- A bound on the depth of a run. Every level of nesting and every pass of a loop takes at least
one position of the text. -/
def depth (text : List Char) : Nat := 32 * ((Source.text text).len + 2)

/-- Parses a document. -/
def parse? (text : List Char) : Option (ParseResult Json) :=
  document.parse? (depth text) (env text)

end Json

end Backtrack
