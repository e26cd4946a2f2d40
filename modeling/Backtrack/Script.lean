import Backtrack.Number.Literal
import Backtrack.ParseResult
import Backtrack.Unicode.Property

/-!
# A scripting language

The grammar of a small language of expressions and statements, in two rules that refer to each
other. Calls and property accesses follow an expression and are applied to it from left to right.

Which characters are white space, and of which words are made, is left open (`Alphabet`). Texts are
read with the alphabet of the character table, `Alphabet.unicode`.
-/

namespace Backtrack.Script

mutual

/-- An expression. -/
inductive Expr where
  | bool (b : Bool)
  | number (x : Binary64)
  | str (s : String)
  | tuple (items : List Expr)
  | block (stats : List Stat) (last : Option Expr)
  | ifElse (test : Expr) (yes : Expr) (no : Option Expr)
  | ident (name : String)
  | call (callee : Expr) (args : List Expr)
  | property (target : Expr) (name : String)

/-- A statement. -/
inductive Stat where
  | letVar (name : String) (init : Expr)
  | defFn (name : String) (params : List String) (body : Expr)
  | ret (value : Option Expr)
  | whileLoop (test : Expr) (body : Expr)
  | breakLoop
  | expr (e : Expr)

end

/-- A call or a property access that follows an expression. -/
inductive Postfix where
  | call (args : List Expr)
  | property (name : String)

/-- Applies what follows an expression to it. -/
def Postfix.apply (target : Expr) : Postfix → Expr
  | call args => .call target args
  | property name => .property target name

/-- The rules of the language. -/
inductive Rule where
  | expr | stat
  deriving DecidableEq

/-- What the rules produce. -/
abbrev Rule.Value : Rule → Type
  | expr => Expr
  | stat => Stat

/-- Parsers of script text. -/
abbrev Grammar (α : Type) := Parser Char Rule.Value α

/-- Items with a separator between them, and perhaps another one at the end. -/
def sepByTrailing {ι : Type} {τ : ι → Type} {α β : Type} (p : Parser Char τ α)
    (sep : Parser Char τ β) : Parser Char τ (List α) :=
  .block ([] : List α) do
    Block.passes do
      let a ← Block.step p false
      Block.modify (· ++ [a])
      let _ ← Block.step sep true
    Block.vars

/-! ## Characters -/

/-- The characters that the language asks for by their properties. -/
class Alphabet where
  /-- White space. -/
  isBlank : Char → Bool
  /-- The characters with which a word may begin, apart from the underscore. -/
  isStart : Char → Bool
  /-- The characters with which a word may go on. -/
  isContinue : Char → Bool

/-- The properties White_Space, XID_Start and XID_Continue of the character table. -/
instance Alphabet.unicode : Alphabet where
  isBlank := Unicode.Trait.whiteSpace.holds
  isStart := Unicode.Trait.xidStart.holds
  isContinue := Unicode.Trait.xidContinue.holds

variable [Alphabet]

/-! ## Lexemes -/

/-- White space. -/
def blank : Grammar Unit := .manyAccum (.satisfy Alphabet.isBlank) () (fun _ _ => ()) {}

/-- An identifier. -/
def ident : Grammar String :=
  .label
    (.andMap (.either (.charWith Alphabet.isStart) (.el '_'))
      (.many (.charWith Alphabet.isContinue) {})
      fun first rest => String.ofList (first :: rest))
    "identifier"

/-- The two truth values. -/
def boolean : Grammar Expr :=
  (Parser.either ((Parser.literal (.string "true")).withValue true)
    ((Parser.literal (.string "false")).withValue false)).map .bool

/-- One or more decimal digits. -/
def digits : Grammar (List Char) :=
  .manyAccum (.oneOf (.string "0123456789")) [] (fun ds d => ds ++ [d]) { min := 1 }

/-- A number with an optional sign and an optional fraction. -/
def number : Grammar Expr :=
  .label
    (.andMap (.option (.oneOf (.string "+-")) '+')
      (.andMap digits (.option ((Parser.el '.').andThen digits) []) Prod.mk)
      fun sign (whole, fraction) =>
        .number ((Binary64.ofLiteral? (sign :: whole ++ '.' :: fraction ++ ['0'])).getD .nan))
    "number"

/-- A string, where a backslash makes the next character stand for itself. -/
def string : Grammar Expr :=
  ((Parser.many (.either (.noneOf (.string "\"\\")) ((Parser.el '\\').andThen .any)) {}).between
    (.el '"') (.el '"')).map fun cs => .str (String.ofList cs)

/-! ## Expressions and statements -/

/-- The rule of expressions. -/
def exprRef : Grammar Expr := .rule Rule.expr

/-- The rule of statements. -/
def statRef : Grammar Stat := .rule Rule.stat

/-- Expressions between parentheses. -/
def tupleItems : Grammar (List Expr) :=
  ((sepByTrailing exprRef (.el ',')).skip blank).between (.el '(') (.el ')')

/-- Statements between braces, with an expression for the value. -/
def block : Grammar Expr :=
  ((Parser.andMap (.many statRef {}) (.opt exprRef) Expr.block).skip blank).between
    (.el '\x7b') (.el '\x7d')

/-- A conditional. -/
def ifExpr : Grammar Expr :=
  .andMap
    (((Parser.literal (.string "if")).andThen blank).andThen
      (exprRef.between (.el '(') (.el ')')))
    (.andMap exprRef (.opt ((Parser.literal (.string "else")).andThen exprRef)) Prod.mk)
    fun test (yes, no) => .ifElse test yes no

/-- What may follow an expression, applied to it. -/
def tail (head : Expr) : Grammar Expr :=
  (Parser.many
    ((Parser.either (tupleItems.map .call)
      ((((Parser.el '.').andThen blank).andThen ident).map .property)).skip blank) {}).map
    fun tails => tails.foldl Postfix.apply head

/-- An expression with white space around it. -/
def expr : Grammar Expr :=
  ((Parser.choiceOf
    [boolean, number, string, tupleItems.map .tuple, block, ifExpr, ident.map .ident]).between
    blank blank).flatMap tail

/-- An identifier with white space around it. -/
def name : Grammar String := ident.between blank blank

/-- A variable. -/
def letStat : Grammar Stat :=
  .andMap (((Parser.literal (.string "let")).andThen name).skip (.el '=')) exprRef .letVar

/-- A function. -/
def fnStat : Grammar Stat :=
  .andMap ((Parser.literal (.string "fn")).andThen name)
    (.andMap
      (((Parser.sepBy name (.el ',') {}).skip blank).between (.el '(') (.el ')'))
      exprRef Prod.mk)
    fun name (params, body) => .defFn name params body

/-- The end of a function. -/
def returnStat : Grammar Stat :=
  (((Parser.literal (.string "return")).andThen (.opt exprRef)).skip blank).map .ret

/-- A loop. -/
def whileStat : Grammar Stat :=
  .andMap
    (((Parser.literal (.string "while")).skip blank).andThen
      (exprRef.between (.el '(') (.el ')')))
    exprRef .whileLoop

/-- The end of a loop. -/
def breakStat : Grammar Stat :=
  ((Parser.literal (.string "break")).withValue .breakLoop).skip blank

/-- A statement with its semicolon and white space around it. -/
def stat : Grammar Stat :=
  ((Parser.choiceOf
    [letStat, fnStat, returnStat, whileStat, breakStat, exprRef.map .expr]).skip
    (.el ';')).between blank blank

/-- A program: statements and nothing else. -/
def program : Grammar (List Stat) := (Parser.many statRef {}).skip .eoi

/-- What parsing a text runs in. -/
def env (text : List Char) : Env Char Rule.Value where
  source := .text text
  rules
    | .expr => some expr
    | .stat => some stat

/-- A bound on the depth of a run. Every level of nesting and every pass of a loop takes at least
one position of the text. -/
def depth (text : List Char) : Nat := 64 * ((Source.text text).len + 2)

/-- Parses a text by a parser of the language. -/
def parse? {α : Type} (p : Grammar α) (text : List Char) : Option (ParseResult α) :=
  p.parse? (depth text) (env text)

end Backtrack.Script
