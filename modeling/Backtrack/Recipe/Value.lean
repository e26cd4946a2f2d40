import Backtrack.Json
import Backtrack.Script

/-!
# Values of recipes

Parsers that are described by data produce values of one type. A value has a size, a number and a
text, on which the functions of recipes are defined.
-/

namespace Backtrack.Recipe

/-- What a described parser produces. -/
inductive Value where
  | unit
  | bool (b : Bool)
  | int (n : Int64)
  | float (x : Binary64)
  | char (c : Char)
  | str (s : String)
  | list (items : List Value)
  | tuple (items : List Value)
  | none
  | some (v : Value)
  | span (s : Span)
  /-- A piece of a document, by its kind and its parts. -/
  | node (kind : String) (parts : List Value)
  /-- The groups of a match, with the names that they are asked for. -/
  | groups (g : Groups) (names : List String)

namespace Value

mutual

/-- Whether two values are equal. -/
def beq : Value → Value → Bool
  | unit, unit => true
  | bool a, bool b => a == b
  | int a, int b => a == b
  | float a, float b => a == b
  | char a, char b => a == b
  | str a, str b => a == b
  | list as, list bs => beqList as bs
  | tuple as, tuple bs => beqList as bs
  | none, none => true
  | some a, some b => beq a b
  | span a, span b => a == b
  | node k as, node l bs => k == l && beqList as bs
  | groups g ns, groups h ms => g == h && ns == ms
  | _, _ => false

/-- Whether two lists of values are equal. -/
def beqList : List Value → List Value → Bool
  | [], [] => true
  | a :: as, b :: bs => beq a b && beqList as bs
  | _, _ => false

end

instance : BEq Value := ⟨beq⟩

instance : Inhabited Value := ⟨unit⟩

/-- An optional value. -/
def ofOption : Option Value → Value
  | .some v => some v
  | .none => none

/-- A text that may be missing. -/
def ofText? (s : Option String) : Value := ofOption (s.map str)

/-- A natural number. -/
def ofNat (n : Nat) : Value := int (.ofNat n)

/-- The value of a setting. -/
def ofSetting : Setting → Value
  | .bool b => bool b
  | .int n => int n
  | .float x => float x
  | .text s => str s

/-- The number of items, or of characters; a value without parts has size one, and nothing has
size zero. -/
def size : Value → Nat
  | list items | tuple items => items.length
  | str s => s.length
  | unit | none => 0
  | _ => 1

/-- An integer as it is, the value of a digit, and the size of anything else. -/
def num : Value → Int64
  | int n => n
  | char c => if c.isDigit then .ofNat (c.toNat - '0'.toNat) else 0
  | v => .ofNat v.size

mutual

/-- The characters and numbers in the value, one after another. -/
def text : Value → String
  | char c => c.toString
  | str s => s
  | int n => describe n
  | list items | tuple items => textList items
  | some v => v.text
  | _ => ""

/-- The characters and numbers in a list of values. -/
def textList : List Value → String
  | [] => ""
  | v :: vs => v.text ++ textList vs

end

/-- The condition that a value stands for. -/
def truth : Value → Bool
  | bool b => b
  | int n => n != 0
  | str s => !s.isEmpty
  | list items => !items.isEmpty
  | unit | none => false
  | _ => true

/-! ## Documents -/

mutual

/-- The value of a JSON document. -/
def ofJson : Json → Value
  | .null => unit
  | .bool b => bool b
  | .number x => float x
  | .string s => str s
  | .array items => list (ofItems items)
  | .object members => list (ofMembers members)

/-- The values of an array. -/
def ofItems : List Json → List Value
  | [] => []
  | j :: js => ofJson j :: ofItems js

/-- The pairs of an object. -/
def ofMembers : List (String × Json) → List Value
  | [] => []
  | (key, j) :: ms => tuple [str key, ofJson j] :: ofMembers ms

end

/-- The value of a whole JSON document, where an object is told apart from an array. -/
def ofDocument : Json → Value
  | .object members => node "object" [list (ofMembers members)]
  | j => ofJson j

mutual

/-- The value of an expression of a script. -/
def ofExpr : Script.Expr → Value
  | .bool b => node "Bool" [bool b]
  | .number x => node "Number" [float x]
  | .str s => node "Str" [str s]
  | .tuple items => node "Tuple" (ofExprs items)
  | .block stats last => node "Block" [list (ofStats stats), ofExpr? last]
  | .ifElse test yes no => node "If" [ofExpr test, ofExpr yes, ofExpr? no]
  | .ident name => node "Ident" [str name]
  | .call callee args => node "Call" [ofExpr callee, list (ofExprs args)]
  | .property target name => node "Property" [ofExpr target, str name]

/-- The value of a statement of a script. -/
def ofStat : Script.Stat → Value
  | .letVar name init => node "Let" [str name, ofExpr init]
  | .defFn name params body => node "DefFn" [str name, list (params.map str), ofExpr body]
  | .ret value => node "Return" [ofExpr? value]
  | .whileLoop test body => node "While" [ofExpr test, ofExpr body]
  | .breakLoop => node "Break" []
  | .expr e => node "Expr" [ofExpr e]

/-- The value of an expression that may be missing. -/
def ofExpr? : Option Script.Expr → Value
  | .some e => some (ofExpr e)
  | .none => none

/-- The values of expressions. -/
def ofExprs : List Script.Expr → List Value
  | [] => []
  | e :: es => ofExpr e :: ofExprs es

/-- The values of statements. -/
def ofStats : List Script.Stat → List Value
  | [] => []
  | s :: ss => ofStat s :: ofStats ss

end

end Value

/-- Symbols that are values. -/
class Symbol (σ : Type) extends Describe σ where
  decEq : DecidableEq σ
  toValue : σ → Value

instance {σ : Type} [h : Symbol σ] : DecidableEq σ := h.decEq

instance : Symbol Char := ⟨inferInstance, .char⟩

instance : Symbol Int64 := ⟨inferInstance, .int⟩

instance : Symbol Token where
  decEq := inferInstance
  toValue
    | .int n => .int n
    | .text s => .str s

/-- The value of a pattern that was matched. -/
def Value.ofPattern {σ : Type} [Symbol σ] : Pattern σ → Value
  | .single x => Symbol.toValue x
  | .text s _ => .str s
  | .symbols xs => .list (xs.map Symbol.toValue)

end Backtrack.Recipe
