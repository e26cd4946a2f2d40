import Backtrack.Symbol
import Backtrack.Number.Shortest

/-!
# Configurations

Settings that every parser of a run can look at. A configuration holds at most one value for each
key and lists its keys in ascending order.
-/

namespace Backtrack

/-- A value of a setting. -/
inductive Setting where
  | bool (value : Bool)
  | int (value : Int64)
  | float (value : Binary64)
  | text (value : String)
  deriving DecidableEq

namespace Setting

/-- Equality of values, where floats are compared as numbers. -/
def same : Setting → Setting → Bool
  | bool a, bool b => a == b
  | int a, int b => a == b
  | float a, float b => a.numEq b
  | text a, text b => a == b
  | _, _ => false

/-- The value with the name of its kind. -/
def inspect : Setting → String
  | bool b => "Bool(" ++ (if b then "true" else "false") ++ ")"
  | int n => "Int(" ++ describe n ++ ")"
  | float x => "Float(" ++ x.text ++ ")"
  | text s => "Str(" ++ Text.quoteString s ++ ")"

end Setting

/-- Settings by key, in ascending order of their keys. -/
structure Config where
  entries : List (String × Setting) := []
  deriving DecidableEq

namespace Config

/-- The configuration without settings. -/
def empty : Config := {}

instance : Inhabited Config := ⟨empty⟩

/-- The value of a key. -/
def get? (cfg : Config) (key : String) : Option Setting := cfg.entries.lookup key

/-- Puts a setting in its place among ordered ones, over an older one of the same key. -/
def insertEntry (key : String) (value : Setting) : List (String × Setting) → List (String × Setting)
  | [] => [(key, value)]
  | (k, v) :: rest =>
    if key = k then (key, value) :: rest
    else if key < k then (key, value) :: (k, v) :: rest
    else (k, v) :: insertEntry key value rest

/-- Sets the value of a key. -/
def insert (cfg : Config) (key : String) (value : Setting) : Config :=
  ⟨insertEntry key value cfg.entries⟩

/-- The configuration of a list of settings, the last one of a key winning. -/
def ofList (settings : List (String × Setting)) : Config :=
  settings.foldl (fun cfg (k, v) => cfg.insert k v) empty

/-- The value of a key that holds a truth value. -/
def getBool? (cfg : Config) (key : String) : Option Bool :=
  match cfg.get? key with
  | some (.bool b) => some b
  | _ => none

/-- The value of a key that holds an integer. -/
def getInt? (cfg : Config) (key : String) : Option Int64 :=
  match cfg.get? key with
  | some (.int n) => some n
  | _ => none

/-- The value of a key that holds a number. An integer is converted to the nearest float. -/
def getFloat? (cfg : Config) (key : String) : Option Binary64 :=
  match cfg.get? key with
  | some (.float x) => some x
  | some (.int n) => some (.ofInt n.toInt)
  | _ => none

/-- The value of a key that holds a text. -/
def getText? (cfg : Config) (key : String) : Option String :=
  match cfg.get? key with
  | some (.text s) => some s
  | _ => none

/-- The number of settings. -/
def size (cfg : Config) : Nat := cfg.entries.length

/-- Equality of configurations, where floats are compared as numbers. -/
def same (a b : Config) : Bool :=
  a.entries.length == b.entries.length &&
    (a.entries.zip b.entries).all fun ((k, v), (l, w)) => k == l && v.same w

/-- The configuration spelled out for a diagnostic. -/
def inspect (cfg : Config) : String :=
  "Config \x7b values: \x7b" ++
    String.intercalate ", "
      (cfg.entries.map fun (k, v) => Text.quoteString k ++ ": " ++ v.inspect) ++
    "\x7d \x7d"

end Config

end Backtrack
