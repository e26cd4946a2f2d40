import Backtrack.Source.Boundary
import Backtrack.Span
import Backtrack.Text.Quoted

/-!
# Regular expressions

A regular expression is matched at the start of a text. A match has an end and, for every group, the
part of the text that the group matched last, if it took part. What the expression matches is left
open: `Regex` has what is known of any way of matching, and all that is said of parsers holds for
all of them.
-/

namespace Backtrack

/-- Refers to a group by its index or its name. -/
inductive GroupRef where
  | index (i : Nat)
  | name (n : String)
  deriving DecidableEq, Repr

/-- Why a parser of text cannot be built. -/
inductive BuildError where
  | invalidPattern
  | noGroup (group : GroupRef)
  deriving DecidableEq, Repr

namespace BuildError

/-- The error as a message. -/
def message : BuildError → String
  | invalidPattern => "invalid regular expression: error parsing pattern 0"
  | noGroup (.index i) => "regular expression has no capture group " ++ toString i
  | noGroup (.name n) => "regular expression has no capture group named " ++ Text.quoteString n

end BuildError

namespace Regex

/-- A match at the start of a text. Offsets count bytes from there. -/
structure Match where
  stop : Nat
  captures : List (Nat × Nat × Nat)
  deriving DecidableEq, Repr

namespace Match

/-- The offsets between which a group matched. -/
def group? (m : Match) (i : Nat) : Option (Nat × Nat) :=
  if i = 0 then some (0, m.stop) else m.captures.lookup i

/-- The text that a group matched, taken from the text of the match. -/
def text? (m : Match) (rest : List Char) (i : Nat) : Option String :=
  match m.group? i with
  | some (start, stop) => ((Source.text rest).slice? start stop).map String.ofList
  | none => none

end Match

end Regex

/-- A regular expression, as far as parsers know it: how it matches, and which groups it has. Group
0 is the whole match, which starts where the text does. Nothing else is said of the language in
which expressions are written, or of how they are matched; `Regex.Program` is a way to do it. -/
structure Regex where
  /-- The match at the start of a text. -/
  match? : List Char → Option Regex.Match
  /-- The number of groups, the whole match included. -/
  groupCount : Nat
  /-- The groups with names. -/
  names : List (String × Nat)
  /-- The index of a name. -/
  index? : String → Option Nat
  groupCount_pos : 0 < groupCount
  /-- The groups with names are counted. -/
  lt_groupCount_of_mem : ∀ {x i}, (x, i) ∈ names → i < groupCount
  /-- The index of a name is the one in the list. -/
  index?_eq : ∀ x, index? x = names.lookup x
  /-- A group is found between two characters of the text, or at an end of it. -/
  group_within : ∀ {text m i start stop}, match? text = some m → m.group? i = some (start, stop) →
    start ≤ stop ∧ (Source.text text).IsBoundary start ∧ (Source.text text).IsBoundary stop

namespace Regex

/-- The index of a group. -/
def groupIndex (re : Regex) (group : GroupRef) : Except BuildError Nat :=
  match group with
  | .index i => if i < re.groupCount then .ok i else .error (.noGroup group)
  | .name n =>
    match re.index? n with
    | some i => .ok i
    | none => .error (.noGroup group)

variable {re : Regex} {text : List Char} {m : Match}

/-- What a group has matched is a part of the text. -/
theorem match?_group (h : re.match? text = some m) {i start stop : Nat}
    (hi : m.group? i = some (start, stop)) : ((Source.text text).slice? start stop).isSome := by
  obtain ⟨hle, hstart, hstop⟩ := re.group_within h hi
  exact Source.slice?_isSome hstart hstop hle

/-- A match covers the characters at the start of the text. -/
theorem match?_covers (h : re.match? text = some m) :
    ∃ front back, text = front ++ back ∧ m.stop = extent Char.utf8Size front :=
  (re.group_within h (i := 0) rfl).2.2

end Regex

/-- The groups of a match, each with its place in the source and its text. -/
structure Groups where
  entries : List (Option (Span × String))
  names : List (String × Nat)
  deriving DecidableEq, Repr

namespace Groups

/-- The text of a group, if it took part in the match. -/
def get? (g : Groups) (i : Nat) : Option String := (g.entries[i]?.getD none).map (·.2)

/-- The place of a group in the source. -/
def span? (g : Groups) (i : Nat) : Option Span := (g.entries[i]?.getD none).map (·.1)

/-- The text of the whole match. -/
def matched (g : Groups) : String := (g.get? 0).getD ""

/-- The text of a group with a given name. -/
def named? (g : Groups) (name : String) : Option String :=
  match g.names.lookup name with
  | some i => g.get? i
  | none => none

/-- The number of groups, the whole match included. -/
def size (g : Groups) : Nat := g.entries.length

/-- No groups, not even the whole match. -/
def isEmpty (g : Groups) : Bool := g.entries.isEmpty

/-- The texts of all groups. -/
def toList (g : Groups) : List (Option String) := g.entries.map fun e => e.map (·.2)

/-- The groups of a match of `re` on `rest`, the text at `pos`. -/
def ofMatch (re : Regex) (m : Regex.Match) (rest : List Char) (pos : Nat) : Groups where
  entries := (List.range re.groupCount).map fun i =>
    match m.text? rest i, m.group? i with
    | some text, some (start, stop) => some (.new (pos + start) (pos + stop), text)
    | _, _ => none
  names := re.names

end Groups

end Backtrack
