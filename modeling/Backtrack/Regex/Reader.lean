import Backtrack.Regex.Expr

/-!
# Reading patterns

The notation of regular expressions: literals and escapes, classes with set operations, groups
with names and flags, alternation, and greedy and reluctant repetition. A reader returns what it
read with the characters left over, or `none` if the pattern is malformed.
-/

namespace Backtrack.Regex

/-- The flags in force at a point of a pattern. -/
structure Flags where
  ignoreCase : Bool := false
  multiLine : Bool := false
  dotAll : Bool := false
  swapGreed : Bool := false
  ignoreSpace : Bool := false
  deriving DecidableEq, Repr

/-- One element of a pattern that stands for itself. -/
inductive Primitive where
  | char (c : Char)
  | set (s : CharSet)
  | assertion (a : Assertion)

namespace Reader

/-- White space, in a pattern that may be laid out freely. -/
def isBlank (c : Char) : Bool := Unicode.Trait.whiteSpace.holds c

/-- Skips white space and comments, which last to the end of the line. -/
def skipLayout : Bool → List Char → List Char
  | _, [] => []
  | true, c :: cs => skipLayout (c != '\n') cs
  | false, c :: cs =>
    if isBlank c then skipLayout false cs else if c == '#' then skipLayout true cs else c :: cs

/-- Skips what the flags say to ignore. -/
def skip (f : Flags) (cs : List Char) : List Char :=
  if f.ignoreSpace then skipLayout false cs else cs

/-- The set as the flags have it. -/
def fold (f : Flags) (s : CharSet) : CharSet := if f.ignoreCase then .folded s else s

/-- The set or, if `negated`, what is not in it. -/
def negate (negated : Bool) (s : CharSet) : CharSet := if negated then .compl s else s

/-! ## Numbers -/

/-- The value of a hexadecimal digit. -/
def hexDigit? (c : Char) : Option Nat :=
  if '0' ≤ c && c ≤ '9' then some (c.toNat - '0'.toNat)
  else if 'a' ≤ c && c ≤ 'f' then some (c.toNat - 'a'.toNat + 10)
  else if 'A' ≤ c && c ≤ 'F' then some (c.toNat - 'A'.toNat + 10)
  else none

/-- The character of a code point. -/
def scalar? (n : Nat) : Option Char := if n.isValidChar then some (Char.ofNat n) else none

/-- Reads a given number of hexadecimal digits. -/
def readHexDigits (f : Flags) : Nat → Nat → List Char → Option (Nat × List Char)
  | 0, acc, cs => some (acc, cs)
  | n + 1, acc, cs =>
    match cs with
    | [] => none
    | c :: cs => (hexDigit? c).bind fun d => readHexDigits f n (16 * acc + d) (skip f cs)

/-- The characters before a closing brace, and those behind it. -/
def readBraced (f : Flags) (fuel : Nat) (cs : List Char) : Option (List Char × List Char) :=
  match fuel, skip f cs with
  | 0, _ | _, [] => none
  | _, '\x7d' :: cs => some ([], cs)
  | n + 1, c :: cs => (readBraced f n cs).map fun (inner, rest) => (c :: inner, rest)

/-- Reads the number of a character, in braces or with a given number of digits. -/
def readHex (f : Flags) (digits : Nat) (cs : List Char) : Option (Char × List Char) :=
  match skip f cs with
  | '\x7b' :: cs =>
    match readBraced f (cs.length + 1) cs with
    | some (inner, rest) =>
      if inner.isEmpty then none
      else
        match inner.mapM hexDigit? with
        | some ds => (scalar? (ds.foldl (16 * · + ·) 0)).map fun c => (c, skip f rest)
        | none => none
    | none => none
  | cs =>
    match readHexDigits f digits 0 cs with
    | some (n, rest) => (scalar? n).map fun c => (c, rest)
    | none => none

/-- Reads decimal digits. -/
def readDigits (f : Flags) : Nat → List Char → List Char × List Char
  | 0, cs => ([], cs)
  | n + 1, cs =>
    match cs with
    | c :: rest =>
      if c.isDigit then
        let (ds, left) := readDigits f n (skip f rest)
        (c :: ds, left)
      else ([], cs)
    | [] => ([], [])

/-- Reads a repetition count, which may stand between blanks and fits in 32 bits. -/
def readCount (f : Flags) (cs : List Char) : Option (Nat × List Char) :=
  let (ds, rest) := readDigits f cs.length (cs.dropWhile isBlank)
  let n := ds.foldl (fun acc d => 10 * acc + (d.toNat - '0'.toNat)) 0
  if ds.isEmpty || Nat.pow 2 32 ≤ n then none else some (n, skip f (rest.dropWhile isBlank))

/-! ## Escapes -/

/-- The characters with a meaning of their own in patterns. -/
def isMeta (c : Char) : Bool := "\\.+*?()|[]\x7b\x7d^$#&-~".toList.contains c

/-- A character that may follow a backslash and then stands for itself. -/
def isEscapable (c : Char) : Bool :=
  isMeta c || (c.toNat < 0x80 && !c.isAlphanum && c != '<' && c != '>')

/-- Reads the name of a property, a letter or a text in braces. -/
def readProperty (f : Flags) (negated : Bool) (cs : List Char) : Option (Primitive × List Char) :=
  let named (name : List Char) : Option CharSet :=
    let value := name.dropWhile fun c => c != ':' && c != '='
    match value with
    | [] => CharSet.property? (String.ofList name)
    | sep :: value =>
      let key := name.takeWhile fun c => c != ':' && c != '='
      let differs := sep == '=' && key.getLast? == some '!'
      let key := if differs then key.dropLast else key
      if ["gc", "generalcategory"].contains (CharSet.looseName (String.ofList key)) then
        (CharSet.category? (String.ofList value)).map (negate differs)
      else none
  let done (s : CharSet) (rest : List Char) : Primitive × List Char :=
    (.set (negate negated (fold f s)), rest)
  match skip f cs with
  | [] => none
  | '\x7b' :: cs =>
    match readBraced f (cs.length + 1) cs with
    | some (name, rest) => (named name).map fun s => done s rest
    | none => none
  | c :: cs => (CharSet.property? c.toString).map fun s => done s (skip f cs)

/-- Reads what follows a backslash. -/
def readEscape (f : Flags) : List Char → Option (Primitive × List Char)
  | [] => none
  | c :: cs =>
    match c with
    | 'x' => (readHex f 2 cs).map fun (c, rest) => (.char c, rest)
    | 'u' => (readHex f 4 cs).map fun (c, rest) => (.char c, rest)
    | 'U' => (readHex f 8 cs).map fun (c, rest) => (.char c, rest)
    | 'p' => readProperty f false cs
    | 'P' => readProperty f true cs
    | 'd' => some (.set .digit, cs)
    | 'D' => some (.set (.compl .digit), cs)
    | 's' => some (.set .space, cs)
    | 'S' => some (.set (.compl .space), cs)
    | 'w' => some (.set .word, cs)
    | 'W' => some (.set (.compl .word), cs)
    | 'a' => some (.char '\x07', cs)
    | 'f' => some (.char '\x0c', cs)
    | 't' => some (.char '\t', cs)
    | 'n' => some (.char '\n', cs)
    | 'r' => some (.char '\r', cs)
    | 'v' => some (.char '\x0b', cs)
    | 'A' => some (.assertion .startOfText, cs)
    | 'z' => some (.assertion .endOfText, cs)
    | 'b' => some (.assertion .wordBoundary, cs)
    | 'B' => some (.assertion .notWordBoundary, cs)
    | c => if isEscapable c then some (.char c, cs) else none

/-! ## Classes -/

/-- An operation between two parts of a class. -/
inductive SetOp where
  | inter | diff | symDiff

/-- Applies an operation to the part before it and the part behind it. -/
def SetOp.apply : SetOp → CharSet → CharSet → CharSet
  | inter, s, t => .inter s t
  | diff, s, t => .diff s t
  | symDiff, s, t => .union (.diff s t) (.diff t s)

/-- A part of a class together with the operation and the part before it. -/
def joinParts (f : Flags) (before : Option (SetOp × CharSet)) (part : CharSet) : CharSet :=
  match before with
  | none => fold f part
  | some (op, s) => op.apply s (fold f part)

/-- Reads the name of an ASCII class behind its opening bracket. -/
def readAscii : List Char → Option (CharSet × List Char)
  | ':' :: cs =>
    let (negated, cs) :=
      match cs with
      | '^' :: cs => (true, cs)
      | cs => (false, cs)
    let name := cs.takeWhile (· != ':')
    match cs.dropWhile (· != ':') with
    | ':' :: ']' :: rest =>
      (CharSet.ascii? (String.ofList name)).map fun s => (negate negated s, rest)
    | _ => none
  | _ => none

/-- Reads an element of a class. -/
def readElement (f : Flags) : List Char → Option (Primitive × List Char)
  | [] => none
  | '\\' :: cs => readEscape f cs
  | c :: cs => some (.char c, cs)

/-- Reads an element of a class or a range of characters. -/
def readRange (f : Flags) (cs : List Char) : Option (CharSet × List Char) :=
  match readElement f cs with
  | none => none
  | some (first, rest) =>
    let rest := skip f rest
    let single : Option (CharSet × List Char) :=
      match first with
      | .char c => some (.char c, rest)
      | .set s => some (s, rest)
      | .assertion _ => none
    match rest with
    | '-' :: after =>
      match skip f after with
      | ']' :: _ | '-' :: _ => single
      | after =>
        match first, readElement f after with
        | .char a, some (.char b, rest) => if a ≤ b then some (.range a b, rest) else none
        | _, _ => none
    | [] => none
    | _ => single

/-- Reads hyphens at the start of a class, which stand for themselves. -/
def readHyphens (f : Flags) : Nat → CharSet → List Char → CharSet × List Char
  | n + 1, s, '-' :: cs => readHyphens f n (.union s (.char '-')) (skip f cs)
  | _, s, cs => (s, cs)

/-- Reads what stands between the opening bracket of a class and its parts: a complement, hyphens,
or a closing bracket that stands for itself. -/
def readClassStart (f : Flags) (cs : List Char) : Bool × CharSet × List Char :=
  let cs := skip f cs
  let (negated, cs) :=
    match cs with
    | '^' :: cs => (true, skip f cs)
    | cs => (false, cs)
  match cs with
  | ']' :: cs => (negated, .char ']', skip f cs)
  | cs =>
    let (s, cs) := readHyphens f cs.length .none cs
    (negated, s, cs)

/-- Reads the parts of a class up to its closing bracket. The number bounds the parts that can be
read, of which each takes a character. -/
def readParts (f : Flags) (negated : Bool) :
    Nat → Option (SetOp × CharSet) → CharSet → List Char → Option (CharSet × List Char)
  | 0, _, _, _ => none
  | n + 1, before, part, cs =>
    let operation (op : SetOp) (cs : List Char) :=
      readParts f negated n (some (op, joinParts f before part)) .none cs
    match skip f cs with
    | [] => none
    | '[' :: cs =>
      match readAscii cs with
      | some (s, rest) => readParts f negated n before (.union part (fold f s)) rest
      | none =>
        let (inverse, first, rest) := readClassStart f cs
        match readParts f inverse n none first rest with
        | some (s, rest) => readParts f negated n before (.union part s) rest
        | none => none
    | ']' :: cs => some (negate negated (joinParts f before part), cs)
    | '&' :: '&' :: cs => operation .inter cs
    | '-' :: '-' :: cs => operation .diff cs
    | '~' :: '~' :: cs => operation .symDiff cs
    | cs =>
      match readRange f cs with
      | some (s, rest) => readParts f negated n before (.union part s) rest
      | none => none

/-- Reads a class behind its opening bracket. -/
def readClass (f : Flags) (cs : List Char) : Option (CharSet × List Char) :=
  let (negated, first, rest) := readClassStart f cs
  readParts f negated (cs.length + 1) none first rest

/-! ## Groups -/

/-- A group that is still open: its capture, the flags around it, and what stands before it. -/
structure OpenGroup where
  capture : Option Nat
  flags : Flags
  branches : List Expr
  current : List (Option Expr)

/-- What has been read of a pattern. The branches and the elements of the current one are held
with the latest first; an element without an expression is a change of flags. -/
structure State where
  flags : Flags := {}
  branches : List Expr := []
  current : List (Option Expr) := []
  pending : List OpenGroup := []
  groups : Nat := 1
  names : List (String × Nat) := []

namespace State

/-- The branch that is being read. -/
def branch (s : State) : Expr := .concat (s.current.reverse.filterMap id)

/-- All branches read since the last group was opened. -/
def body (s : State) : Expr := .choice (s.branch :: s.branches).reverse

/-- Adds an element to the current branch. -/
def push (s : State) (e : Expr) : State := { s with current := some e :: s.current }

/-- Opens a group. -/
def openGroup (s : State) (capture : Option Nat) (flags : Flags) : State :=
  { s with
    flags := flags
    branches := []
    current := []
    pending := ⟨capture, s.flags, s.branches, s.current⟩ :: s.pending }

/-- Opens a capturing group. -/
def openCapture (s : State) : State :=
  { s.openGroup (some s.groups) s.flags with groups := s.groups + 1 }

/-- Closes the innermost group. -/
def closeGroup? (s : State) : Option State :=
  match s.pending with
  | [] => none
  | g :: pending =>
    let e := match g.capture with
      | some i => .group i s.body
      | none => s.body
    some { s with
      flags := g.flags, branches := g.branches, current := some e :: g.current, pending := pending }

/-- Repeats the latest element, if there is one. -/
def repeat? (s : State) (min : Nat) (max : Option Nat) (greedy : Bool) : Option State :=
  match s.current with
  | some e :: current =>
    some { s with current := some (e.repeat? min max (greedy != s.flags.swapGreed)) :: current }
  | _ => none

/-- Adds a primitive to the current branch, a letter in both cases if case is ignored. -/
def primitive (s : State) : Primitive → State
  | .char c => s.push (.set (fold s.flags (.char c)))
  | .set t => s.push (.set t)
  | .assertion a => s.push (.assertion a)

end State

/-- A character of a group's name. -/
def isNameChar (first : Bool) (c : Char) : Bool :=
  c == '_' || Unicode.Trait.alphabetic.holds c ||
    (!first &&
      (c == '.' || c == '[' || c == ']' || Unicode.Property.contains (.group .number) c))

/-- Reads the name of a group and opens it. -/
def readName (s : State) (cs : List Char) : Option (State × List Char) :=
  let name := cs.takeWhile (· != '>')
  let text := String.ofList name
  match name, cs.dropWhile (· != '>') with
  | c :: more, '>' :: rest =>
    if isNameChar true c && more.all (isNameChar false) && (s.names.lookup text).isNone then
      some ({ s.openCapture with names := s.names ++ [(text, s.groups)] }, rest)
    else none
  | _, _ => none

/-- Sets the flag of a given letter. -/
def setFlag? (f : Flags) (value : Bool) : Char → Option Flags
  | 'i' => some { f with ignoreCase := value }
  | 'm' => some { f with multiLine := value }
  | 's' => some { f with dotAll := value }
  | 'U' => some { f with swapGreed := value }
  | 'x' => some { f with ignoreSpace := value }
  | 'u' => if value then some f else none
  | _ => none

/-- Reads flags up to the character that ends them. A hyphen turns the flags behind it off, no
letter stands twice, and a hyphen is not the last of them. -/
def readFlags (f : Flags) (seen : List Char) : List Char → Option (Flags × Bool × List Char)
  | [] => none
  | c :: cs =>
    let value := !seen.contains '-'
    if c == ':' || c == ')' then
      if seen.head? == some '-' || (c == ')' && seen.isEmpty) then none
      else some (f, c == ')', cs)
    else if seen.contains c then none
    else if c == '-' then readFlags f (c :: seen) cs
    else
      match setFlag? f value c with
      | some f => readFlags f (c :: seen) cs
      | none => none

/-- Reads what follows an opening parenthesis. -/
def readGroup (s : State) (cs : List Char) : Option (State × List Char) :=
  match skip s.flags cs with
  | '?' :: '=' :: _ | '?' :: '!' :: _ | '?' :: '<' :: '=' :: _ | '?' :: '<' :: '!' :: _ => none
  | '?' :: 'P' :: '<' :: cs | '?' :: '<' :: cs => readName s cs
  | '?' :: cs =>
    match readFlags s.flags [] cs with
    | some (flags, true, rest) =>
      some ({ s with flags := flags, current := none :: s.current }, rest)
    | some (flags, false, rest) => some (s.openGroup none flags, rest)
    | none => none
  | cs => some (s.openCapture, cs)

/-! ## Patterns -/

/-- Reads the sign that makes a repetition reluctant. -/
def readGreedy : List Char → Bool × List Char
  | '?' :: cs => (false, cs)
  | cs => (true, cs)

/-- Reads a repetition without counts. -/
def readRepeat (s : State) (min : Nat) (max : Option Nat) (cs : List Char) :
    Option (State × List Char) :=
  let (greedy, rest) := readGreedy cs
  (s.repeat? min max greedy).map fun s => (s, rest)

/-- Reads the counts of a repetition, which stand in braces. -/
def readCounts (f : Flags) (cs : List Char) : Option (Nat × Option Nat × List Char) :=
  match readCount f (skip f cs) with
  | some (n, '\x7d' :: rest) => some (n, some n, rest)
  | some (n, ',' :: rest) =>
    match skip f rest with
    | '\x7d' :: rest => some (n, none, rest)
    | rest =>
      match readCount f rest with
      | some (m, '\x7d' :: rest) => if n ≤ m then some (n, some m, rest) else none
      | _ => none
  | _ => none

/-- Reads one element of a pattern that starts with a given character. -/
def readItem (s : State) (c : Char) (cs : List Char) : Option (State × List Char) :=
  match c with
  | '(' => readGroup s cs
  | ')' => s.closeGroup?.map fun s => (s, cs)
  | '|' => some ({ s with branches := s.branch :: s.branches, current := [] }, cs)
  | '[' => (readClass s.flags cs).map fun (t, rest) => (s.push (.set t), rest)
  | '?' => readRepeat s 0 (some 1) cs
  | '*' => readRepeat s 0 none cs
  | '+' => readRepeat s 1 none cs
  | '\x7b' =>
    match readCounts s.flags cs with
    | some (min, max, rest) => readRepeat s min max (skip s.flags rest)
    | none => none
  | '\\' => (readEscape s.flags cs).map fun (p, rest) => (s.primitive p, rest)
  | '.' => some (s.push (.set (if s.flags.dotAll then .all else .compl (.char '\n'))), cs)
  | '^' =>
    some (s.push (.assertion (if s.flags.multiLine then .startOfLine else .startOfText)), cs)
  | '$' => some (s.push (.assertion (if s.flags.multiLine then .endOfLine else .endOfText)), cs)
  | c => some (s.primitive (.char c), cs)

/-- Reads a pattern to its end. The number bounds its elements, of which each takes a character. -/
def readAll : Nat → State → List Char → Option State
  | 0, _, _ => none
  | n + 1, s, cs =>
    match skip s.flags cs with
    | [] => if s.pending.isEmpty then some s else none
    | c :: cs =>
      match readItem s c cs with
      | some (s, rest) => readAll n s rest
      | none => none

/-- The expression of a pattern, with the names of its groups. -/
def read? (pattern : List Char) : Option (Expr × List (String × Nat)) :=
  (readAll (pattern.length + 1) {} pattern).map fun s => (s.body, s.names)

end Reader

end Backtrack.Regex
