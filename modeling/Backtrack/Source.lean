/-!
# Sources

A source is a finite input that parsers read by position. In a text a position is a UTF-8 byte
offset and a symbol is a whole character, so a symbol may be several positions wide. In a list of
items a position is an index and every symbol has width one.

Everything a parser reads is defined from `Source.rest?`, the symbols that remain at a position,
which exists only where a symbol starts or the source ends.
-/

namespace Backtrack

/-- The symbols left at offset `pos`, where `width` says how many positions a symbol takes.
`none` if `pos` is past the end or inside a symbol. -/
def dropWidth? {σ : Type} (width : σ → Nat) : List σ → Nat → Option (List σ)
  | xs, 0 => some xs
  | [], _ + 1 => none
  | x :: xs, pos + 1 =>
    if width x ≤ pos + 1 then dropWidth? width xs (pos + 1 - width x) else none

/-- The symbols that fill exactly the first `extent` positions. -/
def takeWidth? {σ : Type} (width : σ → Nat) : List σ → Nat → Option (List σ)
  | _, 0 => some []
  | [], _ + 1 => none
  | x :: xs, extent + 1 =>
    if width x ≤ extent + 1 then
      (takeWidth? width xs (extent + 1 - width x)).map (x :: ·)
    else none

/-- The number of positions that symbols take. -/
def extent {σ : Type} (width : σ → Nat) : List σ → Nat
  | [] => 0
  | x :: xs => width x + extent width xs

@[simp] theorem extent_nil {σ : Type} (width : σ → Nat) : extent width [] = 0 := rfl

@[simp] theorem extent_cons {σ : Type} (width : σ → Nat) (x : σ) (xs : List σ) :
    extent width (x :: xs) = width x + extent width xs := rfl

@[simp] theorem extent_append {σ : Type} (width : σ → Nat) (xs ys : List σ) :
    extent width (xs ++ ys) = extent width xs + extent width ys := by
  induction xs with
  | nil => simp
  | cons x xs ih => simp [ih, Nat.add_assoc]

/-- A finite input that is read by position. -/
inductive Source : Type → Type 1 where
  /-- A text, read by UTF-8 byte offset. -/
  | text (chars : List Char) : Source Char
  /-- A list of symbols, read by index. -/
  | items {σ : Type} (symbols : List σ) : Source σ

namespace Source

variable {σ : Type}

/-- The text of a string. -/
def ofString (s : String) : Source Char := .text s.toList

/-- The symbols of the source, in order. -/
def symbols : Source σ → List σ
  | .text chars => chars
  | .items symbols => symbols

/-- The number of positions that a symbol of the source takes. -/
def width : Source σ → σ → Nat
  | .text _ => Char.utf8Size
  | .items _ => fun _ => 1

/-- The number of positions in the source. -/
def len (src : Source σ) : Nat := extent src.width src.symbols

/-- A source without positions. -/
def isEmpty (src : Source σ) : Bool := src.len == 0

/-- The symbols that remain at `pos`. -/
def rest? (src : Source σ) (pos : Nat) : Option (List σ) := dropWidth? src.width src.symbols pos

/-- The symbol that starts at `pos`, with its width. -/
def symbolAt? (src : Source σ) (pos : Nat) : Option (σ × Nat) :=
  match src.rest? pos with
  | some (x :: _) => some (x, src.width x)
  | _ => none

/-- The symbols between two positions, if both fall between symbols and are in order. -/
def slice? (src : Source σ) (start stop : Nat) : Option (List σ) :=
  if start ≤ stop then
    match src.rest? start with
    | some rest => takeWidth? src.width rest (stop - start)
    | none => none
  else none

/-- The characters of the source, if it is a text. -/
def text? : Source σ → Option (List Char)
  | .text chars => some chars
  | .items _ => none

/-- The characters that remain at `pos`, if the source is a text. -/
def textFrom? (src : Source σ) (pos : Nat) : Option (List Char) :=
  match src.text? with
  | some chars => dropWidth? Char.utf8Size chars pos
  | none => none

/-- The characters between two positions, if the source is a text. -/
def textBetween? (src : Source σ) (start stop : Nat) : Option (List Char) :=
  match src.text? with
  | some chars => (Source.text chars).slice? start stop
  | none => none

end Source

end Backtrack
