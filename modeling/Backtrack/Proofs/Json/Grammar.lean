import Backtrack.Json
import Backtrack.Proofs.Regex.Ways

/-!
# What a JSON text denotes

The grammar of RFC 8259 as relations. `ValueText lone r v s` says that the text `r` starts with a
value that denotes `v`, behind which `s` is left, and the other relations are read in the same way.
`DocumentText lone r v` says that all of `r` is one value with white space around it.

Every escape `\uXXXX` belongs to the grammar. If its number is one of a surrogate, it denotes no
character; `lone` says what it may stand for. With nothing to stand for, the texts of the grammar
are those without such escapes. Apart from that, `lone` does not matter (`ValueText.relax`).
-/

namespace Backtrack

namespace Json

variable {lone lone' : Char → Prop}

/-! ## White space and structure -/

/-- White space. -/
def IsBlank (c : Char) : Prop := c = ' ' ∨ c = '\t' ∨ c = '\n' ∨ c = '\r'

instance : DecidablePred IsBlank := fun _ => inferInstanceAs (Decidable (_ ∨ _))

/-- Any amount of white space. -/
inductive Blanks : List Char → List Char → Prop where
  | nil {r : List Char} : Blanks r r
  | cons {c : Char} {r s : List Char} (hc : IsBlank c) (h : Blanks r s) : Blanks (c :: r) s

/-- A structural character, with white space around it. -/
inductive Structural (c : Char) : List Char → List Char → Prop where
  | mk {r s t : List Char} (hbefore : Blanks r (c :: s)) (hbehind : Blanks s t) : Structural c r t

/-! ## Numbers -/

/-- One digit or more. -/
def IsDigits (cs : List Char) : Prop := cs ≠ [] ∧ ∀ c ∈ cs, c.isDigit = true

/-- Zero, or digits of which the first is not zero. -/
inductive IsInteger : List Char → Prop where
  | zero : IsInteger ['0']
  | nonzero {d : Char} {ds : List Char} (hd : '1' ≤ d ∧ d ≤ '9')
    (hds : ∀ c ∈ ds, c.isDigit = true) : IsInteger (d :: ds)

/-- A fraction, if there is one. -/
inductive IsFraction : List Char → Prop where
  | none : IsFraction []
  | some {ds : List Char} (hds : IsDigits ds) : IsFraction ('.' :: ds)

/-- An exponent, if there is one. -/
inductive IsExponent : List Char → Prop where
  | none : IsExponent []
  | some {e : Char} {sign ds : List Char} (he : e = 'e' ∨ e = 'E')
    (hsign : sign = [] ∨ sign = ['+'] ∨ sign = ['-']) (hds : IsDigits ds) :
    IsExponent (e :: (sign ++ ds))

/-- The literal of a number. -/
inductive IsNumber : List Char → Prop where
  | mk {sign int frac exp : List Char} (hsign : sign = [] ∨ sign = ['-']) (hint : IsInteger int)
    (hfrac : IsFraction frac) (hexp : IsExponent exp) : IsNumber (sign ++ (int ++ (frac ++ exp)))

/-! ## Strings -/

/-- A character that may stand for itself in a string. -/
def IsPlain (c : Char) : Prop :=
  0x20 ≤ c.toNat ∧ c.toNat ≤ 0x21 ∨ 0x23 ≤ c.toNat ∧ c.toNat ≤ 0x5b ∨ 0x5d ≤ c.toNat

/-- A hexadecimal digit in either case, with its value. -/
def HexDigit (c : Char) (d : Nat) : Prop :=
  "0123456789abcdef".toList[d]? = some c ∨ "0123456789ABCDEF".toList[d]? = some c

/-- The escapes of one letter, with what they stand for. -/
def shortEscapes : List (Char × Char) :=
  [('"', '"'), ('\\', '\\'), ('/', '/'), ('b', '\x08'), ('f', '\x0c'), ('n', '\n'), ('r', '\r'),
    ('t', '\t')]

/-- What follows the backslash of an escape, and the character that the escape stands for. -/
inductive Escape (lone : Char → Prop) : List Char → Char → Prop where
  | short {code x : Char} (h : (code, x) ∈ shortEscapes) : Escape lone [code] x
  | unicode {a b c d x : Char} {i j k l : Nat} (ha : HexDigit a i) (hb : HexDigit b j)
    (hc : HexDigit c k) (hd : HexDigit d l)
    (hx : x.toNat = 16 * (16 * (16 * i + j) + k) + l) : Escape lone ['u', a, b, c, d] x
  | surrogate {a b c d x : Char} {i j k l : Nat} (ha : HexDigit a i) (hb : HexDigit b j)
    (hc : HexDigit c k) (hd : HexDigit d l) (hfirst : 0xd800 ≤ 16 * (16 * (16 * i + j) + k) + l)
    (hlast : 16 * (16 * (16 * i + j) + k) + l ≤ 0xdfff) (hx : lone x) :
    Escape lone ['u', a, b, c, d] x

/-- Characters and escapes, with what they stand for. -/
inductive Characters (lone : Char → Prop) : List Char → List Char → List Char → Prop where
  | nil {r : List Char} : Characters lone r [] r
  | plain {c : Char} {r xs s : List Char} (hc : IsPlain c) (h : Characters lone r xs s) :
    Characters lone (c :: r) (c :: xs) s
  | escape {code : List Char} {x : Char} {r xs s : List Char} (hcode : Escape lone code x)
    (h : Characters lone r xs s) : Characters lone ('\\' :: (code ++ r)) (x :: xs) s

/-- A string between double quotes. -/
inductive StringText (lone : Char → Prop) : List Char → String → List Char → Prop where
  | mk {r xs s : List Char} (h : Characters lone r xs ('"' :: s)) :
    StringText lone ('"' :: r) (String.ofList xs) s

/-! ## Values -/

mutual

/-- A value. -/
inductive ValueText (lone : Char → Prop) : List Char → Json → List Char → Prop where
  | null {r : List Char} : ValueText lone ("null".toList ++ r) .null r
  | true {r : List Char} : ValueText lone ("true".toList ++ r) (.bool .true) r
  | false {r : List Char} : ValueText lone ("false".toList ++ r) (.bool .false) r
  | number {literal r : List Char} {x : Binary64} (h : IsNumber literal)
    (hx : Binary64.ofLiteral? literal = some x) : ValueText lone (literal ++ r) (.number x) r
  | string {r s : List Char} {x : String} (h : StringText lone r x s) :
    ValueText lone r (.string x) s
  | emptyArray {r s t : List Char} (hopen : Structural '[' r s) (hclose : Structural ']' s t) :
    ValueText lone r (.array []) t
  | array {r s t u : List Char} {vs : List Json} (hopen : Structural '[' r s)
    (helements : Elements lone s vs t) (hclose : Structural ']' t u) :
    ValueText lone r (.array vs) u
  | emptyObject {r s t : List Char} (hopen : Structural '\x7b' r s)
    (hclose : Structural '\x7d' s t) : ValueText lone r (.object []) t
  | object {r s t u : List Char} {ms : List (String × Json)} (hopen : Structural '\x7b' r s)
    (hmembers : Members lone s ms t) (hclose : Structural '\x7d' t u) :
    ValueText lone r (.object ms) u

/-- The elements of an array. -/
inductive Elements (lone : Char → Prop) : List Char → List Json → List Char → Prop where
  | one {r s : List Char} {v : Json} (h : ValueText lone r v s) : Elements lone r [v] s
  | cons {r s t u : List Char} {v : Json} {vs : List Json} (h : ValueText lone r v s)
    (hcomma : Structural ',' s t) (hrest : Elements lone t vs u) : Elements lone r (v :: vs) u

/-- A member of an object. -/
inductive MemberText (lone : Char → Prop) : List Char → String × Json → List Char → Prop where
  | mk {r s t u : List Char} {key : String} {v : Json} (hkey : StringText lone r key s)
    (hcolon : Structural ':' s t) (hvalue : ValueText lone t v u) : MemberText lone r (key, v) u

/-- The members of an object. -/
inductive Members (lone : Char → Prop) : List Char → List (String × Json) → List Char → Prop where
  | one {r s : List Char} {m : String × Json} (h : MemberText lone r m s) : Members lone r [m] s
  | cons {r s t u : List Char} {m : String × Json} {ms : List (String × Json)}
    (h : MemberText lone r m s) (hcomma : Structural ',' s t) (hrest : Members lone t ms u) :
    Members lone r (m :: ms) u

end

/-- A document: one value with white space around it. -/
inductive DocumentText (lone : Char → Prop) : List Char → Json → Prop where
  | mk {r s t : List Char} {v : Json} (hbefore : Blanks r s) (hvalue : ValueText lone s v t)
    (hbehind : Blanks t []) : DocumentText lone r v

/-! ## What surrogates stand for -/

theorem Escape.relax (hlone : ∃ x, lone' x) {code : List Char} {x : Char}
    (h : Escape lone code x) :
    ∃ x', Escape lone' code x' ∧ ((∀ y, lone y → lone' y) → x' = x) := by
  cases h with
  | short h => exact ⟨x, .short h, fun _ => rfl⟩
  | unicode ha hb hc hd hx => exact ⟨x, .unicode ha hb hc hd hx, fun _ => rfl⟩
  | surrogate ha hb hc hd hfirst hlast hx =>
    by_cases hx' : lone' x
    · exact ⟨x, .surrogate ha hb hc hd hfirst hlast hx', fun _ => rfl⟩
    · obtain ⟨x', hx''⟩ := hlone
      exact ⟨x', .surrogate ha hb hc hd hfirst hlast hx'', fun h => (hx' (h x hx)).elim⟩

theorem Characters.relax (hlone : ∃ x, lone' x) {r xs s : List Char}
    (h : Characters lone r xs s) :
    ∃ xs', Characters lone' r xs' s ∧ ((∀ y, lone y → lone' y) → xs' = xs) := by
  induction h with
  | nil => exact ⟨[], .nil, fun _ => rfl⟩
  | plain hc _ ih =>
    obtain ⟨xs', h, heq⟩ := ih
    exact ⟨_, .plain hc h, fun hsub => by rw [heq hsub]⟩
  | escape hcode _ ih =>
    obtain ⟨xs', h, heq⟩ := ih
    obtain ⟨x', hcode', heq'⟩ := hcode.relax hlone
    exact ⟨_, .escape hcode' h, fun hsub => by rw [heq hsub, heq' hsub]⟩

theorem StringText.relax (hlone : ∃ x, lone' x) {r s : List Char} {x : String}
    (h : StringText lone r x s) :
    ∃ x', StringText lone' r x' s ∧ ((∀ y, lone y → lone' y) → x' = x) := by
  obtain ⟨h⟩ := h
  obtain ⟨xs', h', heq⟩ := h.relax hlone
  exact ⟨_, ⟨h'⟩, fun hsub => by rw [heq hsub]⟩

mutual

/-- What surrogates may stand for does not decide what is a value. If they may stand for more, a
text still denotes what it denoted. -/
theorem ValueText.relax (hlone : ∃ x, lone' x) : ∀ {r : List Char} {v : Json} {s : List Char},
    ValueText lone r v s → ∃ v', ValueText lone' r v' s ∧ ((∀ y, lone y → lone' y) → v' = v)
  | _, _, _, .null => ⟨_, .null, fun _ => rfl⟩
  | _, _, _, .true => ⟨_, .true, fun _ => rfl⟩
  | _, _, _, .false => ⟨_, .false, fun _ => rfl⟩
  | _, _, _, .number h hx => ⟨_, .number h hx, fun _ => rfl⟩
  | _, _, _, .string h => by
    obtain ⟨x', h', heq⟩ := h.relax hlone
    exact ⟨_, .string h', fun hsub => by rw [heq hsub]⟩
  | _, _, _, .emptyArray hopen hclose => ⟨_, .emptyArray hopen hclose, fun _ => rfl⟩
  | _, _, _, .array hopen helements hclose => by
    obtain ⟨vs', h', heq⟩ := helements.relax hlone
    exact ⟨_, .array hopen h' hclose, fun hsub => by rw [heq hsub]⟩
  | _, _, _, .emptyObject hopen hclose => ⟨_, .emptyObject hopen hclose, fun _ => rfl⟩
  | _, _, _, .object hopen hmembers hclose => by
    obtain ⟨ms', h', heq⟩ := hmembers.relax hlone
    exact ⟨_, .object hopen h' hclose, fun hsub => by rw [heq hsub]⟩

theorem Elements.relax (hlone : ∃ x, lone' x) : ∀ {r : List Char} {vs : List Json} {s : List Char},
    Elements lone r vs s → ∃ vs', Elements lone' r vs' s ∧ ((∀ y, lone y → lone' y) → vs' = vs)
  | _, _, _, .one h => by
    obtain ⟨v', h', heq⟩ := h.relax hlone
    exact ⟨_, .one h', fun hsub => by rw [heq hsub]⟩
  | _, _, _, .cons h hcomma hrest => by
    obtain ⟨v', h', heq⟩ := h.relax hlone
    obtain ⟨vs', hrest', heqs⟩ := hrest.relax hlone
    exact ⟨_, .cons h' hcomma hrest', fun hsub => by rw [heq hsub, heqs hsub]⟩

theorem MemberText.relax (hlone : ∃ x, lone' x) : ∀ {r : List Char} {m : String × Json}
    {s : List Char}, MemberText lone r m s →
      ∃ m', MemberText lone' r m' s ∧ ((∀ y, lone y → lone' y) → m' = m)
  | _, _, _, .mk hkey hcolon hvalue => by
    obtain ⟨key', hkey', heqk⟩ := hkey.relax hlone
    obtain ⟨v', h', heq⟩ := hvalue.relax hlone
    exact ⟨_, .mk hkey' hcolon h', fun hsub => by rw [heqk hsub, heq hsub]⟩

theorem Members.relax (hlone : ∃ x, lone' x) : ∀ {r : List Char} {ms : List (String × Json)}
    {s : List Char}, Members lone r ms s →
      ∃ ms', Members lone' r ms' s ∧ ((∀ y, lone y → lone' y) → ms' = ms)
  | _, _, _, .one h => by
    obtain ⟨m', h', heq⟩ := h.relax hlone
    exact ⟨_, .one h', fun hsub => by rw [heq hsub]⟩
  | _, _, _, .cons h hcomma hrest => by
    obtain ⟨m', h', heq⟩ := h.relax hlone
    obtain ⟨ms', hrest', heqs⟩ := hrest.relax hlone
    exact ⟨_, .cons h' hcomma hrest', fun hsub => by rw [heq hsub, heqs hsub]⟩

end

theorem DocumentText.relax (hlone : ∃ x, lone' x) {r : List Char} {v : Json}
    (h : DocumentText lone r v) :
    ∃ v', DocumentText lone' r v' ∧ ((∀ y, lone y → lone' y) → v' = v) := by
  obtain ⟨hbefore, hvalue, hbehind⟩ := h
  obtain ⟨v', h', heq⟩ := hvalue.relax hlone
  exact ⟨v', ⟨hbefore, h', hbehind⟩, heq⟩

end Json

end Backtrack
