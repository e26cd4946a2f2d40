import Backtrack.Proofs.Rest
import Backtrack.Proofs.ComesTo

/-!
# Literals as prefixes

`src.StartsWith pos xs` says of a source what a reader sees of it from a position on. A text starts
with the bytes of the UTF-8 encoding of the symbols, a list of items with the symbols themselves.

- The encoding of a character tells where it ends, so one encoding is a prefix of another one just
  when the characters are (`utf8_prefix_iff`). At a boundary, what a source starts with are thus
  the symbols that remain there (`Source.startsWith_iff`).
- The loop behind `literal` finds these symbols and no others
  (`Source.matchSymbols?_of_startsWith`, `Source.matchSymbols?_eq_none`), so that a literal is a
  test for a prefix, and a literal of two patterns is the one of the first, and then of the second
  (`Parser.literal_startsWith`).
-/

namespace Backtrack

/-! ## Encoded text -/

/-- The bytes of the encoding of a text. -/
def utf8 (cs : List Char) : List UInt8 := cs.flatMap String.utf8EncodeChar

@[simp] theorem utf8_nil : utf8 [] = [] := rfl

@[simp] theorem utf8_cons (c : Char) (cs : List Char) :
    utf8 (c :: cs) = String.utf8EncodeChar c ++ utf8 cs := rfl

@[simp] theorem utf8_append (cs ds : List Char) : utf8 (cs ++ ds) = utf8 cs ++ utf8 ds :=
  List.flatMap_append

/-- These are the bytes of a string. -/
theorem utf8_toList (s : String) : (utf8 s.toList).toByteArray = s.toByteArray := by
  rw [utf8, ← List.utf8Encode, ← String.toByteArray_ofList, String.ofList_toList]

@[simp] theorem length_utf8 (cs : List Char) : (utf8 cs).length = bytes cs := by
  induction cs with
  | nil => rfl
  | cons c cs ih =>
    rw [utf8_cons, List.length_append, String.length_utf8EncodeChar, ih, bytes_cons]

/-- The first bytes of a text tell its first character. -/
theorem head_eq_of_utf8 {c d : Char} {xs ys : List UInt8}
    (h : String.utf8EncodeChar c ++ xs = String.utf8EncodeChar d ++ ys) : c = d := by
  have hdecode : ∀ (e : Char) (zs : List UInt8),
      (String.utf8EncodeChar e ++ zs).toByteArray.utf8DecodeChar? 0 = some e := by
    intro e zs
    rw [List.toByteArray_append]
    exact ByteArray.utf8DecodeChar?_utf8EncodeChar_append
  have hc := hdecode c xs
  rw [h, hdecode d ys] at hc
  exact (Option.some.inj hc).symm

/-- A text starts with another one when its bytes start with those of the other one. -/
theorem utf8_prefix_iff {cs ds : List Char} : utf8 cs <+: utf8 ds ↔ cs <+: ds := by
  constructor
  · intro h
    induction cs generalizing ds with
    | nil => exact List.nil_prefix
    | cons c cs ih =>
      obtain ⟨back, hback⟩ := h
      rw [utf8_cons, List.append_assoc] at hback
      cases ds with
      | nil => exact (String.utf8EncodeChar_ne_nil (List.append_eq_nil_iff.mp hback).1).elim
      | cons d ds =>
        rw [utf8_cons] at hback
        obtain rfl := head_eq_of_utf8 hback
        have hrest : utf8 cs <+: utf8 ds := ⟨back, List.append_cancel_left hback⟩
        exact List.cons_prefix_cons.mpr ⟨rfl, ih hrest⟩
  · rintro ⟨back, rfl⟩
    exact ⟨utf8 back, (utf8_append cs back).symm⟩

/-! ## What a source starts with -/

namespace Source

variable {σ : Type}

/-- From a position on, the source starts with the given symbols: a text with the bytes of their
encoding, a list with the symbols themselves. -/
def StartsWith : Source σ → Nat → List σ → Prop
  | .text cs, pos, xs => utf8 xs <+: (utf8 cs).drop pos
  | .items ys, pos, xs => xs <+: ys.drop pos

instance instDecidableStartsWith : {σ : Type} → [DecidableEq σ] → (src : Source σ) → (pos : Nat) →
    (xs : List σ) → Decidable (src.StartsWith pos xs)
  | _, _, .text cs, pos, xs => inferInstanceAs (Decidable (utf8 xs <+: (utf8 cs).drop pos))
  | _, _, .items ys, pos, xs => inferInstanceAs (Decidable (xs <+: ys.drop pos))

/-- How long the given symbols are in the source: in bytes if it is a text, else in symbols. -/
def spelledLength : Source σ → List σ → Nat
  | .text _, xs => (utf8 xs).length
  | .items _, xs => xs.length

variable {src : Source σ} {pos : Nat} {xs ys front back : List σ}

theorem spelledLength_eq (src : Source σ) (xs : List σ) :
    src.spelledLength xs = extent src.width xs := by
  cases src with
  | text cs => exact length_utf8 xs
  | items ys => exact (extent_items ys xs).symm

/-- At a boundary, the source starts with the symbols that remain there, whatever their
encoding. -/
theorem startsWith_iff (h : src.symbols = front ++ back) :
    src.StartsWith (extent src.width front) xs ↔ xs <+: back := by
  cases src with
  | text cs =>
    have hdrop : (utf8 cs).drop (bytes front) = utf8 back := by
      rw [show cs = front ++ back from h, utf8_append, ← length_utf8, List.drop_left]
    show utf8 xs <+: (utf8 cs).drop (bytes front) ↔ xs <+: back
    rw [hdrop, utf8_prefix_iff]
  | items ys =>
    show xs <+: ys.drop (extent (items ys).width front) ↔ xs <+: back
    rw [extent_items, show ys = front ++ back from h, List.drop_left]

/-- The source starts with two patterns in a row when the second is behind the first. -/
theorem startsWith_append (hpos : src.IsBoundary pos) :
    src.StartsWith pos (xs ++ ys) ↔
      src.StartsWith pos xs ∧ src.StartsWith (pos + src.spelledLength xs) ys := by
  obtain ⟨front, back, hsymbols, rfl⟩ := hpos
  rw [startsWith_iff hsymbols, startsWith_iff hsymbols, spelledLength_eq, ← extent_append]
  constructor
  · rintro ⟨rest, rfl⟩
    have hbehind : src.symbols = (front ++ xs) ++ (ys ++ rest) := by
      rw [hsymbols, List.append_assoc, List.append_assoc]
    rw [startsWith_iff hbehind, List.append_assoc]
    exact ⟨List.prefix_append xs (ys ++ rest), List.prefix_append ys rest⟩
  · rintro ⟨⟨rest, rfl⟩, hys⟩
    have hbehind : src.symbols = (front ++ xs) ++ rest := by
      rw [hsymbols, List.append_assoc]
    exact (List.prefix_append_right_inj xs).mpr ((startsWith_iff hbehind).mp hys)

/-- Behind what it starts with, the source has a boundary again. -/
theorem StartsWith.isBoundary (h : src.StartsWith pos xs) (hpos : src.IsBoundary pos) :
    src.IsBoundary (pos + src.spelledLength xs) := by
  obtain ⟨front, back, hsymbols, rfl⟩ := hpos
  obtain ⟨rest, rfl⟩ := (startsWith_iff hsymbols).mp h
  refine ⟨front ++ xs, rest, ?_, ?_⟩
  · rw [hsymbols, List.append_assoc]
  · rw [spelledLength_eq, extent_append]

section Matching

variable [DecidableEq σ]

theorem matchSymbols?_of_startsWith (h : src.StartsWith pos xs) (hpos : src.IsBoundary pos) :
    src.matchSymbols? xs pos = some (pos + src.spelledLength xs) := by
  obtain ⟨front, back, hsymbols, rfl⟩ := hpos
  rw [spelledLength_eq, matchSymbols?_prefix_iff hsymbols]
  exact ⟨(startsWith_iff hsymbols).mp h, rfl⟩

theorem matchSymbols?_eq_none (h : ¬ src.StartsWith pos xs) (hpos : src.IsBoundary pos) :
    src.matchSymbols? xs pos = none := by
  obtain ⟨front, back, hsymbols, rfl⟩ := hpos
  refine Option.eq_none_iff_forall_ne_some.mpr fun q hq => h ?_
  exact (startsWith_iff hsymbols).mpr ((matchSymbols?_prefix_iff hsymbols).mp hq).1

end Matching

end Source

/-! ## Literals -/

namespace Parser

variable {σ ι : Type} {τ : ι → Type} [DecidableEq σ] [Describe σ] {env : Env σ τ} {pos : Nat}

/-- A literal succeeds behind the pattern if the source starts with it, and does nothing else. Or it
reports the pattern, at the start. -/
theorem comesTo_literal (hpos : env.source.IsBoundary pos) (a : Pattern σ) (s t : State)
    (r : Outcome (Pattern σ)) :
    (literal a : Parser σ τ (Pattern σ)).ComesTo env pos s r t ↔
      (env.source.StartsWith pos a.toList ∧
        r = .ok (pos + env.source.spelledLength a.toList) a ∧ t = s) ∨
      (¬ env.source.StartsWith pos a.toList ∧
        r = .fail pos ∧ t = s.reported (.expected pos a.describe)) := by
  by_cases h : env.source.StartsWith pos a.toList
  · have hrun : (literal a : Parser σ τ (Pattern σ)).run env 1 pos s =
        some (.ok (pos + env.source.spelledLength a.toList) a, s) := by
      rw [run, Source.matchSymbols?_of_startsWith h hpos]
      rfl
    rw [comesTo_iff_of_run hrun]
    simp only [h, not_true, false_and, or_false, true_and]
  · have hrun : (literal a : Parser σ τ (Pattern σ)).run env 1 pos s =
        some (.fail pos, s.reported (.expected pos a.describe)) := by
      rw [run, Source.matchSymbols?_eq_none h hpos]
      exact Act.failWith_apply _ pos s
    rw [comesTo_iff_of_run hrun]
    simp only [h, not_false_eq_true, false_and, false_or, true_and]

/-- Where a literal ends. -/
theorem literal_succeeds_iff (hpos : env.source.IsBoundary pos) {a : Pattern σ} {s : State}
    {e : Nat} :
    (∃ v t, (literal a : Parser σ τ (Pattern σ)).ComesTo env pos s (.ok e v) t) ↔
      env.source.StartsWith pos a.toList ∧ e = pos + env.source.spelledLength a.toList := by
  simp only [comesTo_literal hpos]
  constructor
  · rintro ⟨v, t, ⟨h, hr, -⟩ | ⟨-, hr, -⟩⟩
    · cases hr
      exact ⟨h, rfl⟩
    · cases hr
  · rintro ⟨h, rfl⟩
    exact ⟨a, s, .inl ⟨h, rfl, rfl⟩⟩

/-- Where a literal and then another one end. -/
theorem literal_pair_succeeds_iff (hpos : env.source.IsBoundary pos) {a b : Pattern σ} {s : State}
    {e : Nat} :
    (∃ v t, ((literal a : Parser σ τ (Pattern σ)).pair (literal b)).ComesTo env pos s
      (.ok e v) t) ↔
      env.source.StartsWith pos a.toList ∧
      env.source.StartsWith (pos + env.source.spelledLength a.toList) b.toList ∧
      e = pos + env.source.spelledLength a.toList + env.source.spelledLength b.toList := by
  constructor
  · rintro ⟨v, t, h⟩
    rcases comesTo_andMap.mp h with ⟨q, a', u, r, ha, hb, hr⟩ | ⟨q, -, hr⟩
    · obtain ⟨hstart, rfl⟩ := (literal_succeeds_iff hpos).mp ⟨a', u, ha⟩
      cases r with
      | ok e b' =>
        cases hr
        exact ⟨hstart, (literal_succeeds_iff (hstart.isBoundary hpos)).mp ⟨b', t, hb⟩⟩
      | fail q => cases hr
    · cases hr
  · rintro ⟨ha, hb, rfl⟩
    have hfirst := (comesTo_literal hpos a s s _).mpr (.inl ⟨ha, rfl, rfl⟩)
    have hsecond := (comesTo_literal (ha.isBoundary hpos) b s s _).mpr (.inl ⟨hb, rfl, rfl⟩)
    exact ⟨(a, b), s, comesTo_andMap.mpr (.inl ⟨_, a, s, _, hfirst, hsecond, rfl⟩)⟩

/-- A literal is a test for a prefix, and a literal of two patterns in a row is one of the first and
then one of the second. -/
theorem literal_startsWith (hpos : env.source.IsBoundary pos) :
    (∀ (a : Pattern σ) (s t : State) (r : Outcome (Pattern σ)),
      (literal a : Parser σ τ (Pattern σ)).ComesTo env pos s r t ↔
        (env.source.StartsWith pos a.toList ∧
          r = .ok (pos + env.source.spelledLength a.toList) a ∧ t = s) ∨
        (¬ env.source.StartsWith pos a.toList ∧
          r = .fail pos ∧ t = s.reported (.expected pos a.describe))) ∧
    ∀ (a b c : Pattern σ), c.toList = a.toList ++ b.toList → ∀ (s : State) (e : Nat),
      (∃ v t, (literal c : Parser σ τ (Pattern σ)).ComesTo env pos s (.ok e v) t) ↔
        ∃ v t, ((literal a : Parser σ τ (Pattern σ)).pair (literal b)).ComesTo env pos s
          (.ok e v) t := by
  refine ⟨comesTo_literal hpos, fun a b c hc s e => ?_⟩
  rw [literal_succeeds_iff hpos, literal_pair_succeeds_iff hpos, hc,
    Source.startsWith_append hpos, and_assoc, Source.spelledLength_eq, Source.spelledLength_eq,
    Source.spelledLength_eq, extent_append, Nat.add_assoc]

/-- Behind a character of two bytes, a literal of which only the first character is there. -/
theorem literal_startsWith_arrow :
    let env : Env Char (Empty.elim : Empty → Type) := Env.bare (.text ['é', '→', 'x'])
    let arrow : Pattern Char := .string "→y"
    (env.source.IsBoundary 2 ∧ ¬ env.source.StartsWith 2 arrow.toList) ∧
      (literal arrow : Parser Char (Empty.elim : Empty → Type) _).ComesTo env 2 {} (.fail 2)
        { sink := .reached 2 [.expected 2 "\"→y\""]
          entries := [⟨2, some (.expected 2 "\"→y\"")⟩] } := by
  intro env arrow
  have hpos : env.source.IsBoundary 2 := Source.isBoundary_iff_rest?.mpr (by decide)
  have hno : ¬ env.source.StartsWith 2 arrow.toList := by decide
  refine ⟨⟨hpos, hno⟩, ?_⟩
  exact ((literal_startsWith hpos).1 arrow {} _ _).mpr (.inr ⟨hno, rfl, rfl⟩)

end Parser

end Backtrack
