import Backtrack.Grapheme
import Backtrack.Proofs.Peg.Runs
import Backtrack.Proofs.Rest

/-!
# No text is lost

A value that is made of characters and strings has a spelling, which is all of them one after
another (`Spelled`). A parser is lossless if it is put together from leaves that return what they
read, by combinators that keep every value and its place (`Parser.Lossless`). It may drop no value
and repeat none; what it reads and gives up again, in an alternative that fails or in a repetition
that does not advance, is in no value and is not consumed.

So the value of a lossless parser spells the text that the parser has consumed
(`Parser.run_lossless`). The invariant is `Outcome.Spells`, which every loop and list keeps if the
parsers in it do.
-/

namespace Backtrack

open Act

/-- Values that are made of text. -/
class Spelled (α : Type) where
  /-- All characters and strings in the value, in order. -/
  spelling : α → List Char

export Spelled (spelling)

instance : Spelled Unit := ⟨fun _ => []⟩

instance : Spelled Char := ⟨fun c => [c]⟩

instance : Spelled String := ⟨String.toList⟩

instance : Spelled (Pattern Char) := ⟨Pattern.toList⟩

instance {α β : Type} [Spelled α] [Spelled β] : Spelled (α × β) :=
  ⟨fun x => spelling x.1 ++ spelling x.2⟩

instance {α : Type} [Spelled α] : Spelled (Option α) := ⟨fun a => a.elim [] spelling⟩

instance {α : Type} [Spelled α] : Spelled (List α) := ⟨fun as => as.flatMap spelling⟩

variable {σ ι : Type} {τ : ι → Type} {α β : Type}

/-! ## Reading -/

namespace Source

variable {src : Source σ} {xs ys rest : List σ} {pos mid q : Nat}

theorem Reads.append (h : src.Reads xs pos mid) (h' : src.Reads ys mid q) :
    src.Reads (xs ++ ys) pos q := by
  induction h with
  | nil => exact h'
  | cons hx _ ih => exact .cons hx (ih h')

theorem rest?_move {x : σ} (h : src.rest? pos = some (x :: rest)) :
    src.rest? (pos + src.width x) = some rest := by
  obtain ⟨front, hsymbols, rfl⟩ := dropWidth?_eq_some h
  have hdrop := dropWidth?_append src.width_pos (front ++ [x]) rest
  rw [rest?, hsymbols]
  simpa using hdrop

/-- Symbols stand where they are the first that remain. -/
theorem reads_iff (h : src.rest? pos = some rest) :
    src.Reads xs pos q ↔ ∃ back, rest = xs ++ back ∧ q = pos + extent src.width xs := by
  constructor
  · intro hreads
    induction hreads generalizing rest with
    | nil => exact ⟨rest, rfl, rfl⟩
    | @cons x xs width pos q hx _ ih =>
      rw [symbolAt?, h] at hx
      cases rest with
      | nil => cases hx
      | cons y rest =>
        cases hx
        obtain ⟨back, rfl, rfl⟩ := ih (rest?_move h)
        exact ⟨back, rfl, Nat.add_assoc _ _ _⟩
  · rintro ⟨back, rfl, rfl⟩
    induction xs generalizing pos with
    | nil => exact .nil
    | cons x xs ih =>
      have hx : src.symbolAt? pos = some (x, src.width x) := by
        rw [symbolAt?, h]
        rfl
      refine .cons hx ?_
      rw [extent_cons, ← Nat.add_assoc]
      exact ih (rest?_move h)

/-- What stands from a boundary on can be sliced out of the source. -/
theorem Reads.slice? (h : src.Reads xs pos q) (hpos : src.IsBoundary pos) :
    src.slice? pos q = some xs := by
  obtain ⟨rest, hrest⟩ := Option.isSome_iff_exists.mp (isBoundary_iff_rest?.mp hpos)
  obtain ⟨back, rfl, rfl⟩ := (reads_iff hrest).mp h
  rw [Source.slice?, if_pos (Nat.le_add_right _ _), hrest, Nat.add_sub_cancel_left]
  exact takeWidth?_append src.width_pos xs back

theorem reads_of_slice? (h : src.slice? pos q = some xs) : src.Reads xs pos q := by
  rw [Source.slice?] at h
  split at h
  next hle =>
    cases hrest : src.rest? pos with
    | none =>
      rw [hrest] at h
      cases h
    | some rest =>
      rw [hrest] at h
      obtain ⟨back, hback, hextent⟩ := takeWidth?_eq_some h
      exact (reads_iff hrest).mpr ⟨back, hback, by omega⟩
  next => cases h

theorem reads_of_textBetween? {src : Source Char} {w : List Char}
    (h : src.textBetween? pos q = some w) : src.Reads w pos q := by
  cases src with
  | text cs => exact reads_of_slice? h
  | items cs => cases h

theorem reads_of_textFrom? {src : Source Char} {front back : List Char}
    (h : src.textFrom? pos = some (front ++ back)) : src.Reads front pos (pos + bytes front) := by
  refine (reads_iff (rest?_of_textFrom? h)).mpr ⟨back, rfl, ?_⟩
  cases src with
  | text cs => rfl
  | items cs => cases h

end Source

/-! ## Outcomes that spell what was read -/

/-- The value of a success spells the symbols from `pos` to where it ended. -/
def Outcome.Spells [Spelled α] (src : Source Char) (pos : Nat) : Outcome α → Prop
  | .ok e a => src.Reads (spelling a) pos e
  | .fail _ => True

theorem Outcome.spells_of_none [Spelled α] {src : Source Char} {pos : Nat} {r : Outcome α}
    (h : r.state? = none) : r.Spells src pos := by
  cases r with
  | ok e a => cases h
  | fail q => trivial

namespace Act.Gives

variable [Spelled α] {src : Source Char} {pos : Nat}

/-- What fails spells nothing, and may. -/
theorem failing {a : Act (Outcome α)} (h : a.Yields (·.state? = none)) :
    a.Gives (·.Spells src pos) :=
  h.gives.imp fun _ => Outcome.spells_of_none

theorem symbolWhere {accept : Char → Bool} {reject : Act (Outcome Char)}
    (h : reject.Yields (·.state? = none)) (pos : Nat) :
    (Backtrack.symbolWhere src pos accept reject).Gives (·.Spells src pos) := by
  rw [Backtrack.symbolWhere]
  split
  next x width hx =>
    split
    · exact .pure (.cons hx .nil)
    · exact .failing h
  next => exact .failing h

theorem charWhere (accept : Char → Bool) (pos : Nat) :
    (Backtrack.charWhere src pos accept).Gives (·.Spells src pos) := by
  rw [Backtrack.charWhere]
  split
  next c rest hrest =>
    split
    · have hreads : src.Reads [c] pos (pos + bytes [c]) := Source.reads_of_textFrom? hrest
      exact .pure hreads
    · exact .failing (.mismatch pos)
  next => exact .failing (.mismatch pos)

/-- The text of a match is the text that it covers. -/
theorem regexWhere (re : Regex) (pos : Nat) :
    (Backtrack.regexWhere src re pos fun m rest => m.text? rest 0).Gives (·.Spells src pos) := by
  rw [Backtrack.regexWhere]
  split
  next rest hrest =>
    split
    next m hm =>
      obtain ⟨front, back, rfl, hstop⟩ := Regex.match?_covers hm
      refine .pure ?_
      rw [Regex.Match.text?_zero hstop, hstop]
      change src.Reads (String.ofList front).toList pos (pos + bytes front)
      rw [String.toList_ofList]
      exact Source.reads_of_textFrom? hrest
    next => exact .failing (.mismatch pos)
  next => exact .failing (.mismatch pos)

theorem atLeast {min count q : Nat} {a : α} (h : src.Reads (spelling a) pos q) :
    (Backtrack.atLeast min count q a).Gives (·.Spells src pos) := by
  rw [Backtrack.atLeast]
  split
  · exact (Yields.register q none).gives.bind fun _ _ => .pure trivial
  · exact .pure h

theorem manyLoop {item : Nat → Act (Outcome α)}
    (hitem : ∀ q, (item q).Gives (·.Spells src q)) (n : Nat) (limit : Option Nat) (pos : Nat) :
    (Backtrack.manyLoop item n limit pos).Gives fun x => src.Reads (spelling x.1) pos x.2 := by
  induction n generalizing limit pos with
  | zero => exact .exceeded
  | succ n ih =>
    rw [Backtrack.manyLoop]
    split
    · exact .pure .nil
    · refine (hitem pos).bind fun r hr => ?_
      cases r with
      | fail q => exact .pure .nil
      | ok q a =>
        dsimp only
        split
        · exact (ih _ q).bind fun x hx => .pure (hr.append hx)
        · exact .pure .nil

section Lists

variable {call : Call Char τ}

theorem firstOf : ∀ (ps : Parsers Char τ α),
    (∀ p ∈ ps.toList, ∀ q, (call p q).Gives (·.Spells src q)) →
    ∀ pos, (ps.firstOf call pos).Gives (·.Spells src pos)
  | .nil, _, pos => .pure trivial
  | .cons p ps, hps, pos => by
    rw [Parsers.toList, List.forall_mem_cons] at hps
    rw [Parsers.firstOf]
    refine (hps.1 pos).bind fun r hr => ?_
    cases r with
    | ok q a => exact .pure hr
    | fail q => exact firstOf ps hps.2 pos

theorem inOrder (allowPartial : Bool) : ∀ (ps : Parsers Char τ α),
    (∀ p ∈ ps.toList, ∀ q, (call p q).Gives (·.Spells src q)) →
    ∀ pos, (ps.inOrder call allowPartial pos).Gives (·.Spells src pos)
  | .nil, _, pos => .pure .nil
  | .cons p ps, hps, pos => by
    rw [Parsers.toList, List.forall_mem_cons] at hps
    rw [Parsers.inOrder]
    refine (hps.1 pos).bind fun r hr => ?_
    cases r with
    | ok q a =>
      refine (inOrder allowPartial ps hps.2 q).bind fun r' hr' => ?_
      cases r' with
      | ok e as => exact .pure (hr.append hr')
      | fail e => exact .pure trivial
    | fail q =>
      cases allowPartial with
      | true => exact .pure .nil
      | false => exact .pure trivial

end Lists

end Act.Gives

/-! ## Lossless parsers -/

/-- The parser returns all that it reads: its leaves do, and its combinators keep every value in its
place. -/
inductive Parser.Lossless [∀ i, Spelled (τ i)] :
    {α : Type} → [Spelled α] → Parser Char τ α → Prop where
  | pure {α : Type} [Spelled α] {a : α} (ha : spelling a = []) : Lossless (.pure a)
  | fail {α : Type} [Spelled α] (what : Option String) : Lossless (.fail what : Parser Char τ α)
  | any : Lossless .any
  | el (x : Char) : Lossless (.el x)
  | oneOf (set : Pattern Char) : Lossless (.oneOf set)
  | noneOf (set : Pattern Char) : Lossless (.noneOf set)
  | satisfy (pred : Char → Bool) : Lossless (.satisfy pred)
  | literal (pattern : Pattern Char) : Lossless (.literal pattern)
  | charWith (pred : Char → Bool) : Lossless (.charWith pred)
  | regexGroup (re : Regex) : Lossless (.regexGroup re 0)
  | covered {α : Type} (p : Parser Char τ α) : Lossless (.covered p)
  /-- The value may be put in another form. -/
  | map {α β : Type} [Spelled α] [Spelled β] {p : Parser Char τ α} {f : α → β} (hp : Lossless p)
    (hf : ∀ a, spelling (f a) = spelling a) : Lossless (.map p f)
  | andMap {α β γ : Type} [Spelled α] [Spelled β] [Spelled γ] {p : Parser Char τ α}
    {q : Parser Char τ β} {f : α → β → γ} (hp : Lossless p) (hq : Lossless q)
    (hf : ∀ a b, spelling (f a b) = spelling a ++ spelling b) : Lossless (.andMap p q f)
  | either {α : Type} [Spelled α] {p q : Parser Char τ α} (hp : Lossless p) (hq : Lossless q) :
    Lossless (.either p q)
  | choice {α : Type} [Spelled α] {ps : Parsers Char τ α} (hps : ∀ p ∈ ps.toList, Lossless p) :
    Lossless (.choice ps)
  | opt {α : Type} [Spelled α] {p : Parser Char τ α} (hp : Lossless p) : Lossless (.opt p)
  | seq {α : Type} [Spelled α] {ps : Parsers Char τ α} (hps : ∀ p ∈ ps.toList, Lossless p)
    (allowPartial : Bool) : Lossless (.seq ps allowPartial)
  | many {α : Type} [Spelled α] {p : Parser Char τ α} (hp : Lossless p) (bounds : Bounds) :
    Lossless (.many p bounds)
  | label {α : Type} [Spelled α] {p : Parser Char τ α} (hp : Lossless p) (name : String) :
    Lossless (.label p name)
  | lazy {α : Type} [Spelled α] {p : Parser Char τ α} (id : Nat) (hp : Lossless p) :
    Lossless (.lazy id p)
  | rule (i : ι) : Lossless (.rule i)

/-- The rules of the grammar are lossless. -/
def Env.Lossless [∀ i, Spelled (τ i)] (env : Env Char τ) : Prop :=
  ∀ i p, env.rules i = some p → p.Lossless

namespace Parser.Lossless

variable [∀ i, Spelled (τ i)] [Spelled α] [Spelled β]

theorem char : (Parser.char : Parser Char τ Char).Lossless := .charWith _

theorem grapheme (P : Grapheme.Properties) : (Grapheme.parser P : Parser Char τ String).Lossless :=
  .covered _

theorem regex (re : Regex) : (Parser.regex re : Parser Char τ String).Lossless := by
  refine .map (.regexGroup re) fun a => ?_
  cases a with
  | none => rfl
  | some text => rfl

theorem pair {p : Parser Char τ α} {q : Parser Char τ β} (hp : p.Lossless) (hq : q.Lossless) :
    (p.pair q).Lossless :=
  .andMap hp hq fun _ _ => rfl

theorem choiceOf {ps : List (Parser Char τ α)} (hps : ∀ p ∈ ps, p.Lossless) :
    (Parser.choiceOf ps).Lossless :=
  .choice (by rwa [Parsers.toList_ofList])

theorem sequence {ps : List (Parser Char τ α)} (hps : ∀ p ∈ ps, p.Lossless) :
    (Parser.sequence ps).Lossless :=
  .seq (by rwa [Parsers.toList_ofList]) false

/-- A tree of alternatives. -/
theorem alternatives {ps : List (Parser Char τ α)} (hps : ∀ p ∈ ps, p.Lossless) :
    (Parser.alternatives ps).Lossless := by
  fun_induction Parser.alternatives ps with
  | case1 => exact .fail none
  | case2 p => exact hps p (List.mem_singleton_self p)
  | case3 p q rest n ih ih' =>
    refine .either (ih fun p' hp' => ?_) (ih' fun p' hp' => ?_)
    · exact hps p' (List.mem_of_mem_take hp')
    · exact hps p' (List.mem_of_mem_drop hp')

/-- A tree of sequencing. -/
theorem tuple {ps : List (Parser Char τ α)} (hps : ∀ p ∈ ps, p.Lossless) :
    (Parser.tuple ps).Lossless := by
  fun_induction Parser.tuple ps with
  | case1 => exact .pure rfl
  | case2 p => exact .map (hps p (List.mem_singleton_self p)) fun a => List.append_nil _
  | case3 p q rest n ih ih' =>
    refine .andMap (ih fun p' hp' => ?_) (ih' fun p' hp' => ?_) fun as bs => List.flatMap_append
    · exact hps p' (List.mem_of_mem_take hp')
    · exact hps p' (List.mem_of_mem_drop hp')

/-- One case for each kind of lossless parser, by induction on the bound. -/
theorem run_gives {env : Env Char τ} (henv : env.Lossless) (n : Nat) {p : Parser Char τ α}
    (hp : p.Lossless) (pos : Nat) : (p.run env n pos).Gives (·.Spells env.source pos) := by
  induction n generalizing α pos with
  | zero => exact .exceeded
  | succ n ih =>
    cases hp with
    | pure ha =>
      refine .pure ?_
      rw [Outcome.Spells, ha]
      exact .nil
    | fail what =>
      cases what with
      | none => exact .failing (.mismatch pos)
      | some what => exact .failing (.failWith _ pos)
    | any => exact .symbolWhere (.mismatch pos) pos
    | el x => exact .symbolWhere (.failWith _ pos) pos
    | oneOf set => exact .symbolWhere (.expectEach _ pos) pos
    | noneOf set => exact .symbolWhere (.mismatch pos) pos
    | satisfy pred => exact .symbolWhere (.mismatch pos) pos
    | literal pattern =>
      rw [run]
      split
      next q hq => exact .pure (Source.matchSymbols?_eq_some.mp hq)
      next => exact .failing (.failWith _ pos)
    | charWith pred => exact .charWhere pred pos
    | regexGroup re => exact .regexWhere re pos
    | covered p =>
      rw [run]
      refine Gives.bind (Q := fun _ => True) (fun _ _ _ _ => trivial) fun r _ => ?_
      cases r with
      | fail q => exact .failing (.mismatch pos)
      | ok q a =>
        dsimp only
        split
        next w hw =>
          refine .pure ?_
          change env.source.Reads (String.ofList w).toList pos q
          rw [String.toList_ofList]
          exact Source.reads_of_textBetween? hw
        next => exact .failing (.mismatch pos)
    | map hp hf =>
      rw [run]
      refine (ih hp pos).bind fun r hr => ?_
      cases r with
      | fail q => exact .pure trivial
      | ok q a =>
        refine .pure ?_
        rw [Outcome.map, Outcome.Spells, hf]
        exact hr
    | andMap hp hq hf =>
      rw [run]
      refine (ih hp pos).bind fun r hr => ?_
      cases r with
      | fail q => exact .pure trivial
      | ok e a =>
        refine (ih hq e).bind fun r' hr' => ?_
        cases r' with
        | fail q => exact .pure trivial
        | ok q b =>
          refine .pure ?_
          rw [Outcome.map, Outcome.Spells, hf]
          exact hr.append hr'
    | either hp hq =>
      rw [run]
      refine (ih hp pos).bind fun r hr => ?_
      cases r with
      | ok e a => exact .pure hr
      | fail _ =>
        refine (ih hq pos).bind fun r' hr' => ?_
        cases r' with
        | ok e a => exact .pure hr'
        | fail e => exact .pure trivial
    | @choice _ _ ps hps =>
      cases ps with
      | nil =>
        rw [run]
        exact (Yields.register pos none).gives.bind fun _ _ => .pure trivial
      | cons p ps =>
        rw [run]
        exact .firstOf _ (fun p' hp' => ih (hps p' hp')) pos
    | opt hp =>
      rw [run]
      refine (ih hp pos).bind fun r hr => ?_
      cases r with
      | ok e a => exact .pure hr
      | fail q => exact .pure .nil
    | seq hps allowPartial =>
      rw [run]
      exact .inOrder _ _ (fun p' hp' => ih (hps p' hp')) pos
    | many hp bounds =>
      rw [run]
      refine (Gives.manyLoop (ih hp) n bounds.max pos).bind fun x hx => ?_
      exact .atLeast hx
    | label hp name =>
      rw [run]
      refine Yields.currentSink.gives.bind fun _ _ => (ih hp pos).bind fun r hr => ?_
      cases r with
      | ok e a => exact .pure hr
      | fail q => exact Yields.currentSink.gives.bind fun _ _ => .failing (.failWith _ q)
    | lazy id hp =>
      rw [run]
      exact (Yields.build id).gives.bind fun _ _ => ih hp pos
    | rule i =>
      rw [run]
      split
      next p hi => exact ih (henv i p hi) pos
      next => exact .failing (.mismatch pos)

end Parser.Lossless

/-- A lossless parser that starts at a boundary of the source and succeeds has consumed the text
that its value spells, no more, no less, and in this order. -/
theorem Parser.run_lossless [∀ i, Spelled (τ i)] [Spelled α] {env : Env Char τ}
    {p : Parser Char τ α} (henv : env.Lossless) (hp : p.Lossless) {n pos e : Nat} {v : α}
    {s t : State} (hpos : env.source.IsBoundary pos)
    (hrun : p.run env n pos s = some (.ok e v, t)) :
    env.source.slice? pos e = some (spelling v) :=
  (hp.run_gives henv n pos s _ t hrun).slice? hpos

/-- Nested parentheses, a sequence that breaks off, digits up to a limit, and a flag, behind a
character of two bytes. -/
theorem Parser.run_lossless_nested :
    let nested : Parser Char (fun _ : Unit => String) String :=
      (pair (el '(') (pair (opt (rule ())) (el ')'))).map fun x => .ofList (spelling x)
    let letters := seq (.ofList [el 'a', el 'b', el 'c']) true
    let digits := tuple [el '1', charWith Char.isDigit]
    let p := label (pair (pair (rule ()) letters) (pair digits (Grapheme.parser .unicode))) "line"
    let env : Env Char (fun _ : Unit => String) :=
      { source := .ofString "é(())ab12🇯🇵!", rules := fun _ => some nested }
    let v := (("(())", ['a', 'b']), (['1', '2'], "🇯🇵"))
    (env.Lossless ∧ p.Lossless ∧ env.source.IsBoundary 2 ∧
      ∃ t, p.run env 18 2 {} = some (.ok 18 v, t)) ∧
      env.source.slice? 2 18 = some (spelling v) := by
  intro nested letters digits p env v
  have hnested : nested.Lossless := by
    refine .map (.pair (.el _) (.pair (.opt (.rule ())) (.el _))) fun x => ?_
    exact String.toList_ofList
  have henv : env.Lossless := fun i q hq => Option.some.inj hq ▸ hnested
  have hletters : letters.Lossless := by
    refine .seq (fun q hq => ?_) true
    obtain rfl | rfl | rfl : q = el 'a' ∨ q = el 'b' ∨ q = el 'c' := by
      simpa [Parsers.ofList, Parsers.toList] using hq
    · exact .el 'a'
    · exact .el 'b'
    · exact .el 'c'
  have hdigits : digits.Lossless := by
    refine .tuple fun q hq => ?_
    obtain rfl | rfl : q = el '1' ∨ q = charWith Char.isDigit := by simpa using hq
    · exact .el '1'
    · exact .charWith Char.isDigit
  have hp : p.Lossless :=
    .label (.pair (.pair (.rule ()) hletters) (.pair hdigits (.grapheme _))) "line"
  have hpos : env.source.IsBoundary 2 := Source.isBoundary_iff_rest?.mpr (by decide +kernel)
  have hresult : (p.run env 18 2 {}).map (·.1) = some (.ok 18 v) := by decide +kernel
  obtain ⟨⟨r, t⟩, hrun, hr⟩ := Option.map_eq_some_iff.mp hresult
  obtain rfl : r = .ok 18 v := hr
  exact ⟨⟨henv, hp, hpos, t, hrun⟩, run_lossless henv hp hpos hrun⟩

end Backtrack
