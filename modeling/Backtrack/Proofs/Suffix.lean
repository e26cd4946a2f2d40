import Backtrack.Grapheme
import Backtrack.Proofs.Boundary
import Backtrack.Proofs.Relocation
import Backtrack.Regex.Program

/-!
# No looking behind

What stands before the position where a parser is run has no influence on it. A source is embedded
in every source that it is a suffix of, by the positions that come before it (`embeds_suffix`). So a
parser that does not look at positions runs at a boundary of a source as it does at the start of the
suffix from there, with every index further on by as much as the suffix is (`Parser.run_suffix`).

This includes whatever reads a text by more than one symbol at a time: the end of the input,
literals, clusters of characters, and regular expressions, whose assertions see nothing of what lies
before the position either.
-/

namespace Backtrack

variable {σ ι : Type} {τ : ι → Type} {α : Type}

/-! ## Suffixes of a source -/

theorem dropWidth?_append_add {width : σ → Nat} (hwidth : ∀ x, 0 < width x) (front back : List σ)
    (i : Nat) : dropWidth? width (front ++ back) (extent width front + i) =
      dropWidth? width back i := by
  induction front with
  | nil => rw [List.nil_append, extent_nil, Nat.zero_add]
  | cons x front ih =>
    have hx := hwidth x
    obtain ⟨n, hn⟩ : ∃ n, width x + extent width front + i = n + 1 :=
      Nat.exists_eq_add_of_le' (by omega)
    rw [List.cons_append, extent_cons, hn, dropWidth?, if_pos (by omega), ← hn, Nat.add_assoc,
      Nat.add_sub_cancel_left, ih]

namespace Source

/-- The part of the source from a boundary on. -/
def suffix? (src : Source σ) (k : Nat) : Option (Source σ) :=
  match src with
  | text chars => ((text chars).rest? k).map text
  | items symbols => ((items symbols).rest? k).map items

variable {src suffix : Source σ} {k : Nat}

theorem exists_suffix (h : src.IsBoundary k) : ∃ suffix, src.suffix? k = some suffix := by
  obtain ⟨rest, hrest⟩ := Option.isSome_iff_exists.mp (isBoundary_iff_rest?.mp h)
  cases src with
  | text chars => exact ⟨text rest, congrArg (Option.map text) hrest⟩
  | items symbols => exact ⟨items rest, congrArg (Option.map items) hrest⟩

/-- What a source consists of, seen from a boundary. -/
theorem suffix?_eq_some (h : src.suffix? k = some suffix) :
    ∃ front, src.symbols = front ++ suffix.symbols ∧ k = extent src.width front ∧
      suffix.width = src.width := by
  cases src with
  | text chars =>
    obtain ⟨rest, hrest, rfl⟩ := Option.map_eq_some_iff.mp h
    obtain ⟨front, hsymbols, hk⟩ := dropWidth?_eq_some hrest
    exact ⟨front, hsymbols, hk, rfl⟩
  | items symbols =>
    obtain ⟨rest, hrest, rfl⟩ := Option.map_eq_some_iff.mp h
    obtain ⟨front, hsymbols, hk⟩ := dropWidth?_eq_some hrest
    exact ⟨front, hsymbols, hk, rfl⟩

theorem len_suffix (h : src.suffix? k = some suffix) : src.len = k + suffix.len := by
  obtain ⟨front, hsymbols, rfl, hwidth⟩ := suffix?_eq_some h
  rw [len, len, hsymbols, extent_append, hwidth]

/-- The same symbols remain at a position of the suffix and behind it in the source. -/
theorem rest?_suffix (h : src.suffix? k = some suffix) (i : Nat) :
    src.rest? (k + i) = suffix.rest? i := by
  obtain ⟨front, hsymbols, rfl, hwidth⟩ := suffix?_eq_some h
  rw [rest?, rest?, hsymbols, hwidth, dropWidth?_append_add src.width_pos]

theorem slice?_suffix (h : src.suffix? k = some suffix) (i j : Nat) :
    src.slice? (k + i) (k + j) = suffix.slice? i j := by
  have hwidth : suffix.width = src.width := (suffix?_eq_some h).choose_spec.2.2
  simp only [slice?, rest?_suffix h, hwidth, Nat.add_le_add_iff_left, Nat.add_sub_add_left]

/-- A source is embedded in those that it is a suffix of, with all that is peculiar to texts. -/
theorem embeds_suffix (h : src.suffix? k = some suffix) :
    suffix.Embeds (k + ·) True src where
  strictMono _ _ hij := Nat.add_lt_add_left hij k
  len_le i := by rw [len_suffix h, Nat.add_le_add_iff_left]
  symbolAt i := by
    have hwidth : suffix.width = src.width := (suffix?_eq_some h).choose_spec.2.2
    rw [symbolAt?, symbolAt?, rest?_suffix h, hwidth]
    split
    · exact .some ⟨rfl, Nat.add_assoc k i _⟩
    · exact .none
  textFrom _ i := by
    cases src with
    | text chars =>
      obtain ⟨rest, hrest, rfl⟩ := Option.map_eq_some_iff.mp h
      exact rest?_suffix h i
    | items symbols =>
      obtain ⟨rest, hrest, rfl⟩ := Option.map_eq_some_iff.mp h
      rfl
  textBetween _ i j := by
    cases src with
    | text chars =>
      obtain ⟨rest, hrest, rfl⟩ := Option.map_eq_some_iff.mp h
      exact slice?_suffix h i j
    | items symbols =>
      obtain ⟨rest, hrest, rfl⟩ := Option.map_eq_some_iff.mp h
      rfl
  add _ i width := Nat.add_assoc k i width

end Source

/-! ## Runs -/

/-- The parser of clusters does not look at positions. -/
theorem Grapheme.parser_movable (P : Properties) :
    (Grapheme.parser P : Parser σ τ String).Movable True := by
  simp [Grapheme.parser, cluster, extended, core, conjunct, linkedConsonant, pictographs,
    joinedPictograph, flag, hangulSyllable, syllableVowel, lineBreak, skipMany, one,
    Parser.andThen, Parser.withValue, Parser.char, Parser.choiceOf, Parsers.ofList,
    Parser.Movable, Parsers.Movable]

/-- At a boundary `k` of the source, a parser that does not look at positions runs as it does at the
start of the suffix from `k`. It comes to the same value or to a failure as well, with `k` added to
the position where it ends, to the farthest position, and to every record and what a report makes of
them. Regular expressions and clusters of characters are such parsers. -/
theorem Parser.run_suffix [BEq σ] [Describe σ] {env : Env σ τ} {p : Parser σ τ α} {k : Nat}
    (henv : env.Movable True) (hp : p.Movable True) (hk : env.source.IsBoundary k) :
    (∃ suffix, env.source.suffix? k = some suffix ∧ ∀ n, p.run env n k {} =
      (p.run { env with source := suffix } n 0 {}).map fun x =>
        (x.1.move (k + ·), x.2.move (k + ·))) ∧
    (∀ s : Sink, (s.move (k + ·)).farthest = s.farthest.map (k + ·) ∧
      (s.move (k + ·)).records = s.records.map (·.move (k + ·)) ∧
      (s.move (k + ·)).finish = s.finish.map (·.move (k + ·))) ∧
    (∀ re i, (regexGroup re i : Parser σ τ (Option String)).Movable True) ∧
    ∀ P, (Grapheme.parser P : Parser σ τ String).Movable True := by
  obtain ⟨suffix, hsuffix⟩ := Source.exists_suffix hk
  refine ⟨⟨suffix, hsuffix, fun n => ?_⟩, fun s => ?_, fun re i => trivial,
    Grapheme.parser_movable⟩
  · have henv' : Env.Movable True { env with source := suffix } := henv
    exact run_moved (Source.embeds_suffix hsuffix) henv' hp n 0 {}
  · exact ⟨Sink.farthest_move s, Sink.records_move s, Sink.finish_move s⟩

/-- A word boundary and a cluster of two characters, behind a character of two bytes. -/
theorem Parser.run_suffix_accent :
    let cs := ['é', 'a', ' ', 'e', '\u0301', '!']
    let env : Env Char (Empty.elim : Empty → Type) := Env.bare (.text cs)
    let word : Regex.Program := {
      node := .seq (.assertion .startOfText) (.seq (.set (.char 'a')) (.assertion .wordBoundary)) }
    let p : Parser Char (Empty.elim : Empty → Type) (String × String) :=
      label (skip (pair (skip (regex word.regex) (literal (.string " ")))
        (Grapheme.parser .unicode)) eoi) "accent"
    let t : State := {
      sink := .reached 5 [.expected 5 "end of input"]
      entries := [⟨0, some (.label 0 1 "accent")⟩, ⟨5, some (.expected 5 "end of input")⟩] }
    (env.Movable True ∧ p.Movable True ∧ env.source.IsBoundary 2 ∧
      p.run { env with source := .text cs.tail } 16 0 {} = some (.fail 5, t)) ∧
      p.run env 16 2 {} = some (.fail 7, t.move (2 + ·)) := by
  intro cs env word p t
  have henv : env.Movable True := by
    intro i
    exact i.elim
  have hp : p.Movable True :=
    ⟨⟨⟨trivial, trivial⟩, Grapheme.parser_movable .unicode⟩, trivial⟩
  have hk : env.source.IsBoundary 2 := Source.isBoundary_iff_rest?.mpr (by decide)
  have hsuffix : p.run { env with source := .text cs.tail } 16 0 {} = some (.fail 5, t) := by
    decide +kernel
  refine ⟨⟨henv, hp, hk, hsuffix⟩, ?_⟩
  obtain ⟨⟨suffix, hcut, hrun⟩, -⟩ := run_suffix henv hp hk
  obtain rfl : .text cs.tail = suffix := Option.some.inj hcut
  rw [hrun 16, hsuffix]
  rfl

end Backtrack
