import Backtrack.Proofs.Grapheme.Grammar

/-!
# The parser of grapheme clusters takes the first cluster

`Grapheme.parser` succeeds wherever there is something left of a text, and takes the characters up
to the first break, but for one kind of text. Where two or more characters are prepended to a
control or to the end of the text (`Properties.stranded`), they are one cluster by the rules, since
only a control and the end break behind them (GB9b). The grammar takes all of them as prepended,
has none left for a core, and falls back on a single character.
-/

namespace Backtrack

open Unicode (GraphemeBreak ConjunctBreak Row Trait)

/-! ## The properties of the character table -/

namespace Unicode.Row

/-- Pictographs have no part in clusters or conjuncts, consonants are no special parts of clusters,
and a virama extends. -/
def Coherent (row : Row) : Prop :=
  (Trait.extendedPictographic ∈ row.traits → row.grapheme = .other ∧ row.syllabic = .other) ∧
    (row.conjoining = true → row.syllabic = .consonant → row.grapheme = .other) ∧
    (row.conjoining = true → row.syllabic = .virama → row.grapheme = .extend)

instance (row : Row) : Decidable row.Coherent := inferInstanceAs (Decidable (_ ∧ _ ∧ _))

theorem coherent_of (c : Char) : (of c).Coherent :=
  of_induction (by decide +kernel) (fun n => by simp [Coherent, unassigned]) c

end Unicode.Row

/-- Where the conjunct property of a character comes from. -/
theorem Unicode.ConjunctBreak.of_cases (c : Char) :
    (of c = .linker ∧ (Row.of c).conjoining = true ∧ (Row.of c).syllabic = .virama) ∨
    (of c = .consonant ∧ (Row.of c).conjoining = true ∧ (Row.of c).syllabic = .consonant) ∨
    (of c = .extend ∧
      ((Row.of c).grapheme = .extend ∨ (Row.of c).grapheme = .zeroWidthJoiner)) ∨
    of c = .none := by
  unfold of
  dsimp only
  split
  next hconjoining hsyllabic => exact .inl ⟨rfl, hconjoining, hsyllabic⟩
  next hconjoining hsyllabic => exact .inr (.inl ⟨rfl, hconjoining, hsyllabic⟩)
  next =>
    split
    next hextend =>
      simp only [Bool.and_eq_true, Bool.or_eq_true, beq_iff_eq] at hextend
      exact .inr (.inr (.inl ⟨rfl, hextend.1.symm⟩))
    next => exact .inr (.inr (.inr rfl))

namespace Grapheme.Properties

/-- The properties of the character table are consistent. -/
theorem unicode_consistent : unicode.Consistent := by
  have hcoherent (c : Char) := Row.coherent_of c
  have hconjunct (c : Char) := ConjunctBreak.of_cases c
  refine ⟨fun c h => ?_, fun c h => ?_, fun c h => ?_, fun c h => ?_⟩
  · obtain ⟨hgrapheme, hsyllabic⟩ := (hcoherent c).1 (List.contains_iff_mem.mp h)
    refine ⟨hgrapheme, ?_⟩
    change ConjunctBreak.of c = .none
    simp [ConjunctBreak.of, hgrapheme, hsyllabic]
  all_goals
    change ConjunctBreak.of c = _ at h
    rcases hconjunct c with ⟨hb, hrow⟩ | ⟨hb, hrow⟩ | ⟨hb, hrow⟩ | hb <;> rw [h] at hb <;>
      cases hb
  · exact (hcoherent c).2.1 hrow.1 hrow.2
  · exact (hcoherent c).2.2 hrow.1 hrow.2
  · exact hrow

/-! ## Stranded characters -/

variable {P : Properties} {r s ps : List Char}

variable (P) in
/-- Two or more characters are prepended to a control or to the end of the text. -/
def stranded (text : List Char) : Bool :=
  decide (2 ≤ (text.takeWhile (P.breakIn [.prepend])).length) &&
    (text.dropWhile (P.breakIn [.prepend])).head?.all P.control

theorem stranded_iff (h : IsRun (P.breakIn [.prepend]) r ps s) :
    P.stranded r = true ↔ 2 ≤ ps.length ∧ ∀ c ∈ s.head?, P.control c = true := by
  rw [stranded, h.takeWhile, h.dropWhile, Bool.and_eq_true, decide_eq_true_iff,
    Option.all_eq_true]
  rfl

theorem stranded_head (h : P.stranded r = true) :
    ∃ p q t, r = p :: q :: t ∧ P.breaks p = .prepend ∧ P.breaks q = .prepend := by
  obtain ⟨ps, s, hps⟩ := IsRun.exists (P.breakIn [.prepend]) r
  have hlength := ((stranded_iff hps).mp h).1
  rcases ps with _ | ⟨p, _ | ⟨q, ps⟩⟩
  · simp at hlength
  · simp at hlength
  · exact ⟨p, q, ps ++ s, hps.append, hps.all_breaks p (by simp), hps.all_breaks q (by simp)⟩

/-- What starts with a control is not stranded. -/
theorem stranded_of_control {c : Char} (hc : c ∈ r.head?) (hcontrol : P.control c = true) :
    P.stranded r = false := by
  refine Bool.of_not_eq_true fun h => ?_
  obtain ⟨p, q, t, rfl, hp, -⟩ := stranded_head h
  rw [← Option.some.inj hc, control_iff, hp] at hcontrol
  simp at hcontrol

/-- Stranded characters stay together by the rules. -/
theorem firstCluster_of_stranded (h : P.stranded r = true) : P.firstCluster r ≠ r.take 1 := by
  obtain ⟨p, q, t, rfl, hp, hq⟩ := stranded_head h
  have hjoined : P.joined [p] q = true :=
    joined_of_prepended (fun x hx => Option.some.inj hx ▸ hp) (control_of_breaks hq (by decide))
  have hunbroken : P.Unbroken [] [p, q] := ⟨rfl, hjoined, trivial⟩
  intro htake
  have hsplit : P.firstCluster (p :: q :: t) = [p, q] ++ P.upToBreak [q, p] t :=
    upToBreak_append hunbroken
  rw [hsplit] at htake
  cases htake

end Grapheme.Properties

/-! ## Clusters -/

namespace Grapheme

variable {ι : Type} {τ : ι → Type} {env : Env Char τ} {P : Properties} {m pos : Nat} {r : List Char}

open Properties

variable (P) in
/-- What is taken as a cluster. -/
def taken (text : List Char) : List Char :=
  if P.stranded text then text.take 1 else P.firstCluster text

theorem taken_of_stranded (h : P.stranded r = true) : taken P r = r.take 1 := if_pos h

theorem taken_of_not_stranded (h : P.stranded r = false) : taken P r = P.firstCluster r :=
  if_neg (by simp [h])

theorem cluster_skips (hP : P.Consistent) (hm : bytes r + 12 ≤ m) (hr : r ≠ []) :
    (cluster P).Skips env m r (fun s => r = taken P r ++ s) False := by
  refine Parser.SkipsOne.choiceOf (n := m - 1) (by omega)
    (.cons (lineBreak_skips (by omega)) ?_ fun hbreak =>
    .cons (break_skips (by omega)) ?_ fun hcontrol =>
    .cons (extended_skips hP (by omega)) ?_ fun ⟨ps, s, hps, hs⟩ =>
    .cons (one_skips (by omega)) ?_ fun hno => .nil ?_)
  · rintro s ⟨hfirst, c, hc, hcontrol⟩
    rwa [taken_of_not_stranded (stranded_of_control hc hcontrol)]
  · rintro s ⟨c, rfl, hc⟩
    have hcontrol : P.control c = true := control_iff.mpr (by simp [hc])
    rw [taken_of_not_stranded (stranded_of_control rfl hcontrol),
      firstCluster_cons fun x _ => ⟨.inl hcontrol, by simp [hc]⟩, List.singleton_append]
  · rintro s ⟨hfirst, ps, s', hps, c, hc, hplain⟩
    rwa [taken_of_not_stranded]
    refine Bool.of_not_eq_true fun h => ?_
    rw [((stranded_iff hps).mp h).2 c hc] at hplain
    cases hplain
  · rintro t ⟨c, rfl, -⟩
    by_cases h : P.stranded (c :: t) = true
    · rw [taken_of_stranded h]
      rfl
    · rw [taken_of_not_stranded (Bool.of_not_eq_true h), firstCluster_cons, List.singleton_append]
      refine fun x hx => ⟨?_, fun hreturn => ((hbreak c rfl).1 hreturn).elim⟩
      -- Without a prepended character `c` is the control, and with one that is `c` the control is
      -- next. More are stranded.
      rcases ps with _ | ⟨p, _ | ⟨q, ps⟩⟩
      · exact .inl (hs c (by rw [← List.nil_append s, ← hps.append]; rfl))
      · obtain ⟨-, rfl⟩ := List.cons.inj hps.append
        exact .inr (hs x hx)
      · exact (h ((stranded_iff hps).mpr ⟨by simp, hs⟩)).elim
  · obtain ⟨c, s, rfl⟩ := List.exists_cons_of_ne_nil hr
    cases hno c rfl

theorem parser_run (hP : P.Consistent) (hm : bytes r + 13 ≤ m) (hr : r ≠ []) :
    (parser P : Parser Char τ String).OnRest env m r
      fun x => ∃ s, r = taken P r ++ s ∧ x = some (.ofList (taken P r), s) := by
  refine .covered (n := m - 1) (by omega) (Parser.OnRest.imp (cluster_skips hP (by omega) hr) ?_)
  intro x hx
  cases x with
  | none => exact hx.elim
  | some x => exact ⟨taken P r, hx, x.2, hx, rfl⟩

/-- From wherever something is left of a text, the parser succeeds from every state, and takes the
characters up to the first break, unless characters are stranded there: of those it takes the first,
though they stay together. -/
theorem parser_takes_firstCluster (hP : P.Consistent) (hr : r ≠ [])
    (hpos : env.source.textFrom? pos = some r) : ∃ w n,
      (∀ m ≥ n, ∀ s, ∃ t, (parser P : Parser Char τ String).run env m pos s =
        some (.ok (pos + bytes w) (.ofList w), t)) ∧
      (P.stranded r = false → w = P.firstCluster r) ∧
      (P.stranded r = true → w = r.take 1 ∧ w ≠ P.firstCluster r) := by
  refine ⟨taken P r, bytes r + 13, fun m hm s => ?_, taken_of_not_stranded, fun h => ?_⟩
  · obtain ⟨o, t, hrun, x, ho, rest, hrest, rfl⟩ := parser_run hP hm hr pos hpos m (Nat.le_refl _) s
    cases ho with
    | ok hq =>
      have hlen := Source.len_of_textFrom? hpos
      have hlen' := Source.len_of_textFrom? hq
      have hbytes := congrArg bytes hrest
      rw [bytes_append] at hbytes
      refine ⟨t, ?_⟩
      rw [hrun]
      congr 3
      omega
  · rw [taken_of_stranded h]
    exact ⟨rfl, (firstCluster_of_stranded h).symm⟩

theorem parser_takes_firstCluster_accented :
    unicode.Consistent ∧ ['\u0600', 'a', '\u0301', 'b'] ≠ [] ∧
      (Source.text ['\u0600', 'a', '\u0301', 'b']).textFrom? 0 =
        some ['\u0600', 'a', '\u0301', 'b'] ∧
      ∃ w n, (∀ m ≥ n, ∀ s, ∃ t,
        (parser unicode : Parser Char (fun _ : Empty => Unit) String).run
            ⟨.text ['\u0600', 'a', '\u0301', 'b'], {}, Empty.elim⟩ m 0 s =
          some (.ok (0 + bytes w) (.ofList w), t)) ∧ w = ['\u0600', 'a', '\u0301'] := by
  have hne : ['\u0600', 'a', '\u0301', 'b'] ≠ [] := List.cons_ne_nil _ _
  have hpos : (⟨.text ['\u0600', 'a', '\u0301', 'b'], {}, Empty.elim⟩ :
      Env Char fun _ : Empty => Unit).source.textFrom? 0 =
        some ['\u0600', 'a', '\u0301', 'b'] := rfl
  obtain ⟨w, n, hrun, hw, -⟩ := parser_takes_firstCluster unicode_consistent hne hpos
  exact ⟨unicode_consistent, hne, hpos, w, n, hrun, hw (by decide +kernel)⟩

/-- Two characters that are prepended to nothing stay together by the rules, and are split. -/
theorem parser_splits_stranded :
    unicode.firstCluster ['\u0600', '\u0600'] = ['\u0600', '\u0600'] ∧
      ((parser unicode : Parser Char (fun _ : Empty => Unit) String).run
          ⟨.text ['\u0600', '\u0600'], {}, Empty.elim⟩ 20 0 {}).map Prod.fst =
        some (.ok 2 "\u0600") := by
  constructor
  · decide +kernel
  · decide +kernel

end Grapheme

end Backtrack
