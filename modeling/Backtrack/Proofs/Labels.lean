import Backtrack.Proofs.Isolation
import Backtrack.Proofs.Sink.Collapse

/-!
# What a failed label leaves of the report

Where a labelled parser fails and no failure was registered farther on, the report ends with the
label, and before it stands at most what was reported there before the labelled parser ran. Nothing
that the labelled parser reported shows next to its label, however labels are nested in it. What
was reported before may lose records at its end to labels inside the labelled parser, but not if
there are none.
-/

namespace Backtrack

variable {σ ι : Type} {τ : ι → Type} {α : Type}

namespace Sink

variable {s u : Sink} {pos : Nat}

/-- What is added at `pos` to a sink that lies nowhere else stands behind its records. -/
theorem recordsAt_add (hpos : u.NotBefore pos) {e : Expectation}
    (hadd : (u.add pos (some e)).Within pos) :
    (u.add pos (some e)).recordsAt pos = u.records ++ [e] := by
  cases u with
  | empty => simp [add, records]
  | reached f rs =>
    have hf : pos ≤ f := hpos f rfl
    have hle : f ≤ pos := by
      rw [add_eq_merge, within_merge_iff] at hadd
      exact hadd.1 f rfl
    have heq : f = pos := Nat.le_antisymm hle hf
    subst heq
    simp [add, records]

/-- Records that lie at `pos` or beyond are the records at `pos` if none lie beyond. -/
theorem recordsAt_eq_records (hpos : u.NotBefore pos) (hu : u.Within pos) :
    u.recordsAt pos = u.records := by
  cases u with
  | empty => simp [records]
  | reached f rs =>
    have heq : f = pos := Nat.le_antisymm (hu f rfl) (hpos f rfl)
    rw [recordsAt_reached, if_pos heq]
    rfl

/-- If a history adds to `s` what `u` does, the records of `u` come from it. -/
theorem exists_mem_of_merge_eq {es : List Entry} (h : s.merge u = s.merge (ofEntries es))
    (hpos : u.NotBefore pos) (hs : s.Within pos) (hu : u.Within pos) {e : Expectation}
    (he : e ∈ u.records) : ∃ e' ∈ es, e'.record = some e := by
  have hes : (ofEntries es).Within pos := by
    have hmerge := within_merge_iff.mpr ⟨hs, hu⟩
    rw [h] at hmerge
    exact (within_merge_iff.mp hmerge).2
  have hat : u.recordsAt pos = (ofEntries es).recordsAt pos := by
    have hmerge := recordsAt_merge hs hu
    rw [h, recordsAt_merge hs hes] at hmerge
    exact (List.append_cancel_left hmerge).symm
  rw [← recordsAt_eq_records hpos hu, hat, recordsAt] at he
  split at he
  · exact exists_mem_of_mem_records he
  · cases he

/-- The report of a label behind a stretch of its length. -/
theorem collapseAll_label (rs inner : List Expectation) (i : Nat) (name : String) :
    collapseAll (rs ++ inner ++ [.label i inner.length name]) =
      (dropWeight inner.length (inner.foldl collapse (rs.foldl collapse []))).reverse ++
        [.label i inner.length name] := by
  simp [collapseAll, collapse]

end Sink

section

variable [BEq σ] [Describe σ] {env : Env σ τ} {p : Parser σ τ α}

/-- Runs of one parser alone with different bounds leave the same sink. -/
theorem Parser.sink_eq_of_alone (henv : env.LibraryBuilt) (hp : p.LibraryBuilt) {m n pos : Nat}
    {r r' : Outcome α} {t t' : State} (hm : p.run env m pos {} = some (r, t))
    (hn : p.run env n pos {} = some (r', t')) : t.sink = t'.sink := by
  obtain ⟨u, hu, ht⟩ := run_mono henv hp (Nat.le_max_left m n) hm
  obtain ⟨u', hu', ht'⟩ := run_mono henv hp (Nat.le_max_right m n) hn
  rw [hu] at hu'
  cases hu'
  exact ht.symm.trans ht'

/-- The label of a parser that failed takes the place of everything the parser reported, and leaves
a part at least of what was there before: all of it, if the parser reported no label itself. -/
theorem Parser.label_collapses (henv : env.LibraryBuilt) (hp : p.LibraryBuilt) {name : String}
    {n pos q : Nat} {s t : State} (hrun : (label p name).run env n pos s = some (.fail q, t))
    (hfarthest : t.sink.farthest = some pos) :
    ∃ kept length, t.sink.finish = kept ++ [.label pos length name] ∧
      kept <+: Sink.collapseAll (s.sink.recordsAt pos) ∧
      ∀ {m r u es}, p.run env m pos s = some (r, u) → u.entries = es ++ s.entries →
        (∀ e ∈ es, ∀ x, e.record = some x → x.isLabel = false) →
        kept = Sink.collapseAll (s.sink.recordsAt pos) := by
  cases n with
  | zero => cases hrun
  | succ n =>
    have hsim := run_simulates henv (Nat.le_refl n) p hp pos
    obtain ⟨u, hu, hlabelled, hsink⟩ := alone_of_label_run henv hp hsim hrun
    have hpos := notBefore_of_alone henv hp hu
    rw [Sink.afterLabel] at hsink
    -- No failure lies beyond `pos`, so the sink is what was at `pos` before, with what came then.
    have hwithin : t.sink.Within pos := fun f hf => by
      rw [hfarthest] at hf
      exact Nat.le_of_eq (Option.some.inj hf).symm
    rw [hsink, Sink.within_merge_iff] at hwithin
    obtain ⟨hs, hadd⟩ := hwithin
    have hfinish : t.sink.finish = Sink.collapseAll (s.sink.recordsAt pos ++ u.sink.records ++
        [.label pos u.sink.records.length name]) := by
      rw [Sink.finish, ← Sink.recordsAt_of_farthest hfarthest, hsink, Sink.recordsAt_merge hs hadd,
        Sink.recordsAt_add hpos hadd, List.append_assoc]
    refine ⟨_, _, hfinish.trans (Sink.collapseAll_label _ _ _ _), ?_, ?_⟩
    · exact List.reverse_prefix.mpr (Sink.dropWeight_labelled hlabelled _)
    · intro m r v es hv hentries hplain
      obtain ⟨w, hw, -, hvsink⟩ := alone_of_run (run_simulates henv (Nat.le_refl m) p hp pos) hv
      obtain ⟨⟨es', hes', hvsink', -⟩, -⟩ := run_forward henv hp hv
      have hes : es = es' := List.append_cancel_right (hentries.symm.trans hes')
      subst hes
      rw [hvsink, sink_eq_of_alone henv hp hw hu] at hvsink'
      have hu' : u.sink.Within pos := by
        rw [Sink.add_eq_merge, Sink.within_merge_iff] at hadd
        exact hadd.1
      have hrecords : ∀ x ∈ u.sink.records, x.isLabel = false := fun x hx => by
        obtain ⟨e, he, hex⟩ := Sink.exists_mem_of_merge_eq hvsink' hpos hs hu' hx
        exact hplain e he x hex
      have hreverse : ∀ x ∈ u.sink.records.reverse, x.isLabel = false :=
        fun x hx => hrecords x (List.mem_reverse.mp hx)
      rw [Sink.foldl_collapse_plain hrecords, ← List.length_reverse, Sink.dropWeight_plain hreverse,
        Sink.collapseAll]

end

/-- Behind a record that was there before, a parser without labels and one with a label in it. The
label inside takes the record that was there along with its own. -/
theorem Parser.label_collapses_nested :
    let env := Env.bare (.ofString "")
    let p : Parser Char (Empty.elim : Empty → Type) Unit :=
      either (fail (some "x")) (fail (some "y"))
    let q := label p "inner"
    let s : State := { sink := .reached 0 [.expected 0 "w"] }
    ∃ t t', (p.LibraryBuilt ∧ (label p "outer").run env 3 0 s = some (.fail 0, t) ∧
        t.sink.farthest = some 0 ∧ t.sink.finish = [.expected 0 "w", .label 0 2 "outer"]) ∧
      (∃ kept length, t.sink.finish = kept ++ [.label 0 length "outer"] ∧
        kept = Sink.collapseAll [.expected 0 "w"]) ∧
      (q.LibraryBuilt ∧ (label q "outer").run env 4 0 s = some (.fail 0, t') ∧
        t'.sink.farthest = some 0 ∧ t'.sink.finish = [.label 0 3 "outer"]) ∧
      ∃ kept length, t'.sink.finish = kept ++ [.label 0 length "outer"] ∧
        kept <+: Sink.collapseAll [.expected 0 "w"] := by
  intro env p q s
  have henv : env.LibraryBuilt := Env.bare_builtFrom _ _
  have hp : p.LibraryBuilt := ⟨trivial, trivial⟩
  have hq : q.LibraryBuilt := hp
  obtain ⟨t, hrun⟩ : ∃ t, (label p "outer").run env 3 0 s = some (.fail 0, t) := ⟨_, rfl⟩
  obtain ⟨t', hrun'⟩ : ∃ t, (label q "outer").run env 4 0 s = some (.fail 0, t) := ⟨_, rfl⟩
  have ht : t.sink = .reached 0 [.expected 0 "w", .expected 0 "x", .expected 0 "y",
      .label 0 2 "outer"] := by cases hrun; rfl
  have ht' : t'.sink = .reached 0 [.expected 0 "w", .expected 0 "x", .expected 0 "y",
      .label 0 2 "inner", .label 0 3 "outer"] := by cases hrun'; rfl
  have hfarthest : t.sink.farthest = some 0 := by rw [ht]; rfl
  have hfarthest' : t'.sink.farthest = some 0 := by rw [ht']; rfl
  refine ⟨t, t', ⟨hp, hrun, hfarthest, by rw [ht]; rfl⟩, ?_,
    ⟨hq, hrun', hfarthest', by rw [ht']; rfl⟩, ?_⟩
  · obtain ⟨kept, length, hfinish, -, hkept⟩ := label_collapses henv hp hrun hfarthest
    -- The two entries of the run are no labels.
    have hplain : ∀ e ∈ [(⟨0, some (.expected 0 "y")⟩ : Entry), ⟨0, some (.expected 0 "x")⟩],
        ∀ x, e.record = some x → x.isLabel = false := by
      simp [Expectation.isLabel]
    exact ⟨kept, length, hfinish, hkept (m := 2) rfl rfl hplain⟩
  · obtain ⟨kept, length, hfinish, hkept, -⟩ := label_collapses henv hq hrun' hfarthest'
    exact ⟨kept, length, hfinish, hkept⟩

end Backtrack
