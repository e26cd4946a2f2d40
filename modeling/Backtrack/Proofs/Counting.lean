import Backtrack.Proofs.Landing
import Backtrack.Proofs.Monotone

/-!
# Counting new records

A checkpoint holds a position and a number. What `Sink.countSince` makes of them is the number of
records that were reported since and are still there, for every history of the sink before the
checkpoint and after it (`Sink.countSince_merge`). The farthest position never comes back to an
earlier one, and as long as it stays, records are only added at the end
(`Sink.records_merge_ofEntries`). So what is there since the checkpoint is either the end of the
list, behind as many records as the checkpoint says, or all of it.

The length of a label is such a count, whatever the labelled parser is (`Parser.label_counts`).
-/

namespace Backtrack

variable {σ ι : Type} {τ : ι → Type} {α : Type}

namespace Sink

variable {s : Sink} {es : List Entry} {f : Nat}

/-- The records that a history reported at `f`, in order. The latest entry of a history stands
first. -/
def reportedAt (f : Nat) (es : List Entry) : List Expectation :=
  (es.filter fun e => f = e.index).reverse.filterMap Entry.record

@[simp] theorem reportedAt_nil (f : Nat) : reportedAt f [] = [] := rfl

@[simp] theorem reportedAt_append (f : Nat) (es es' : List Entry) :
    reportedAt f (es ++ es') = reportedAt f es' ++ reportedAt f es := by
  simp [reportedAt]

/-- The last entry of a history counts if it lies at `f`. -/
theorem reportedAt_cons (f : Nat) (e : Entry) (es : List Entry) :
    reportedAt f (e :: es) = reportedAt f es ++ (reached e.index e.record.toList).recordsAt f := by
  have hone : reportedAt f [e] = (reached e.index e.record.toList).recordsAt f := by
    rw [recordsAt_reached, reportedAt]
    by_cases h : f = e.index
    · cases hrecord : e.record <;> simp [h, hrecord]
    · simp [h, Ne.symm h]
  rw [← hone, ← reportedAt_append, List.singleton_append]

theorem length_reportedAt (f : Nat) (es : List Entry) :
    (reportedAt f es).length = es.countP fun e => e.record.isSome && f = e.index := by
  rw [reportedAt, List.length_filterMap_eq_countP, List.countP_reverse, List.countP_filter]

/-- The records that are for the farthest position are those reported there. -/
theorem countP_farthest {o : Option Nat} (h : o = some f) (es : List Entry) :
    (es.countP fun e => e.record.isSome && o = some e.index) = (reportedAt f es).length := by
  rw [length_reportedAt, h]
  simp only [Option.some.injEq]

/-- A sink that lies nowhere beyond `f` holds at `f` what its history reported there. -/
theorem recordsAt_ofEntries (h : (ofEntries es).Within f) :
    (ofEntries es).recordsAt f = reportedAt f es := by
  induction es with
  | nil => exact recordsAt_empty f
  | cons e es ih =>
    have hstep : ofEntries (e :: es) = (ofEntries es).merge (reached e.index e.record.toList) :=
      add_eq_merge _ _ _
    rw [hstep, within_merge_iff] at h
    rw [hstep, recordsAt_merge h.1 h.2, ih h.1, reportedAt_cons]

/-- After a history, the sink holds what it held at its farthest position before, and then what was
reported there. -/
theorem records_merge_ofEntries (h : (s.merge (ofEntries es)).farthest = some f) :
    (s.merge (ofEntries es)).records = s.recordsAt f ++ reportedAt f es := by
  obtain ⟨hs, hes⟩ := within_merge_iff.mp (within_of_farthest h)
  rw [← recordsAt_of_farthest h, recordsAt_merge hs hes, recordsAt_ofEntries hes]

/-- A sink has come at least as far as every entry of its history. -/
theorem reaches_of_mem {e : Entry} (he : e ∈ es) : (s.merge (ofEntries es)).Reaches e.index := by
  induction es with
  | nil => cases he
  | cons e' es ih =>
    rw [merge_ofEntries_cons]
    rcases List.mem_cons.mp he with rfl | he
    · exact reaches_add _ _ _
    · rw [add_eq_merge]
      exact (ih he).merge _

/-- So a sink that has come nowhere has no history. -/
theorem eq_nil_of_farthest (h : (s.merge (ofEntries es)).farthest = none) : es = [] := by
  refine List.eq_nil_iff_forall_not_mem.mpr fun e he => ?_
  obtain ⟨g, hg, -⟩ := reaches_of_mem (s := s) he
  rw [h] at hg
  cases hg

/-- The records since a checkpoint are those that were reported at the position that is the farthest
now. -/
theorem countSince_merge (s : Sink) (es : List Entry) :
    (s.merge (ofEntries es)).countSince s.checkpoint =
      es.countP fun e => e.record.isSome && (s.merge (ofEntries es)).farthest = some e.index := by
  cases hf : (s.merge (ofEntries es)).farthest with
  | none =>
    rw [eq_nil_of_farthest hf, ofEntries_nil, merge_empty, countSince]
    exact (if_pos rfl).trans (Nat.sub_self _)
  | some f =>
    rw [countSince, checkpoint, hf, records_merge_ofEntries hf, List.length_append,
      countP_farthest rfl]
    split
    · next hs => rw [recordsAt_of_farthest hs, Nat.add_sub_cancel_left]
    · next hs => rw [recordsAt, if_neg hs, List.length_nil, Nat.zero_add]

/-- Where the farthest position is still that of a checkpoint, the records counted there are. -/
theorem checkpoint_le (h : s.checkpoint.farthest = (s.merge (ofEntries es)).farthest) :
    s.checkpoint.count ≤ (s.merge (ofEntries es)).records.length := by
  change s.farthest = _ at h
  change s.records.length ≤ _
  cases hf : (s.merge (ofEntries es)).farthest with
  | none => rw [records_eq_nil (h.trans hf)]; exact Nat.zero_le _
  | some f =>
    rw [records_merge_ofEntries hf, recordsAt_of_farthest (h.trans hf), List.length_append]
    exact Nat.le_add_right _ _

/-- If no record was reported before `f`, and the sink does not lie beyond it, the records that
count are those at `f`. -/
theorem countP_eq_length_reportedAt (hwithin : (s.merge (ofEntries es)).Within f)
    (hes : ∀ e ∈ es, e.record.isSome → f ≤ e.index) :
    (es.countP fun e => e.record.isSome && (s.merge (ofEntries es)).farthest = some e.index) =
      (reportedAt f es).length := by
  rw [length_reportedAt]
  refine List.countP_congr fun e he => ?_
  obtain ⟨g, hg, hle⟩ := reaches_of_mem (s := s) he
  have hgf : g ≤ f := hwithin g hg
  simp only [Bool.and_eq_true, decide_eq_true_eq, hg, Option.some.injEq]
  constructor
  · rintro ⟨hrecord, rfl⟩
    exact ⟨hrecord, Nat.le_antisymm (hes e he hrecord) hgf⟩
  · rintro ⟨hrecord, rfl⟩
    exact ⟨hrecord, Nat.le_antisymm hgf hle⟩

end Sink

section

variable [BEq σ] [Describe σ] {env : Env σ τ} {p : Parser σ τ α}

/-- A label that fails has run the labelled parser, which failed, and has added what it counted. -/
theorem Parser.label_run_fail {name : String} {n pos q : Nat} {s t : State}
    (hrun : (label p name).run env n pos s = some (.fail q, t)) :
    ∃ u length, p.run env (n - 1) pos s = some (.fail q, u) ∧
      length = u.sink.countSince s.sink.checkpoint ∧
      t.entries = ⟨pos, some (.label pos length name)⟩ :: u.entries ∧
      t.sink = u.sink.add pos (some (.label pos length name)) := by
  cases n with
  | zero => cases hrun
  | succ n =>
    rw [run] at hrun
    obtain ⟨_, _, hcurrent, hrun⟩ := Act.bind_eq_some.mp hrun
    cases hcurrent
    obtain ⟨r, u, hu, hrest⟩ := Act.bind_eq_some.mp hrun
    cases r with
    | ok e a => cases hrest
    | fail e =>
      cases hrest
      exact ⟨u, _, hu, rfl, rfl, rfl⟩

end

/-- What is counted since a checkpoint are the records of the history since then that are for the
farthest position, and the checkpoint never counts more records than there are. So the label of a
parser, whatever the parser is, counts the records that the parser reported and that are in the sink
when the label is added. As long as the label is kept, they stand right before it, behind what was
there already, unless the parser reported records before its start: a label that is farther than
those takes their place. A library-built parser never reports before its start. -/
theorem Parser.label_counts :
    (∀ h₁ h₂ : List Entry,
      let c := (Sink.ofEntries h₁).checkpoint
      let t := Sink.ofEntries (h₂ ++ h₁)
      t.countSince c = h₂.countP (fun e => e.record.isSome && t.farthest = some e.index) ∧
        (c.farthest = t.farthest → c.count ≤ t.records.length)) ∧
    ∀ {σ ι : Type} {τ : ι → Type} {α : Type} [BEq σ] [Describe σ] {env : Env σ τ}
      {p : Parser σ τ α} {name : String} {n pos q : Nat} {s t : State},
      (label p name).run env n pos s = some (.fail q, t) →
      ∃ u es length, p.run env (n - 1) pos s = some (.fail q, u) ∧
        u.entries = es ++ s.entries ∧ u.sink = s.sink.merge (.ofEntries es) ∧
        t.entries = ⟨pos, some (.label pos length name)⟩ :: u.entries ∧
        t.sink = u.sink.add pos (some (.label pos length name)) ∧
        length = es.countP (fun e => e.record.isSome && u.sink.farthest = some e.index) ∧
        (∀ f, u.sink.farthest = some f →
          u.sink.records = s.sink.recordsAt f ++ Sink.reportedAt f es ∧
          length = (Sink.reportedAt f es).length) ∧
        (env.LibraryBuilt → p.LibraryBuilt → ∀ e ∈ es, pos ≤ e.index) ∧
        ∀ h₃, (t.sink.merge (.ofEntries h₃)).farthest = some pos →
          (t.sink.merge (.ofEntries h₃)).records = s.sink.recordsAt pos ++
            Sink.reportedAt pos es ++ .label pos length name :: Sink.reportedAt pos h₃ ∧
          ((∀ e ∈ es, e.record.isSome → pos ≤ e.index) →
            length = (Sink.reportedAt pos es).length) := by
  constructor
  · intro h₁ h₂ c t
    have ht : t = (Sink.ofEntries h₁).merge (.ofEntries h₂) := Sink.ofEntries_append h₂ h₁
    rw [ht]
    exact ⟨Sink.countSince_merge _ h₂, Sink.checkpoint_le⟩
  · intro σ ι τ α _ _ env p name n pos q s t hrun
    obtain ⟨u, length, hu, hcount, htentries, htsink⟩ := label_run_fail hrun
    obtain ⟨es, hentries, hsink, -⟩ := run_extends hu
    have hlength : length =
        es.countP fun e => e.record.isSome && u.sink.farthest = some e.index := by
      rw [hcount, hsink]
      exact Sink.countSince_merge s.sink es
    refine ⟨u, es, length, hu, hentries, hsink, htentries, htsink, hlength, ?_, ?_, ?_⟩
    · intro f hf
      refine ⟨?_, hlength.trans (Sink.countP_farthest hf es)⟩
      rw [hsink] at hf ⊢
      exact Sink.records_merge_ofEntries hf
    · intro henv hp
      obtain ⟨⟨es', hes', -, hle⟩, -⟩ := run_forward henv hp hu
      have heq : es = es' := List.append_cancel_right (hentries.symm.trans hes')
      exact heq ▸ hle
    · intro h₃ hkept
      -- The label is one more entry of the history.
      have hafter : t.sink.merge (.ofEntries h₃) =
          s.sink.merge (.ofEntries (h₃ ++ ⟨pos, some (.label pos length name)⟩ :: es)) := by
        rw [Sink.ofEntries_append, ← Sink.merge_assoc, Sink.merge_ofEntries_cons, htsink, hsink]
      refine ⟨?_, fun hes => ?_⟩
      · rw [hafter] at hkept ⊢
        rw [Sink.records_merge_ofEntries hkept, Sink.reportedAt_append, Sink.reportedAt_cons]
        simp
      · have hwithin := Sink.within_of_farthest hkept
        rw [htsink, Sink.add_eq_merge, Sink.within_merge_iff, Sink.within_merge_iff, hsink]
          at hwithin
        rw [hlength, hsink]
        exact Sink.countP_eq_length_reportedAt hwithin.1.1 hes

/-- A history that stays where the checkpoint was taken, and a label with two alternatives, behind a
record that was there before and with one that comes after. -/
theorem Parser.label_counts_alternatives :
    let h₁ : List Entry := [⟨2, some (.unknown 2)⟩]
    let h₂ : List Entry := [⟨2, some (.expected 2 "x")⟩, ⟨1, some (.unknown 1)⟩, ⟨2, none⟩]
    let c := (Sink.ofEntries h₁).checkpoint
    let t := Sink.ofEntries (h₂ ++ h₁)
    let env := Env.bare (.ofString "ab")
    let p : Parser Char (Empty.elim : Empty → Type) Unit :=
      either (fail (some "x")) (fail (some "y"))
    let s : State := { sink := .reached 1 [.expected 1 "w"] }
    let h₃ : List Entry := [⟨0, some (.unknown 0)⟩, ⟨1, some (.expected 1 "z")⟩]
    (c.farthest = t.farthest ∧ t.countSince c = 1 ∧ c.count ≤ t.records.length) ∧
    ∃ t', (label p "v").run env 3 1 s = some (.fail 1, t') ∧ env.LibraryBuilt ∧ p.LibraryBuilt ∧
      (t'.sink.merge (.ofEntries h₃)).farthest = some 1 ∧
      ∃ es length, t'.entries = ⟨1, some (.label 1 length "v")⟩ :: es ∧
        (∀ e ∈ es, e.record.isSome → 1 ≤ e.index) ∧ length = (Sink.reportedAt 1 es).length ∧
        (t'.sink.merge (.ofEntries h₃)).records = [.expected 1 "w"] ++ Sink.reportedAt 1 es ++
          .label 1 length "v" :: [.expected 1 "z"] := by
  intro h₁ h₂ c t env p s h₃
  have hc : c.farthest = t.farthest := by decide
  obtain ⟨hcount, hle⟩ := label_counts.1 h₁ h₂
  have henv : env.LibraryBuilt := Env.bare_builtFrom _ _
  have hp : p.LibraryBuilt := ⟨trivial, trivial⟩
  obtain ⟨t', hrun⟩ : ∃ t', (label p "v").run env 3 1 s = some (.fail 1, t') := ⟨_, rfl⟩
  have hkept : (t'.sink.merge (.ofEntries h₃)).farthest = some 1 := by cases hrun; rfl
  obtain ⟨u, es, length, -, hes, -, hentries, -, -, -, hinside, hafter⟩ := label_counts.2 hrun
  obtain ⟨hrecords, hlength⟩ := hafter h₃ hkept
  have hinside' : ∀ e ∈ es, e.record.isSome → 1 ≤ e.index := fun e he _ => hinside henv hp e he
  refine ⟨⟨hc, hcount, hle hc⟩, t', hrun, henv, hp, hkept, es, length, ?_, hinside',
    hlength hinside', hrecords⟩
  rw [hentries, hes, List.append_nil]

end Backtrack
