import Backtrack.Proofs.Sink.Merge

/-!
# Labels that count right

The length of a label is what the sink has gained since a checkpoint. Only records that are still
in the sink are counted, and if the label is kept at all, they are all that the labelled parser has
in a sink of its own. So the label reads nothing off what was in the sink before (`label_add`).

`Labelled` describes the lists of records that come about in this way: every label stands behind a
stretch of such a list, of the length that the label says.
-/

namespace Backtrack

/-- Records each label of which counts a stretch right before it. -/
inductive Labelled : List Expectation → Prop where
  | nil : Labelled []
  | snoc {rs : List Expectation} {r : Expectation} (h : Labelled rs) (hr : r.isLabel = false) :
    Labelled (rs ++ [r])
  | label {rs inner : List Expectation} (h : Labelled rs) (hinner : Labelled inner) (i : Nat)
    (name : String) : Labelled (rs ++ inner ++ [.label i inner.length name])

theorem Labelled.append {rs ts : List Expectation} (h : Labelled rs) (ht : Labelled ts) :
    Labelled (rs ++ ts) := by
  induction ht with
  | nil => rwa [List.append_nil]
  | snoc _ hr ih => rw [← List.append_assoc]; exact ih.snoc hr
  | label _ hinner i name ih _ =>
    rw [← List.append_assoc, ← List.append_assoc]
    exact ih.label hinner i name

namespace Sink

variable {s t : Sink} {pos : Nat}

/-- A label at `pos`, with what the sink has gained since it was `s`. If the gain `t` lies at `pos`
or beyond, this is a label with all records of the gain, added to the gain. -/
theorem label_add (ht : t.NotBefore pos) (name : String) :
    (s.merge t).add pos (some (.label pos ((s.merge t).countSince s.checkpoint) name)) =
      s.merge (t.add pos (some (.label pos t.records.length name))) := by
  cases t with
  | empty =>
    rw [← merge_add]
    simp [countSince, checkpoint, records]
  | reached f rs =>
    have hf : pos ≤ f := ht f rfl
    cases s with
    | empty => simp [countSince, checkpoint, records, farthest]
    | reached g ss =>
      rcases Nat.lt_trichotomy f g with h | h | h
      · -- The gain is out of reach, and the label with it.
        have hadd : ∀ r, (reached g ss).add pos r = reached g ss := fun r => by
          simp only [add]; grind
        have hmerge : ∀ ts, (reached g ss).merge (reached f ts) = reached g ss := fun ts => by
          simp only [merge]; grind
        rw [hmerge, hadd, add]
        split
        · omega
        · split <;> rw [hmerge]
      · subst h
        simp only [← merge_add]
        congr 3
        simp [merge, countSince, checkpoint, farthest, records]
      · simp only [← merge_add]
        congr 3
        have hne : g ≠ f := Nat.ne_of_lt h
        simp [merge, h, hne, countSince, checkpoint, farthest, records]

/-- A merged sink holds records of one side, of the other, or of one and then the other. -/
theorem records_merge_cases (s t : Sink) :
    (s.merge t).records = s.records ∨ (s.merge t).records = t.records ∨
      (s.merge t).records = s.records ++ t.records := by
  cases s with
  | empty => exact .inr (.inl rfl)
  | reached f rs =>
    cases t with
    | empty => exact .inl rfl
    | reached g ts =>
      rw [merge]
      split
      · exact .inr (.inl rfl)
      · split
        · exact .inl rfl
        · exact .inr (.inr rfl)

theorem labelled_merge (hs : Labelled s.records) (ht : Labelled t.records) :
    Labelled (s.merge t).records := by
  rcases records_merge_cases s t with h | h | h
  · rwa [h]
  · rwa [h]
  · rw [h]; exact hs.append ht

/-- An entry that is no label keeps the labels right. -/
theorem labelled_add {i : Nat} {r : Option Expectation} (hs : Labelled s.records)
    (hr : ∀ e, r = some e → e.isLabel = false) : Labelled (s.add i r).records := by
  rw [add_eq_merge]
  refine labelled_merge hs ?_
  cases r with
  | none => exact .nil
  | some e => exact Labelled.nil.snoc (hr e rfl)

/-- So does a label with all records of the sink, unless the sink is beyond it. -/
theorem labelled_add_label (hs : Labelled s.records) (hpos : s.NotBefore pos)
    (name : String) :
    Labelled (s.add pos (some (.label pos s.records.length name))).records := by
  cases s with
  | empty => exact Labelled.nil.label .nil pos name
  | reached f rs =>
    have hf : pos ≤ f := hpos f rfl
    rw [add]
    split
    · omega
    · split
      · exact Labelled.nil.label hs pos name
      · exact hs

end Sink

end Backtrack
