import Backtrack.Proofs.Sink.Labelled

/-!
# What a label leaves of a report

A report is built on a stack, the latest record on top, and a label takes records off the top until
their weights add up to its length. The records of a labelled parser are a stretch of as many
records as the label is long, but on the stack there may be fewer by then, as labels among them have
taken some off, and perhaps some from below the stretch as well.

`CoveredBy n new` says that a label of length `n` takes off all of `new`: the budget is not used up
before the last record. What a stretch with right labels leaves on top of a stack is covered by the
length of the stretch (`foldl_collapse_labelled`), for every nesting of labels in it.

Whatever the labels say, a report consists of records of the sink, in their order
(`finish_sublist`), and it ends with the last of them (`getLast?_finish`).
-/

namespace Backtrack

namespace Sink

variable {n : Nat} {new old out rs : List Expectation}

/-- The weights of the records, added up. -/
def totalWeight : List Expectation → Nat
  | [] => 0
  | r :: rs => r.weight + totalWeight rs

@[simp] theorem totalWeight_nil : totalWeight [] = 0 := rfl

@[simp] theorem totalWeight_cons (r : Expectation) (rs : List Expectation) :
    totalWeight (r :: rs) = r.weight + totalWeight rs := rfl

@[simp] theorem totalWeight_append (rs ts : List Expectation) :
    totalWeight (rs ++ ts) = totalWeight rs + totalWeight ts := by
  induction rs with
  | nil => simp
  | cons r rs ih => simp [ih, Nat.add_assoc]

theorem weight_plain {r : Expectation} (h : r.isLabel = false) : r.weight = 1 := by
  cases r with
  | label => cases h
  | unknown => rfl
  | expected => rfl

theorem collapse_plain {r : Expectation} (h : r.isLabel = false) : collapse out r = r :: out := by
  cases r with
  | label => cases h
  | unknown => rfl
  | expected => rfl

theorem dropWeight_suffix (n : Nat) (out : List Expectation) : dropWeight n out <:+ out := by
  fun_induction dropWeight n out with
  | case1 => exact List.suffix_refl _
  | case2 => exact List.suffix_refl _
  | case3 n r out ih => exact ih.trans (List.suffix_cons r out)

/-- All records but the last weigh less than `n`, so that a label of length `n` removes them all. -/
def CoveredBy (n : Nat) (new : List Expectation) : Prop :=
  new ≠ [] → totalWeight new.dropLast < n

theorem coveredBy_nil (n : Nat) : CoveredBy n [] := fun h => absurd rfl h

theorem coveredBy_cons {r : Expectation} {m : Nat} (h : CoveredBy m new) (hn : r.weight + m ≤ n)
    (hpos : 0 < n) : CoveredBy n (r :: new) := by
  intro _
  cases new with
  | nil => simpa using hpos
  | cons r' new =>
    have := h (List.cons_ne_nil r' new)
    rw [List.dropLast_cons_cons, totalWeight_cons]
    omega

theorem CoveredBy.of_suffix (h : CoveredBy n new) (hold : old <:+ new) : CoveredBy n old := by
  intro hne
  obtain ⟨front, rfl⟩ := hold
  have := h (List.append_ne_nil_of_right_ne_nil front hne)
  rw [List.dropLast_append_of_ne_nil hne, totalWeight_append] at this
  omega

/-- A label takes off all that it covers. -/
theorem dropWeight_append (h : CoveredBy n new) : dropWeight n (new ++ old) <:+ old := by
  induction new generalizing n with
  | nil => exact dropWeight_suffix n old
  | cons r new ih =>
    have hlt := h (List.cons_ne_nil r new)
    cases n with
    | zero => omega
    | succ n =>
      rw [List.cons_append, dropWeight]
      refine ih fun hne => ?_
      rw [List.dropLast_cons_of_ne_nil hne, totalWeight_cons] at hlt
      omega

/-- A suffix of two lists joined is a suffix of the one, joined with a suffix of the other. -/
theorem exists_append_of_suffix {rest : List Expectation} (h : rest <:+ new ++ old) :
    ∃ kept back, rest = kept ++ back ∧ kept <:+ new ∧ back <:+ old := by
  rcases List.suffix_or_suffix_of_suffix h (List.suffix_append new old) with hold | ⟨kept, rfl⟩
  · exact ⟨[], rest, rfl, List.nil_suffix, hold⟩
  · exact ⟨kept, old, rfl, List.suffix_append_self_iff.mp h, List.suffix_refl old⟩

/-- What a stretch with right labels makes of a stack: a part that is covered by its length, on top
of what is left of the stack. The induction is on how the labels are nested. -/
theorem foldl_collapse_labelled (h : Labelled rs) (out : List Expectation) :
    ∃ new old, rs.foldl collapse out = new ++ old ∧ old <:+ out ∧ CoveredBy rs.length new := by
  induction h generalizing out with
  | nil => exact ⟨[], out, rfl, List.suffix_refl out, coveredBy_nil _⟩
  | @snoc rs r _ hr ih =>
    obtain ⟨new, old, hfold, hold, hnew⟩ := ih out
    refine ⟨r :: new, old, ?_, hold, coveredBy_cons hnew ?_ ?_⟩
    · rw [List.foldl_append, hfold, List.foldl_cons, List.foldl_nil, collapse_plain hr]
      rfl
    · rw [weight_plain hr, List.length_append, List.length_singleton]
      omega
    · simp
  | @label rs inner _ _ i name ih ih' =>
    obtain ⟨new, old, hfold, hold, hnew⟩ := ih out
    obtain ⟨new', old', hfold', hold', hnew'⟩ := ih' (new ++ old)
    have hdrop : dropWeight inner.length (new' ++ old') <:+ new ++ old :=
      (dropWeight_append hnew').trans hold'
    -- The label may reach below its own stretch, into `new` and even into `old`.
    obtain ⟨kept, rest, hkept, hsuffix, hrest⟩ : ∃ kept rest,
        dropWeight inner.length (new' ++ old') = kept ++ rest ∧ kept <:+ new ∧ rest <:+ old :=
      exists_append_of_suffix hdrop
    refine ⟨.label i inner.length name :: kept, rest, ?_, hrest.trans hold, ?_⟩
    · rw [List.foldl_append, List.foldl_append, hfold, hfold']
      simp only [List.foldl_cons, List.foldl_nil, collapse, hkept, List.cons_append]
    · refine coveredBy_cons (hnew.of_suffix hsuffix) ?_ ?_
      · simp only [Expectation.weight, List.length_append, List.length_singleton]
        omega
      · simp only [List.length_append, List.length_singleton]
        omega

/-- A label behind a stretch of its length takes off the stretch, and perhaps some of what stands
below. -/
theorem dropWeight_labelled (h : Labelled rs) (out : List Expectation) :
    dropWeight rs.length (rs.foldl collapse out) <:+ out := by
  obtain ⟨new, old, hfold, hold, hnew⟩ := foldl_collapse_labelled h out
  rw [hfold]
  exact (dropWeight_append hnew).trans hold

/-- Records that are no labels are stacked up. -/
theorem foldl_collapse_plain (h : ∀ r ∈ rs, r.isLabel = false) (out : List Expectation) :
    rs.foldl collapse out = rs.reverse ++ out := by
  induction rs generalizing out with
  | nil => rfl
  | cons r rs ih =>
    rw [List.forall_mem_cons] at h
    rw [List.foldl_cons, collapse_plain h.1, ih h.2, List.reverse_cons, List.append_assoc]
    rfl

theorem dropWeight_plain (h : ∀ r ∈ new, r.isLabel = false) (out : List Expectation) :
    dropWeight new.length (new ++ out) = out := by
  induction new with
  | nil => cases out <;> rfl
  | cons r new ih =>
    rw [List.forall_mem_cons] at h
    rw [List.length_cons, List.cons_append, dropWeight, weight_plain h.1, Nat.add_sub_cancel,
      ih h.2]

/-! ## Any records -/

theorem collapse_sublist (out : List Expectation) (r : Expectation) :
    (collapse out r).Sublist (r :: out) := by
  cases r with
  | label i length name => exact (dropWeight_suffix length out).sublist.cons_cons _
  | unknown i => exact .refl _
  | expected i value => exact .refl _

/-- The latest record stands on top of the stack. -/
theorem head?_collapse (out : List Expectation) (r : Expectation) :
    (collapse out r).head? = some r := by
  cases r <;> rfl

theorem foldl_collapse_sublist (rs out : List Expectation) :
    (rs.foldl collapse out).Sublist (rs.reverse ++ out) := by
  induction rs generalizing out with
  | nil => exact .refl out
  | cons r rs ih =>
    rw [List.foldl_cons, List.reverse_cons, List.append_assoc]
    exact (ih _).trans ((collapse_sublist out r).append_left rs.reverse)

/-- A report leaves out records, and changes nothing else. -/
theorem finish_sublist (s : Sink) : s.finish.Sublist s.records := by
  have h := (foldl_collapse_sublist s.records []).reverse
  rwa [List.append_nil, List.reverse_reverse] at h

/-- The last record is never left out. -/
theorem getLast?_finish (s : Sink) : s.finish.getLast? = s.records.getLast? := by
  rw [finish, collapseAll, List.getLast?_reverse]
  rcases List.eq_nil_or_concat s.records with h | ⟨rs, r, h⟩
  · rw [h]
    rfl
  · rw [h, List.concat_eq_append, List.foldl_append, List.foldl_cons, List.foldl_nil,
      head?_collapse, List.getLast?_concat]

end Sink

end Backtrack
