import Backtrack.Proofs.Sink.Collapse

/-!
# What a label adds up

A label of length `n` goes back over the report from its end. Before each record it stops if those
that it has passed weigh `n` by now, and it takes off what it has passed. `Sink.passed` counts them
in that way, and `Sink.dropWeight` drops as many (`Sink.dropWeight_eq_drop`).

The weights that are added up on the way stay small: the report never weighs more than its longest
label and one for each record (`Sink.totalWeight_finish_le`), and all but its first record never
weigh more than one for each record, however long the labels are
(`Sink.totalWeight_dropLast_foldl_le`). So a sum that does not fit into 64 bits is that of the whole
report, after which the label stops anyway. Where sums are taken modulo `2 ^ 64` the report is the
same, and where they stop the program it is the same or there is none (`Sink.finishIn_eq`).
-/

namespace Backtrack

namespace Sink

variable {mode : Overflow} {n weight : Nat} {out rs : List Expectation}

@[simp] theorem totalWeight_reverse (rs : List Expectation) :
    totalWeight rs.reverse = totalWeight rs := by
  induction rs with
  | nil => rfl
  | cons r rs ih => simp [ih, Nat.add_comm]

/-- How many records a label of length `n` passes, the latest of which stands first. It has passed
`count` already, which weigh `weight`. -/
def passed (n : Nat) : Nat → Nat → List Expectation → Nat
  | _, count, [] => count
  | weight, count, r :: out =>
    if n ≤ weight then count else passed n (weight + r.weight) (count + 1) out

/-- What is left of a label's length after a weight of `weight` is used up as the label goes on. -/
theorem exists_passed_eq (n weight count : Nat) (out : List Expectation) :
    ∃ k, passed n weight count out = count + k ∧ dropWeight (n - weight) out = out.drop k := by
  induction out generalizing weight count with
  | nil => exact ⟨0, rfl, by cases n - weight <;> rfl⟩
  | cons r out ih =>
    rw [passed]
    by_cases hstop : n ≤ weight
    · refine ⟨0, if_pos hstop, ?_⟩
      rw [Nat.sub_eq_zero_of_le hstop]
      rfl
    · obtain ⟨k, hk, hdrop⟩ := ih (weight + r.weight) (count + 1)
      refine ⟨k + 1, by rw [if_neg hstop, hk]; omega, ?_⟩
      obtain ⟨m, hm⟩ : ∃ m, n - weight = m + 1 := ⟨n - weight - 1, by omega⟩
      rw [hm, dropWeight, List.drop_succ_cons, ← hdrop, ← hm, Nat.sub_sub]

/-- The records taken off are those that are passed. -/
theorem dropWeight_eq_drop (n : Nat) (out : List Expectation) :
    dropWeight n out = out.drop (passed n 0 0 out) := by
  obtain ⟨k, hk, hdrop⟩ := exists_passed_eq n 0 0 out
  rw [hk, Nat.zero_add]
  exact hdrop

/-! ## The weight of a report -/

theorem totalWeight_dropWeight_le (n : Nat) (out : List Expectation) :
    totalWeight (dropWeight n out) ≤ totalWeight out - n := by
  fun_induction dropWeight n out with
  | case1 => exact Nat.zero_le _
  | case2 => exact Nat.le_refl _
  | case3 n r out ih =>
    rw [totalWeight_cons]
    omega

/-- A label weighs less than what it takes off, or no more than it is long. -/
theorem totalWeight_collapse_le {m : Nat} {r : Expectation}
    (hr : ∀ i length name, r = .label i length name → length ≤ m) (out : List Expectation) :
    totalWeight (collapse out r) ≤ max (totalWeight out) m + 1 := by
  cases hlabel : r.isLabel with
  | false =>
    rw [collapse_plain hlabel, totalWeight_cons, weight_plain hlabel]
    omega
  | true =>
    cases r with
    | unknown | expected => cases hlabel
    | label i length name =>
      have hm := hr i length name rfl
      have hdrop := totalWeight_dropWeight_le length out
      simp only [collapse, totalWeight_cons, Expectation.weight]
      omega

theorem totalWeight_foldl_collapse_le {m : Nat} {rs : List Expectation}
    (hrs : ∀ i length name, .label i length name ∈ rs → length ≤ m) (out : List Expectation) :
    totalWeight (rs.foldl collapse out) ≤ max (totalWeight out) m + rs.length := by
  induction rs generalizing out with
  | nil => exact Nat.le_max_left _ _
  | cons r rs ih =>
    have hstep := totalWeight_collapse_le (m := m) (r := r)
      (fun i length name h => hrs i length name (h ▸ List.mem_cons_self)) out
    have hrest := ih (fun i length name h => hrs i length name (List.mem_cons_of_mem r h))
      (collapse out r)
    rw [List.foldl_cons, List.length_cons]
    omega

/-- A report weighs no more than its longest label is long, and one for each record. -/
theorem totalWeight_finish_le {s : Sink} {m : Nat}
    (hs : ∀ i length name, .label i length name ∈ s.records → length ≤ m) :
    totalWeight s.finish ≤ m + s.records.length := by
  have hfold := totalWeight_foldl_collapse_le hs []
  rwa [totalWeight_nil, Nat.zero_max, ← totalWeight_reverse] at hfold

/-- If a label of length `n` does not take off all of a report, what it takes off is heavy
enough. -/
theorem totalWeight_dropLast_dropWeight (hne : dropWeight n out ≠ []) :
    n + totalWeight (dropWeight n out).dropLast ≤ totalWeight out.dropLast := by
  fun_induction dropWeight n out with
  | case1 => exact absurd rfl hne
  | case2 => exact Nat.le_of_eq (Nat.zero_add _)
  | case3 n r out ih =>
    have hout : out ≠ [] := by
      rintro rfl
      exact hne (List.suffix_nil.mp (dropWeight_suffix _ _))
    have hrest := ih hne
    rw [List.dropLast_cons_of_ne_nil hout, totalWeight_cons]
    omega

/-- One record more is at most one more to pass before the first. A label that keeps a record takes
off more than it weighs itself. -/
theorem totalWeight_dropLast_collapse_le (out : List Expectation) (r : Expectation) :
    totalWeight (collapse out r).dropLast ≤ totalWeight out.dropLast + 1 := by
  cases hlabel : r.isLabel with
  | false =>
    rw [collapse_plain hlabel]
    by_cases hne : out = []
    · rw [hne]
      exact Nat.zero_le _
    · rw [List.dropLast_cons_of_ne_nil hne, totalWeight_cons, weight_plain hlabel]
      omega
  | true =>
    cases r with
    | unknown | expected => cases hlabel
    | label i length name =>
      rw [collapse]
      by_cases hne : dropWeight length out = []
      · rw [hne]
        exact Nat.zero_le _
      · have hdrop := totalWeight_dropLast_dropWeight hne
        rw [List.dropLast_cons_of_ne_nil hne, totalWeight_cons, Expectation.weight]
        omega

theorem totalWeight_dropLast_foldl_le (rs out : List Expectation) :
    totalWeight (rs.foldl collapse out).dropLast ≤ totalWeight out.dropLast + rs.length := by
  induction rs generalizing out with
  | nil => exact Nat.le_refl _
  | cons r rs ih =>
    have hstep := totalWeight_dropLast_collapse_le out r
    have hrest := ih (collapse out r)
    rw [List.foldl_cons, List.length_cons]
    omega

/-! ## Sums of 64 bits -/

/-- A label of length `n` has to pass the whole report, of which the latest entry stands first, and
the report weighs more than fits. -/
def Overflows (mode : Overflow) (n weight : Nat) (out : List Expectation) : Prop :=
  mode = .stops ∧ weight + totalWeight out.dropLast < n ∧ UInt64.size ≤ weight + totalWeight out

instance : Decidable (Overflows mode n weight out) := inferInstanceAs (Decidable (_ ∧ _))

theorem not_overflows_of_le (h : n ≤ weight) : ¬Overflows mode n weight out := fun hover => by
  have := hover.2.1
  omega

theorem overflows_cons (r r' : Expectation) :
    Overflows mode n weight (r :: r' :: out) ↔
      Overflows mode n (weight + r.weight) (r' :: out) := by
  simp only [Overflows, List.dropLast_cons_cons, totalWeight_cons, Nat.add_assoc]

/-- The last record to pass, where the sum may be one that does not fit. -/
theorem passedIn_singleton {r : Expectation} (hgo : ¬n ≤ weight) (count : Nat) :
    passedIn mode n weight count [r] =
      if Overflows mode n weight [r] then none else some (count + 1) := by
  rw [passedIn, if_neg hgo]
  have hlt : weight < n := Nat.lt_of_not_le hgo
  cases mode with
  | wraps => rw [if_neg fun h => Overflow.noConfusion h.1]; rfl
  | stops =>
    by_cases hfits : weight + r.weight < UInt64.size
    · rw [Overflow.add_of_lt hfits, if_neg fun h => absurd h.2.2 (Nat.not_le.mpr hfits)]
      rfl
    · rw [if_pos ⟨rfl, hlt, Nat.le_of_not_lt hfits⟩, Overflow.add, if_neg hfits]
      rfl

/-- The first record of a report may be as heavy as a length can be. All others are light, so only
the last sum may be one that does not fit, and no length is compared with that sum any more. -/
theorem passedIn_eq (count : Nat) (hlight : weight + totalWeight out.dropLast < UInt64.size) :
    passedIn mode n weight count out =
      if Overflows mode n weight out then none else some (passed n weight count out) := by
  fun_induction passed n weight count out with
  | case1 weight count => exact (if_neg fun h => absurd hlight (Nat.not_lt.mpr h.2.2)).symm
  | case2 weight count r out hstop =>
    rw [passedIn, if_pos hstop, if_neg (not_overflows_of_le hstop)]
  | case3 weight count r out hgo ih =>
    cases out with
    | nil => exact passedIn_singleton hgo count
    | cons r' out =>
      rw [List.dropLast_cons_cons, totalWeight_cons, ← Nat.add_assoc] at hlight
      rw [passedIn, if_neg hgo, Overflow.add_of_lt (by omega), Option.bind_some, ih hlight]
      simp only [overflows_cons]

/-- The record is a label that stops the program. -/
def Refused (mode : Overflow) (out : List Expectation) (r : Expectation) : Prop :=
  ∃ i n name, r = .label i n name ∧ Overflows mode n 0 out

theorem Refused.le_totalWeight {r : Expectation} (h : Refused mode out r) :
    mode = .stops ∧ UInt64.size ≤ totalWeight out := by
  obtain ⟨i, n, name, -, hmode, -, hweight⟩ := h
  rw [Nat.zero_add] at hweight
  exact ⟨hmode, hweight⟩

/-- A record is added to the report as it would be without a bound, or the program stops. -/
theorem collapseIn_cases (mode : Overflow) (hlight : totalWeight out.dropLast < UInt64.size)
    (r : Expectation) :
    (Refused mode out r ∧ collapseIn mode out r = none) ∨
      (¬Refused mode out r ∧ collapseIn mode out r = some (collapse out r)) := by
  cases hlabel : r.isLabel with
  | false =>
    refine .inr ⟨?_, ?_⟩
    · rintro ⟨i, n, name, rfl, -⟩
      cases hlabel
    · cases r with
      | label => cases hlabel
      | unknown | expected => rfl
  | true =>
    cases r with
    | unknown | expected => cases hlabel
    | label i n name =>
      rw [← Nat.zero_add (totalWeight _)] at hlight
      have hpassed : passedIn mode n 0 0 out = _ := passedIn_eq 0 hlight
      rw [collapseIn, collapse, dropWeight_eq_drop, hpassed]
      by_cases hover : Overflows mode n 0 out
      · exact .inl ⟨⟨i, n, name, rfl, hover⟩, by rw [if_pos hover]; rfl⟩
      · refine .inr ⟨?_, by rw [if_neg hover]; rfl⟩
        rintro ⟨_, _, _, hr, hover'⟩
        cases hr
        exact hover hover'

/-- All but the first record of a report weigh no more than one for each record that was added, so
the report on further records is the one without a bound, or there is none. -/
theorem foldlM_collapseIn (mode : Overflow)
    (hlight : totalWeight out.dropLast + rs.length < UInt64.size) :
    (rs.foldlM (collapseIn mode) out = none ∧ mode = .stops ∧
      ∃ front, front <+: rs ∧ UInt64.size ≤ totalWeight (front.foldl collapse out)) ∨
    rs.foldlM (collapseIn mode) out = some (rs.foldl collapse out) := by
  induction rs generalizing out with
  | nil => exact .inr rfl
  | cons r rs ih =>
    rw [List.length_cons] at hlight
    have hstep := totalWeight_dropLast_collapse_le out r
    have hbefore : totalWeight out.dropLast < UInt64.size := by omega
    have hafter : totalWeight (collapse out r).dropLast + rs.length < UInt64.size := by omega
    rw [List.foldlM_cons, List.foldl_cons]
    rcases collapseIn_cases mode hbefore r with ⟨hr, hnone⟩ | ⟨-, hsome⟩
    · rw [hnone]
      exact .inl ⟨rfl, hr.le_totalWeight.1, [], List.nil_prefix, hr.le_totalWeight.2⟩
    · rw [hsome]
      rcases ih hafter with ⟨hnone, hmode, front, hfront, hweight⟩ | h
      · exact .inl ⟨hnone, hmode, r :: front, List.prefix_cons_inj r |>.mpr hfront, hweight⟩
      · exact .inr h

section

variable {s : Sink}

/-- With sums of 64 bits the report is the same, or there is none. -/
theorem finishIn_cases (mode : Overflow) (hs : s.records.length < UInt64.size) :
    (s.finishIn mode = none ∧ mode = .stops ∧
      ∃ front, front <+: s.records ∧ UInt64.size ≤ totalWeight (front.foldl collapse [])) ∨
    s.finishIn mode = some s.finish := by
  have hlight : totalWeight [].dropLast + s.records.length < UInt64.size := by simpa using hs
  rcases foldlM_collapseIn mode hlight with ⟨hnone, hfront⟩ | h
  · exact .inl ⟨by rw [finishIn, hnone]; rfl, hfront⟩
  · exact .inr (by rw [finishIn, h]; rfl)

/-- Where sums are taken modulo `2 ^ 64` the report is the one without a bound. -/
theorem finishIn_wraps (hs : s.records.length < UInt64.size) :
    s.finishIn .wraps = some s.finish := by
  rcases finishIn_cases .wraps hs with ⟨-, hmode, -⟩ | h
  · cases hmode
  · exact h

theorem eq_of_finishIn {es : List Expectation} (hs : s.records.length < UInt64.size)
    (hes : s.finishIn mode = some es) : es = s.finish := by
  rcases finishIn_cases mode hs with ⟨hnone, -⟩ | hsome
  · rw [hnone] at hes
    cases hes
  · exact Option.some.inj (hes.symm.trans hsome)

/-- No sum is too large unless a label is nearly as long as a length can be. -/
theorem finishIn_of_lengths {m : Nat} (mode : Overflow)
    (hm : ∀ i length name, .label i length name ∈ s.records → length ≤ m)
    (hs : m + s.records.length < UInt64.size) : s.finishIn mode = some s.finish := by
  rcases finishIn_cases mode (s := s) (by omega) with ⟨-, -, front, hfront, hweight⟩ | h
  · have hle := totalWeight_foldl_collapse_le
      (fun i length name h => hm i length name (hfront.subset h)) []
    have hlength := hfront.length_le
    rw [totalWeight_nil, Nat.zero_max] at hle
    omega
  · exact h

end

/-- The program stops at a label that has to pass all of the report before it, if that weighs more
than fits. -/
theorem finishIn_append_eq_none (f : Nat) (r : Expectation) (hrs : rs.length < UInt64.size) :
    (reached f (rs ++ [r])).finishIn mode = none ↔
      (reached f rs).finishIn mode = none ∨ Refused mode (rs.foldl collapse []) r := by
  have happend : (reached f (rs ++ [r])).finishIn mode =
      ((rs.foldlM (collapseIn mode) []).bind fun out => collapseIn mode out r).map
        List.reverse := by
    rw [finishIn, records, List.foldlM_append]
    simp
  have hlight := totalWeight_dropLast_foldl_le rs []
  rw [List.dropLast_nil, totalWeight_nil, Nat.zero_add] at hlight
  rw [happend, finishIn, records]
  have hempty : totalWeight [].dropLast + rs.length < UInt64.size := by simpa using hrs
  rcases foldlM_collapseIn mode hempty with ⟨h, -⟩ | h
  · simp [h]
  · rw [h, Option.bind_some]
    rcases collapseIn_cases mode (Nat.lt_of_le_of_lt hlight hrs) r with ⟨hr, hnone⟩ | ⟨hr, hsome⟩
    · simp [hr, hnone]
    · simp [hr, hsome]

end Sink

end Backtrack
