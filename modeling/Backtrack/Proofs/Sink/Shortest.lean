import Backtrack.Proofs.Sink.Width

/-!
# What a label takes off a report

The records that a label passes are as few as weigh its length `n` (`Sink.Stops`). The invariant of
the loop is that before its last step it had passed too little (`Sink.stops_passed`). So of all ends
of the report that weigh `n` the label takes off the shortest, whatever labels were collapsed
before, and also where records of no weight stand among the others (`Sink.finish_removes_shortest`).

All of this holds with sums of 64 bits as well, except that the program may stop where a label of
nearly `2 ^ 64` comes first in the report.
-/

namespace Backtrack

namespace Sink

variable {n k : Nat} {out front : List Expectation}

/-- The first `k` records are as few as weigh `n`, or they are all there are. -/
structure Stops (n : Nat) (out : List Expectation) (k : Nat) : Prop where
  le_length : k ≤ out.length
  short : ∀ j < k, totalWeight (out.take j) < n
  enough : k < out.length → n ≤ totalWeight (out.take k)

/-- The loop stops where it should, if it did not have to stop within `front`, which it has passed.
The induction is on what is still ahead. -/
theorem stops_passed (hfront : ∀ j < front.length, totalWeight (front.take j) < n)
    (out : List Expectation) :
    Stops n (front ++ out) (passed n (totalWeight front) front.length out) := by
  induction out generalizing front with
  | nil =>
    rw [List.append_nil]
    exact ⟨Nat.le_refl _, hfront, fun h => absurd h (Nat.lt_irrefl _)⟩
  | cons r out ih =>
    rw [passed]
    split
    · next hstop =>
      refine ⟨by simp, fun j hj => ?_, fun _ => ?_⟩
      · rw [List.take_append_of_le_length (Nat.le_of_lt hj)]
        exact hfront j hj
      · rwa [List.take_left]
    · next hgo =>
      have hnext : ∀ j < (front ++ [r]).length, totalWeight ((front ++ [r]).take j) < n := by
        intro j hj
        have hle : j ≤ front.length := by simpa [Nat.lt_succ_iff] using hj
        rw [List.take_append_of_le_length hle]
        rcases Nat.lt_or_eq_of_le hle with hlt | rfl
        · exact hfront j hlt
        · rw [List.take_length]
          exact Nat.lt_of_not_le hgo
      have hrest := ih hnext
      rwa [totalWeight_append, totalWeight_cons, totalWeight_nil, Nat.add_zero, List.length_append,
        List.length_singleton, List.append_assoc, List.singleton_append] at hrest

theorem passed_none (out : List Expectation) : passed 0 0 0 out = 0 := by
  cases out <;> rfl

theorem stops_passed_zero (n : Nat) (out : List Expectation) : Stops n out (passed n 0 0 out) := by
  have hnone : ∀ j < ([] : List Expectation).length, totalWeight ([].take j) < n :=
    fun j hj => absurd hj (Nat.not_lt_zero j)
  exact stops_passed hnone out

/-- The shortest end of a report that weighs `n` or more, or all of a report that weighs less. -/
structure ShortestEnd (n : Nat) (report removed : List Expectation) : Prop where
  suffix : removed <:+ report
  sufficient : n ≤ totalWeight report → n ≤ totalWeight removed
  shortest : ∀ other, other <:+ report → n ≤ totalWeight other → removed.length ≤ other.length
  all : totalWeight report < n → removed = report

theorem Stops.totalWeight_lt (h : Stops n out k) (hfront : front <+: out)
    (hlt : front.length < k) : totalWeight front < n := by
  have hshort := h.short _ hlt
  rwa [← List.prefix_iff_eq_take.mp hfront] at hshort

/-- The end of a report that is as long as it takes, counted on the stack. -/
theorem Stops.shortestEnd {report : List Expectation} (h : Stops n report.reverse k) :
    ShortestEnd n report (report.drop (report.length - k)) := by
  have hle : k ≤ report.length := by simpa using h.le_length
  have hreverse : (report.drop (report.length - k)).reverse = report.reverse.take k := by
    rw [List.reverse_drop, Nat.sub_sub_self hle]
  have hweight : totalWeight (report.drop (report.length - k)) =
      totalWeight (report.reverse.take k) := by
    rw [← totalWeight_reverse, hreverse]
  have hall : k = report.length → report.drop (report.length - k) = report := by
    rintro rfl
    rw [Nat.sub_self, List.drop_zero]
  refine ⟨List.drop_suffix _ _, fun hn => ?_, fun other hother hn => ?_, fun hn => ?_⟩
  · rcases Nat.lt_or_eq_of_le hle with hlt | heq
    · rw [hweight]
      exact h.enough (by simpa using hlt)
    · rwa [hall heq]
  · rw [List.length_drop, Nat.sub_sub_self hle]
    refine Nat.le_of_not_lt fun hlt => ?_
    have hother' := h.totalWeight_lt (List.reverse_prefix.mpr hother) (by simpa using hlt)
    rw [totalWeight_reverse] at hother'
    omega
  · refine hall (Nat.le_antisymm hle (Nat.le_of_not_lt fun hlt => ?_))
    -- A part of the report cannot weigh more than all of it.
    have henough := h.enough (by simpa using hlt)
    have hsplit : totalWeight (report.reverse.take k) + totalWeight (report.reverse.drop k) =
        totalWeight report := by
      rw [← totalWeight_append, List.take_append_drop, totalWeight_reverse]
    omega

/-- A report grows by one record: at its end, if that is no label; and behind what a label leaves of
the report, if it is one. -/
theorem finish_append (f : Nat) (rs : List Expectation) (r : Expectation) :
    (reached f (rs ++ [r])).finish = (collapse (reached f rs).finish.reverse r).reverse := by
  simp [finish, collapseAll, records]

/-- What a label refuses to add up, read off the report in its order. -/
theorem refused_iff {mode : Overflow} {f : Nat} {rs : List Expectation} {r : Expectation} :
    Refused mode (rs.foldl collapse []) r ↔ mode = .stops ∧ ∃ i n name, r = .label i n name ∧
      totalWeight (reached f rs).finish.tail < n ∧
        UInt64.size ≤ totalWeight (reached f rs).finish := by
  have htail : totalWeight (reached f rs).finish.tail =
      totalWeight (rs.foldl collapse []).dropLast := by
    rw [finish, collapseAll, List.tail_reverse, totalWeight_reverse]
    rfl
  have hall : totalWeight (reached f rs).finish = totalWeight (rs.foldl collapse []) :=
    totalWeight_reverse _
  simp only [Refused, Overflows, Nat.zero_add, htail, hall]
  constructor
  · rintro ⟨i, n, name, hr, hmode, hweight⟩
    exact ⟨hmode, i, n, name, hr, hweight⟩
  · rintro ⟨hmode, i, n, name, hr, hweight⟩
    exact ⟨i, n, name, hr, hmode, hweight⟩

end Sink

end Backtrack
