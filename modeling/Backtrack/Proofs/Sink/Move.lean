import Backtrack.Proofs.Lockstep

/-!
# Moving the records of a sink

A map of positions moves everything in a state that has a position. If the map is strictly
increasing, the sink cannot tell: registering, counting and collapsing commute with moving. So a
part of a run keeps in lockstep with one that does the same at the mapped positions.
-/

namespace Backtrack

variable {α β : Type}

/-- The record for another position. -/
def Expectation.move (φ : Nat → Nat) : Expectation → Expectation
  | unknown i => unknown (φ i)
  | expected i value => expected (φ i) value
  | label i length name => label (φ i) length name

/-- The entry at another position. -/
def Entry.move (φ : Nat → Nat) (e : Entry) : Entry := ⟨φ e.index, e.record.map (·.move φ)⟩

/-- The sink, had its failures been registered at other positions. -/
def Sink.move (φ : Nat → Nat) : Sink → Sink
  | empty => empty
  | reached f rs => reached (φ f) (rs.map (·.move φ))

/-- The state with its sink and its history moved. -/
def State.move (φ : Nat → Nat) (s : State) : State :=
  { s with sink := s.sink.move φ, entries := s.entries.map (·.move φ) }

/-- The second state is the first, moved. -/
def Moved (φ : Nat → Nat) (s t : State) : Prop := t = s.move φ

variable {φ : Nat → Nat}

@[simp] theorem Expectation.index_move (e : Expectation) : (e.move φ).index = φ e.index := by
  cases e <;> rfl

@[simp] theorem Expectation.weight_move (e : Expectation) : (e.move φ).weight = e.weight := by
  cases e <;> rfl

namespace Sink

variable {s t : Sink}

@[simp] theorem farthest_move (s : Sink) : (s.move φ).farthest = s.farthest.map φ := by
  cases s <;> rfl

@[simp] theorem records_move (s : Sink) : (s.move φ).records = s.records.map (·.move φ) := by
  cases s <;> rfl

theorem move_add (hφ : StrictMono φ) (i : Nat) (r : Option Expectation) (s : Sink) :
    (s.add i r).move φ = (s.move φ).add (φ i) (r.map (·.move φ)) := by
  have hrecord : (r.map (·.move φ)).toList = r.toList.map (·.move φ) := by cases r <;> rfl
  cases s with
  | empty => simp only [add, move, hrecord]
  | reached f rs =>
    rcases Nat.lt_trichotomy f i with h | rfl | h
    · simp only [add, move, if_pos h, if_pos (hφ h), hrecord]
    · simp only [add, move, Nat.lt_irrefl, if_false, if_true, List.map_append, hrecord]
    · have hne : φ f ≠ φ i := Nat.ne_of_gt (hφ h)
      simp only [add, move, if_neg (Nat.lt_asymm h), if_neg (Nat.lt_asymm (hφ h)),
        if_neg (Nat.ne_of_gt h), if_neg hne]

theorem countSince_move (hφ : StrictMono φ) (s t : Sink) :
    (t.move φ).countSince (s.move φ).checkpoint = t.countSince s.checkpoint := by
  have hsame : (s.move φ).checkpoint.farthest = (t.move φ).farthest ↔
      s.checkpoint.farthest = t.farthest := by
    rw [checkpoint, farthest_move, farthest_move]
    exact (Option.map_injective hφ.injective).eq_iff
  rw [countSince, countSince, records_move, List.length_map]
  by_cases h : s.checkpoint.farthest = t.farthest
  · rw [if_pos h, if_pos (hsame.mpr h), checkpoint, checkpoint, records_move, List.length_map]
  · rw [if_neg h, if_neg (hsame.not.mpr h)]

/-! ## Reports -/

theorem dropWeight_move (n : Nat) (out : List Expectation) :
    dropWeight n (out.map (·.move φ)) = (dropWeight n out).map (·.move φ) := by
  induction out generalizing n with
  | nil => cases n <;> rfl
  | cons r out ih =>
    cases n with
    | zero => rfl
    | succ n => rw [List.map_cons, dropWeight, dropWeight, Expectation.weight_move, ih]

theorem collapse_move (out : List Expectation) (r : Expectation) :
    collapse (out.map (·.move φ)) (r.move φ) = (collapse out r).map (·.move φ) := by
  cases r with
  | label i length name =>
    change .label (φ i) length name :: dropWeight length (out.map (·.move φ)) = _
    rw [dropWeight_move]
    rfl
  | _ => rfl

theorem foldl_collapse_move (rs out : List Expectation) :
    (rs.map (·.move φ)).foldl collapse (out.map (·.move φ)) =
      (rs.foldl collapse out).map (·.move φ) := by
  induction rs generalizing out with
  | nil => rfl
  | cons r rs ih => rw [List.map_cons, List.foldl_cons, List.foldl_cons, collapse_move, ih]

/-- A report is moved along with the sink. -/
theorem finish_move (s : Sink) : (s.move φ).finish = s.finish.map (·.move φ) := by
  have hfold := foldl_collapse_move (φ := φ) s.records []
  rw [List.map_nil] at hfold
  rw [finish, finish, records_move, collapseAll, collapseAll, hfold, List.map_reverse]

end Sink

/-! ## Parts of a run -/

namespace Act.Lockstep

variable {Q : α → β → Prop} {a : Act α} {b : Act β}

theorem register (hφ : StrictMono φ) (i : Nat) (r : Option Expectation) :
    Lockstep (Moved φ) (fun _ _ => True) (Act.register i r)
      (Act.register (φ i) (r.map (·.move φ))) := by
  rintro s t rfl
  refine .some ⟨trivial, ?_⟩
  simp only [Moved, State.move, Sink.move_add hφ, List.map_cons, Entry.move]

theorem failWith (hφ : StrictMono φ) (e : Expectation) (pos : Nat) :
    Lockstep (Moved φ) (fun r r' => r' = r.move φ) (Act.failWith e pos : Act (Outcome α))
      (Act.failWith (e.move φ) (φ pos)) := by
  rw [Act.failWith, Act.failWith, Expectation.index_move]
  exact (register hφ _ (some e)).bind fun _ _ _ => pure rfl

theorem mismatch (hφ : StrictMono φ) (pos : Nat) :
    Lockstep (Moved φ) (fun r r' => r' = r.move φ) (Act.mismatch pos : Act (Outcome α))
      (Act.mismatch (φ pos)) :=
  failWith hφ (.unknown pos) pos

theorem atLeast (hφ : StrictMono φ) (min count pos : Nat) (x : α) :
    Lockstep (Moved φ) (fun r r' => r' = r.move φ) (Backtrack.atLeast min count pos x)
      (Backtrack.atLeast min count (φ pos) x) := by
  rw [Backtrack.atLeast, Backtrack.atLeast]
  split
  · exact (register hφ pos none).bind fun _ _ _ => pure rfl
  · exact pure rfl

theorem currentSink :
    Lockstep (Moved φ) (fun s s' => s' = s.move φ) Act.currentSink Act.currentSink := by
  rintro s t rfl
  exact .some ⟨rfl, rfl⟩

theorem build (id : Nat) :
    Lockstep (Moved φ) (fun _ _ => True) (Act.build id) (Act.build id) := by
  rintro s t rfl
  exact .some ⟨trivial, rfl⟩

/-- A part with a sink of its own leaves nothing in the sink outside. -/
theorem isolated (h : Lockstep (Moved φ) Q a b) :
    Lockstep (Moved φ) Q (Act.isolated a) (Act.isolated b) := by
  rintro s t rfl
  have hrel := h { s with sink := .empty, entries := [] } _ rfl
  have happly : ∀ {γ : Type} (c : Act γ) (s : State), Act.isolated c s =
      (c { s with sink := .empty, entries := [] }).bind
        fun r => some (r.1, { s with built := r.2.built }) := fun _ _ => rfl
  rw [happly, happly]
  change Option.Rel _ _ (Option.bind (b (State.move φ { s with sink := .empty, entries := [] })) _)
  generalize a _ = x, b _ = y at hrel
  cases hrel with
  | none => exact .none
  | some h =>
    obtain ⟨hq, hu⟩ := h
    refine .some ⟨hq, ?_⟩
    rw [Moved] at hu ⊢
    simp only [hu, State.move]

end Act.Lockstep

end Backtrack
