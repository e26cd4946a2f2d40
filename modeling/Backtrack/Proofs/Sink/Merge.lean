import Backtrack.Sink

/-!
# The algebra of sinks

Two sinks merge into the one that came farther, or into both lists of records where they came
equally far. Sinks are a monoid under `Sink.merge`, and registering an entry is merging with the
sink of that entry alone (`add_eq_merge`). So what a history of entries does to a sink is merging
with the sink of the history (`merge_ofEntries_cons`).

`Sink.Reaches i` says that a failure was registered at `i` or beyond. `Sink.recordsAt i` are the
records at `i`, if that is the farthest position.
-/

namespace Backtrack

namespace Sink

variable {s t u : Sink} {i f : Nat} {r : Option Expectation}

@[simp] theorem empty_merge (s : Sink) : empty.merge s = s := rfl

@[simp] theorem merge_empty (s : Sink) : s.merge empty = s := by cases s <;> rfl

theorem merge_assoc (s t u : Sink) : (s.merge t).merge u = s.merge (t.merge u) := by
  cases s with
  | empty => rfl
  | reached f rs =>
    cases t with
    | empty => rfl
    | reached g ts =>
      cases u with
      | empty => simp
      | reached h us =>
        rcases Nat.lt_trichotomy f g with hfg | hfg | hfg <;>
          rcases Nat.lt_trichotomy g h with hgh | hgh | hgh <;>
          grind [merge]

/-- Registering an entry is merging with the sink of that entry. -/
theorem add_eq_merge (i : Nat) (r : Option Expectation) (s : Sink) :
    s.add i r = s.merge (reached i r.toList) := by
  cases s with
  | empty => rfl
  | reached f rs =>
    simp only [add, merge]
    rcases Nat.lt_trichotomy f i with h | rfl | h
    · simp [h]
    · simp
    · simp [h, Nat.lt_asymm h, Nat.ne_of_gt h]

theorem merge_add (s t : Sink) (i : Nat) (r : Option Expectation) :
    (s.merge t).add i r = s.merge (t.add i r) := by
  rw [add_eq_merge, add_eq_merge, merge_assoc]

@[simp] theorem farthest_merge (s t : Sink) :
    (s.merge t).farthest = max s.farthest t.farthest := by
  cases s with
  | empty => simp [farthest]
  | reached f rs =>
    cases t with
    | empty => simp [farthest]
    | reached g ts =>
      simp only [merge]
      split
      · simp [farthest]; omega
      · split
        · simp [farthest]; omega
        · simp [farthest]; omega

/-! ## Histories -/

/-- The sink of a history of entries, the latest of which stands first. -/
def ofEntries (es : List Entry) : Sink := es.foldr (fun e s => s.add e.index e.record) empty

@[simp] theorem ofEntries_nil : ofEntries [] = empty := rfl

/-- What a history does to a sink is merging with the sink of the history. -/
theorem merge_ofEntries_cons (s : Sink) (e : Entry) (es : List Entry) :
    s.merge (ofEntries (e :: es)) = (s.merge (ofEntries es)).add e.index e.record :=
  (merge_add _ _ _ _).symm

theorem ofEntries_append (es es' : List Entry) :
    ofEntries (es ++ es') = (ofEntries es').merge (ofEntries es) := by
  induction es with
  | nil => simp
  | cons e es ih => rw [merge_ofEntries_cons, ← ih]; rfl

theorem records_add_subset {e : Expectation} (h : e ∈ (s.add i r).records) :
    r = some e ∨ e ∈ s.records := by
  cases s with
  | empty => exact .inl (by simpa [add, records] using h)
  | reached f rs =>
    rw [add] at h
    split at h
    · exact .inl (by simpa [records] using h)
    · split at h
      · simpa [records, or_comm] using h
      · exact .inr h

/-- The farthest position of a history is that of an entry. -/
theorem exists_mem_of_farthest {es : List Entry} (h : (ofEntries es).farthest = some f) :
    ∃ e ∈ es, e.index = f := by
  induction es with
  | nil => cases h
  | cons e es ih =>
    rw [show ofEntries (e :: es) = (ofEntries es).add e.index e.record from rfl,
      add_eq_merge, farthest_merge] at h
    cases hes : (ofEntries es).farthest with
    | none =>
      rw [hes] at h
      exact ⟨e, List.mem_cons_self, Option.some.inj h⟩
    | some g =>
      rw [hes] at h
      have hmax : max g e.index = f := Option.some.inj h
      rcases Nat.le_total g e.index with hle | hle
      · exact ⟨e, List.mem_cons_self, by rw [← hmax, Nat.max_eq_right hle]⟩
      · rw [Nat.max_eq_left hle] at hmax
        obtain ⟨e', he', rfl⟩ := ih (hmax ▸ hes)
        exact ⟨e', List.mem_cons_of_mem e he', rfl⟩

/-- Every record of a history is that of an entry. -/
theorem exists_mem_of_mem_records {es : List Entry} {e : Expectation}
    (h : e ∈ (ofEntries es).records) : ∃ e' ∈ es, e'.record = some e := by
  induction es with
  | nil => cases h
  | cons e' es ih =>
    rcases records_add_subset h with he | he
    · exact ⟨e', List.mem_cons_self, he⟩
    · obtain ⟨e'', hmem, hrec⟩ := ih he
      exact ⟨e'', List.mem_cons_of_mem e' hmem, hrec⟩

/-! ## How far a sink has come -/

/-- A failure was registered at `i` or beyond. -/
def Reaches (i : Nat) (s : Sink) : Prop := ∃ f, s.farthest = some f ∧ i ≤ f

theorem Reaches.mono (h : s.Reaches f) (hi : i ≤ f) : s.Reaches i := by
  obtain ⟨g, hg, hf⟩ := h
  exact ⟨g, hg, Nat.le_trans hi hf⟩

theorem Reaches.merge (h : s.Reaches i) (t : Sink) : (s.merge t).Reaches i := by
  obtain ⟨f, hf, hi⟩ := h
  rw [Reaches, farthest_merge, hf]
  cases t.farthest with
  | none => exact ⟨f, rfl, hi⟩
  | some g => exact ⟨max f g, rfl, by omega⟩

/-- A bare failure that does not lie beyond the farthest position changes nothing. -/
theorem merge_reached_nil (h : s.Reaches i) : s.merge (reached i []) = s := by
  obtain ⟨f, hf, hle⟩ := h
  cases s with
  | empty => cases hf
  | reached g rs =>
    cases hf
    rcases Nat.lt_or_eq_of_le hle with h | rfl
    · simp [merge, h, Nat.lt_asymm h]
    · simp [merge]

/-- A failure without a record that does not lie beyond the farthest position is not noticed. -/
theorem add_none (h : s.Reaches i) : s.add i none = s := by
  rw [add_eq_merge]
  exact merge_reached_nil h

theorem reaches_add (s : Sink) (i : Nat) (r : Option Expectation) : (s.add i r).Reaches i := by
  rw [add_eq_merge, Reaches, farthest_merge]
  cases s.farthest with
  | none => exact ⟨i, rfl, Nat.le_refl i⟩
  | some f => exact ⟨max f i, rfl, by omega⟩

/-- Nothing was registered that counts before `i`. -/
def NotBefore (i : Nat) (s : Sink) : Prop := ∀ f, s.farthest = some f → i ≤ f

theorem notBefore_ofEntries {es : List Entry} (h : ∀ e ∈ es, i ≤ e.index) :
    (ofEntries es).NotBefore i := by
  intro f hf
  obtain ⟨e, he, rfl⟩ := exists_mem_of_farthest hf
  exact h e he

/-! ## The records at a position -/

/-- The records at `i`, none if that is not the farthest position. -/
def recordsAt (i : Nat) (s : Sink) : List Expectation :=
  if s.farthest = some i then s.records else []

@[simp] theorem recordsAt_empty (i : Nat) : empty.recordsAt i = [] := by
  simp [recordsAt, records]

@[simp] theorem recordsAt_reached (i f : Nat) (rs : List Expectation) :
    (reached f rs).recordsAt i = if f = i then rs else [] := by
  simp [recordsAt, farthest, records]

theorem recordsAt_of_farthest (h : s.farthest = some i) : s.recordsAt i = s.records := if_pos h

/-! ## Many sinks -/

/-- No failure was registered beyond `i`. -/
def Within (i : Nat) (s : Sink) : Prop := ∀ f, s.farthest = some f → f ≤ i

theorem within_of_farthest (h : s.farthest = some i) : s.Within i := fun f hf => by
  rw [h] at hf
  exact Nat.le_of_eq (Option.some.inj hf).symm

theorem within_merge_iff : (s.merge t).Within i ↔ s.Within i ∧ t.Within i := by
  simp only [Within, farthest_merge]
  cases s.farthest with
  | none => simp
  | some f =>
    cases t.farthest with
    | none => simp
    | some g =>
      simp only [Option.max_some_some, Option.some.injEq, forall_eq']
      exact Nat.max_le

/-- The records at a position that neither side comes beyond are those of both sides. -/
theorem recordsAt_merge (hs : s.Within i) (ht : t.Within i) :
    (s.merge t).recordsAt i = s.recordsAt i ++ t.recordsAt i := by
  cases s with
  | empty => simp
  | reached f rs =>
    cases t with
    | empty => simp
    | reached g ts =>
      have hf : f ≤ i := hs f rfl
      have hg : g ≤ i := ht g rfl
      simp only [merge, recordsAt_reached]
      rcases Nat.lt_trichotomy f g with h | h | h <;> grind [recordsAt_reached]

/-- The sinks of a list, one after another. -/
def mergeAll (us : List Sink) : Sink := us.foldr merge empty

@[simp] theorem mergeAll_nil : mergeAll [] = empty := rfl

@[simp] theorem mergeAll_cons (u : Sink) (us : List Sink) :
    mergeAll (u :: us) = u.merge (mergeAll us) := rfl

theorem within_mergeAll_iff {us : List Sink} :
    (mergeAll us).Within i ↔ ∀ u ∈ us, u.Within i := by
  induction us with
  | nil => simp [Within, farthest]
  | cons u us ih => rw [mergeAll_cons, within_merge_iff, ih, List.forall_mem_cons]

theorem recordsAt_mergeAll {us : List Sink} (hus : ∀ u ∈ us, u.Within i) :
    (mergeAll us).recordsAt i = us.flatMap (recordsAt i) := by
  induction us with
  | nil => exact recordsAt_empty i
  | cons u us ih =>
    rw [List.forall_mem_cons] at hus
    rw [mergeAll_cons, recordsAt_merge hus.1 (within_mergeAll_iff.mpr hus.2), ih hus.2,
      List.flatMap_cons]

theorem flatMap_recordsAt (i : Nat) (us : List Sink) :
    us.flatMap (recordsAt i) = (us.filter fun u => u.farthest = some i).flatMap records := by
  induction us with
  | nil => rfl
  | cons u us ih =>
    by_cases h : u.farthest = some i
    · simp [h, ih, recordsAt_of_farthest h]
    · simp [h, ih, recordsAt]

theorem records_eq_nil (h : s.farthest = none) : s.records = [] := by
  cases s with
  | empty => rfl
  | reached f rs => cases h

/-- The sink `t` comes as far as the farthest of `us`, and has the records of those that come as
far, in order. -/
structure Joins (us : List Sink) (t : Sink) : Prop where
  farthest : t.farthest = (us.map Sink.farthest).foldr max none
  records : t.records = (us.filter fun u => u.farthest = t.farthest).flatMap Sink.records

theorem joins_mergeAll (us : List Sink) : Joins us (mergeAll us) where
  farthest := by
    induction us with
    | nil => rfl
    | cons u us ih => rw [mergeAll_cons, farthest_merge, ih]; rfl
  records := by
    cases hf : (mergeAll us).farthest with
    | none =>
      rw [records_eq_nil hf, eq_comm, List.flatMap_eq_nil_iff]
      intro u hu
      exact records_eq_nil (of_decide_eq_true (List.mem_filter.mp hu).2)
    | some i =>
      have hwithin := within_of_farthest hf
      rw [← recordsAt_of_farthest hf, recordsAt_mergeAll (within_mergeAll_iff.mp hwithin),
        flatMap_recordsAt]

end Sink

end Backtrack
