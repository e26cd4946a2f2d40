import Backtrack.Source

/-!
# Positions between symbols

A position of a source is a boundary if some symbols fill the source exactly up to it. In a text
these are the offsets at which a character starts, and the end; in a list of items they are all
positions up to its length (`Source.isBoundary_items_iff`). What lies between two boundaries can be
sliced out of the source (`Source.slice?_isSome`).
-/

namespace Backtrack

variable {σ : Type}

/-! ## Widths -/

section Widths

variable {width : σ → Nat} {xs rest : List σ} {n : Nat}

theorem dropWidth?_eq_some (h : dropWidth? width xs n = some rest) :
    ∃ front, xs = front ++ rest ∧ n = extent width front := by
  fun_induction dropWidth? width xs n with
  | case1 xs =>
    cases h
    exact ⟨[], rfl, rfl⟩
  | case2 => cases h
  | case3 x xs n hle ih =>
    obtain ⟨front, rfl, hn⟩ := ih h
    refine ⟨x :: front, rfl, ?_⟩
    rw [extent_cons, ← hn]
    omega
  | case4 => cases h

theorem dropWidth?_append (hwidth : ∀ x, 0 < width x) (front back : List σ) :
    dropWidth? width (front ++ back) (extent width front) = some back := by
  induction front with
  | nil => rw [List.nil_append, extent_nil, dropWidth?]
  | cons x front ih =>
    have hx := hwidth x
    obtain ⟨n, hn⟩ : ∃ n, width x + extent width front = n + 1 :=
      Nat.exists_eq_add_of_le' (by omega)
    rw [List.cons_append, extent_cons, hn, dropWidth?, if_pos (by omega), ← hn,
      Nat.add_sub_cancel_left, ih]

theorem takeWidth?_eq_some {front : List σ} (h : takeWidth? width xs n = some front) :
    ∃ back, xs = front ++ back ∧ n = extent width front := by
  fun_induction takeWidth? width xs n generalizing front with
  | case1 xs =>
    cases h
    exact ⟨xs, rfl, rfl⟩
  | case2 => cases h
  | case3 x xs n hle ih =>
    obtain ⟨front, hfront, rfl⟩ := Option.map_eq_some_iff.mp h
    obtain ⟨back, rfl, hn⟩ := ih hfront
    refine ⟨back, rfl, ?_⟩
    rw [extent_cons, ← hn]
    omega
  | case4 => cases h

theorem takeWidth?_append (hwidth : ∀ x, 0 < width x) (front back : List σ) :
    takeWidth? width (front ++ back) (extent width front) = some front := by
  induction front with
  | nil => rw [List.nil_append, extent_nil, takeWidth?]
  | cons x front ih =>
    have hx := hwidth x
    obtain ⟨n, hn⟩ : ∃ n, width x + extent width front = n + 1 :=
      Nat.exists_eq_add_of_le' (by omega)
    rw [List.cons_append, extent_cons, hn, takeWidth?, if_pos (by omega), ← hn,
      Nat.add_sub_cancel_left, ih, Option.map_some]

end Widths

/-! ## Boundaries -/

namespace Source

variable {src : Source σ} {pos start stop : Nat}

theorem width_pos (src : Source σ) (x : σ) : 0 < src.width x := by
  cases src with
  | text chars => exact x.utf8Size_pos
  | items symbols => exact Nat.one_pos

/-- Some symbols fill the source exactly up to `pos`. -/
def IsBoundary (src : Source σ) (pos : Nat) : Prop :=
  ∃ front back, src.symbols = front ++ back ∧ pos = extent src.width front

theorem isBoundary_zero (src : Source σ) : src.IsBoundary 0 := ⟨[], src.symbols, rfl, rfl⟩

theorem IsBoundary.le_len (h : src.IsBoundary pos) : pos ≤ src.len := by
  obtain ⟨front, back, hsymbols, rfl⟩ := h
  rw [len, hsymbols, extent_append]
  exact Nat.le_add_right _ _

/-- Behind the symbols that fill the source up to a position, the others remain. -/
theorem rest?_of_symbols {front back : List σ} (h : src.symbols = front ++ back) :
    src.rest? (extent src.width front) = some back := by
  rw [rest?, h, dropWidth?_append src.width_pos]

/-- The symbols that remain exist at a boundary and nowhere else. -/
theorem isBoundary_iff_rest? : src.IsBoundary pos ↔ (src.rest? pos).isSome := by
  constructor
  · rintro ⟨front, back, hsymbols, rfl⟩
    rw [rest?_of_symbols hsymbols]
    rfl
  · intro h
    obtain ⟨rest, hrest⟩ := Option.isSome_iff_exists.mp h
    obtain ⟨front, hsymbols, hpos⟩ := dropWidth?_eq_some hrest
    exact ⟨front, rest, hsymbols, hpos⟩

theorem extent_items (xs ys : List σ) : extent (items xs).width ys = ys.length := by
  induction ys with
  | nil => rfl
  | cons y ys ih => rw [extent_cons, ih, List.length_cons, Nat.add_comm]; rfl

theorem isBoundary_items_iff {xs : List σ} : (items xs).IsBoundary pos ↔ pos ≤ xs.length := by
  constructor
  · rintro ⟨front, back, hxs, rfl⟩
    rw [extent_items, show xs = front ++ back from hxs, List.length_append]
    exact Nat.le_add_right _ _
  · intro h
    refine ⟨xs.take pos, xs.drop pos, (List.take_append_drop pos xs).symm, ?_⟩
    rw [extent_items, List.length_take, Nat.min_eq_left h]

theorem IsBoundary.symbol {x : σ} {w : Nat} (h : src.symbolAt? pos = some (x, w)) :
    src.IsBoundary (pos + w) := by
  rw [symbolAt?] at h
  split at h
  · next y rest hrest =>
    cases h
    obtain ⟨front, hsymbols, rfl⟩ := dropWidth?_eq_some hrest
    exact ⟨front ++ [x], rest, by simp [hsymbols], by simp⟩
  · cases h

/-- Characters of a text lead from where the text remains to a boundary. -/
theorem IsBoundary.chars {front back : List Char} (h : src.textFrom? pos = some (front ++ back)) :
    src.IsBoundary (pos + extent Char.utf8Size front) := by
  cases src with
  | text chars =>
    obtain ⟨before, rfl, rfl⟩ := dropWidth?_eq_some h
    exact ⟨before ++ front, back, by simp [symbols], by simp [width]⟩
  | items symbols => cases h

/-- What lies between two boundaries is a part of the source. -/
theorem slice?_isSome (hstart : src.IsBoundary start) (hstop : src.IsBoundary stop)
    (hle : start ≤ stop) : (src.slice? start stop).isSome := by
  obtain ⟨front, back, hsymbols, rfl⟩ := hstart
  obtain ⟨front', back', hsymbols', rfl⟩ := hstop
  obtain ⟨mid, rfl⟩ : ∃ mid, front' = front ++ mid := by
    rcases List.append_eq_append_iff.mp (hsymbols.symm.trans hsymbols') with
      ⟨mid, h, -⟩ | ⟨mid, rfl, -⟩
    · exact ⟨mid, h⟩
    · -- The longer part is no wider, so it is no longer.
      have hmid : mid = [] := by
        cases mid with
        | nil => rfl
        | cons x mid =>
          have hx := src.width_pos x
          simp at hle
          omega
      exact ⟨[], by simp [hmid]⟩
  have hrest : src.rest? (extent src.width front) = some (mid ++ back') := by
    rw [rest?, hsymbols', List.append_assoc, dropWidth?_append src.width_pos]
  rw [slice?, if_pos hle, hrest]
  simp [takeWidth?_append src.width_pos]

end Source

end Backtrack
