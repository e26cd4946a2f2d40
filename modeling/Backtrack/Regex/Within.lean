import Backtrack.Regex.Matcher
import Backtrack.Source.Boundary

/-!
# Matching stays within the text

What one step of matching keeps is a relation between the cursor that it starts from and the one
that it goes on with, and what all steps keep is kept by every way through an expression
(`Node.run_relates`). A way leads ahead, from one character of the text to another, and what it
captures are parts of the text (`Cursor.LeadsWithin`).
-/

namespace Backtrack

namespace Regex

section Ways

/-! A relation between the cursor that a step starts from and the one that it goes on with. -/

variable {R : Cursor → Cursor → Prop}

/-- A loop goes on after passes of its body, of which each keeps the relation. -/
theorem Node.loopWith_relates (htrans : ∀ {c d e}, R c d → R d e → R c e)
    (hpass : ∀ {mark c d}, c.pass? mark = some d → R c d)
    {step : Cursor → (Cursor → Option Cursor) → Option Cursor}
    (hstep : ∀ {c d k}, step c k = some d → ∃ e, R c e ∧ k e = some d) {mark : Option Nat}
    {greedy : Bool} {n : Nat} {c d : Cursor} {k : Cursor → Option Cursor}
    (h : loopWith step mark greedy n c k = some d) : ∃ e, R c e ∧ k e = some d := by
  induction n generalizing c with
  | zero =>
    rw [loopWith] at h
    obtain ⟨e, he, hk⟩ := Option.bind_eq_some_iff.mp h
    exact ⟨e, hpass he, hk⟩
  | succ n ih =>
    rw [loopWith] at h
    split at h
    · cases h
    · next e he =>
      have hagain (h : (step e fun d => if e.offset < d.offset then
          loopWith step mark greedy n d k else none) = some d) : ∃ e, R c e ∧ k e = some d := by
        obtain ⟨f, hf, hif⟩ := hstep h
        split at hif
        · obtain ⟨g, hg, hk⟩ := ih hif
          exact ⟨g, htrans (htrans (hpass he) hf) hg, hk⟩
        · cases hif
      dsimp only at h
      split at h
      · rcases Option.or_eq_some_iff.mp h with h | ⟨-, h⟩
        · exact hagain h
        · exact ⟨e, hpass he, h⟩
      · rcases Option.or_eq_some_iff.mp h with h | ⟨-, h⟩
        · exact ⟨e, hpass he, h⟩
        · exact hagain h

/-- What moving on, passing a branching point and capturing a group keep is kept from where matching
starts to where it goes on. -/
theorem Node.run_relates (hrefl : ∀ c, R c c) (htrans : ∀ {c d e}, R c d → R d e → R c e)
    (hstep : ∀ {s c d}, c.step? s = some d → R c d)
    (hpass : ∀ {mark c d}, c.pass? mark = some d → R c d)
    (hcapture : ∀ {i c d}, R c d → R c (d.capture i c.offset)) (a : Node) {c d : Cursor}
    {k : Cursor → Option Cursor} (h : a.run c k = some d) : ∃ e, R c e ∧ k e = some d := by
  induction a generalizing c d k with
  | empty => exact ⟨c, hrefl c, h⟩
  | set s =>
    rw [run] at h
    obtain ⟨e, he, hk⟩ := Option.bind_eq_some_iff.mp h
    exact ⟨e, hstep he, hk⟩
  | assertion a =>
    rw [run] at h
    split at h
    · exact ⟨c, hrefl c, h⟩
    · cases h
  | seq a b iha ihb =>
    obtain ⟨e, he, hb⟩ := iha h
    obtain ⟨f, hf, hk⟩ := ihb hb
    exact ⟨f, htrans he hf, hk⟩
  | alt mark a b iha ihb =>
    rw [run] at h
    obtain ⟨e, he, hor⟩ := Option.bind_eq_some_iff.mp h
    rcases Option.or_eq_some_iff.mp hor with ha | ⟨-, hb⟩
    · obtain ⟨f, hf, hk⟩ := iha ha
      exact ⟨f, htrans (hpass he) hf, hk⟩
    · obtain ⟨f, hf, hk⟩ := ihb hb
      exact ⟨f, htrans (hpass he) hf, hk⟩
  | loop mark greedy body ih => exact loopWith_relates (R := R) htrans hpass (fun h => ih h) h
  | group index body ih =>
    rw [run] at h
    obtain ⟨e, he, hk⟩ := ih h
    exact ⟨_, hcapture he, hk⟩

end Ways

namespace Cursor

variable {text : List Char} {c d : Cursor}

/-- The cursor is at a character of the text or at its end, and what it has captured lies between
two such places. -/
structure Within (text : List Char) (c : Cursor) : Prop where
  rest : (Source.text text).rest? c.offset = some c.rest
  captures : ∀ i start stop, (i, start, stop) ∈ c.captures →
    start ≤ stop ∧ (Source.text text).IsBoundary start ∧ (Source.text text).IsBoundary stop

theorem Within.isBoundary (h : c.Within text) : (Source.text text).IsBoundary c.offset :=
  Source.isBoundary_iff_rest?.mpr (h.rest ▸ rfl)

/-- Where the way from a cursor within the text leads: ahead, and within the text. -/
def LeadsWithin (text : List Char) (c d : Cursor) : Prop :=
  c.Within text → d.Within text ∧ c.offset ≤ d.offset

theorem LeadsWithin.refl (c : Cursor) : c.LeadsWithin text c := fun h => ⟨h, Nat.le_refl _⟩

theorem LeadsWithin.trans {e : Cursor} (h : c.LeadsWithin text d) (h' : d.LeadsWithin text e) :
    c.LeadsWithin text e := by
  intro hc
  obtain ⟨hd, hle⟩ := h hc
  obtain ⟨he, hle'⟩ := h' hd
  exact ⟨he, Nat.le_trans hle hle'⟩

theorem LeadsWithin.step {s : CharSet} (h : c.step? s = some d) : c.LeadsWithin text d := by
  intro hc
  rw [step?] at h
  split at h
  · next x rest hrest =>
    split at h
    · cases h
      refine ⟨⟨?_, hc.captures⟩, Nat.le_add_right _ _⟩
      have hx := hc.rest
      rw [hrest] at hx
      obtain ⟨front, hsymbols, hoffset⟩ := dropWidth?_eq_some hx
      have hbehind : (Source.text text).symbols = (front ++ [x]) ++ rest := by
        rw [List.append_assoc]
        exact hsymbols
      have hmoved := Source.rest?_of_symbols hbehind
      rw [extent_append, ← hoffset, extent_cons, extent_nil, Nat.add_zero] at hmoved
      exact hmoved
    · cases h
  · cases h

theorem LeadsWithin.pass {mark : Option Nat} (h : c.pass? mark = some d) :
    c.LeadsWithin text d := by
  intro hc
  cases mark with
  | none =>
    cases h
    exact ⟨hc, Nat.le_refl _⟩
  | some m =>
    simp only [pass?] at h
    split at h
    · cases h
    · cases h
      exact ⟨⟨hc.rest, hc.captures⟩, Nat.le_refl _⟩

theorem LeadsWithin.capture {i : Nat} (h : c.LeadsWithin text d) :
    c.LeadsWithin text (d.capture i c.offset) := by
  intro hc
  obtain ⟨hd, hle⟩ := h hc
  refine ⟨⟨hd.rest, fun j start stop hj => ?_⟩, hle⟩
  rcases List.mem_cons.mp hj with hj | hj
  · cases hj
    exact ⟨hle, hc.isBoundary, hd.isBoundary⟩
  · exact hd.captures j start stop hj

end Cursor

end Regex

end Backtrack
