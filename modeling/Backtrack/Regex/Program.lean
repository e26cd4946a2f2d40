import Backtrack.Regex
import Backtrack.Regex.Reader
import Backtrack.Regex.Within

/-!
# Patterns as regular expressions

A pattern is read, and the nodes that it stands for are matched. This is the regular expression that
parsers run with here. Its character classes are those of the character table.
-/

namespace Backtrack.Regex

/-- A pattern that has been read. -/
structure Program where
  node : Node
  groupCount : Nat := 1
  names : List (String × Nat) := []
  groupCount_pos : 0 < groupCount := by decide
  lt_groupCount_of_mem : ∀ x ∈ names, x.2 < groupCount := by decide
  deriving DecidableEq, Repr

namespace Program

variable {p : Program} {text : List Char} {m : Match}

/-- The preferred match at the start of a text. -/
def match? (p : Program) (text : List Char) : Option Match :=
  (p.node.run { rest := text } some).map fun c => ⟨c.offset, c.captures⟩

/-- Where a match ends, and all it has captured, is within the text. -/
theorem match?_within (h : p.match? text = some m) :
    ∃ c : Cursor, c.Within text ∧ m = ⟨c.offset, c.captures⟩ := by
  obtain ⟨c, hrun, rfl⟩ := Option.map_eq_some_iff.mp h
  have hstart : Cursor.Within text { rest := text } := ⟨by cases text <;> rfl, nofun⟩
  obtain ⟨e, he, hk⟩ := p.node.run_relates Cursor.LeadsWithin.refl Cursor.LeadsWithin.trans
    Cursor.LeadsWithin.step Cursor.LeadsWithin.pass Cursor.LeadsWithin.capture hrun
  cases hk
  exact ⟨c, (he hstart).1, rfl⟩

theorem group_within (h : p.match? text = some m) {i start stop : Nat}
    (hi : m.group? i = some (start, stop)) :
    start ≤ stop ∧ (Source.text text).IsBoundary start ∧ (Source.text text).IsBoundary stop := by
  obtain ⟨c, hc, rfl⟩ := match?_within h
  rw [Match.group?] at hi
  split at hi
  · cases hi
    exact ⟨Nat.zero_le _, Source.isBoundary_zero _, hc.isBoundary⟩
  · obtain ⟨before, after, hcaptures, -⟩ := List.lookup_eq_some_iff.mp hi
    have hmem : (i, start, stop) ∈ c.captures := by
      rw [show c.captures = before ++ (i, start, stop) :: after from hcaptures]
      exact List.mem_append_right before List.mem_cons_self
    exact hc.captures i start stop hmem

/-- The program as a regular expression. -/
def regex (p : Program) : Regex where
  match? := p.match?
  groupCount := p.groupCount
  names := p.names
  index? x := p.names.lookup x
  groupCount_pos := p.groupCount_pos
  lt_groupCount_of_mem h := p.lt_groupCount_of_mem _ h
  index?_eq _ := rfl
  group_within h hi := group_within h hi

@[simp] theorem match?_regex (text : List Char) : p.regex.match? text = p.match? text := rfl

end Program

/-- The index of every group is less than the number of groups. -/
theorem Expr.lt_of_mem_groups {e : Expr} {i : Nat} (hi : i ∈ e.groups) :
    i < e.groups.foldl max 0 + 1 := by
  have hmax : ∀ j ∈ 0 :: e.groups, j ≤ e.groups.foldl max 0 :=
    (List.max?_eq_some_iff.mp List.max?_cons').2
  exact Nat.lt_succ_of_le (hmax i (List.mem_cons_of_mem 0 hi))

/-- The program of a pattern. -/
def Program.read? (pattern : String) : Option Program :=
  match Reader.read? pattern.toList with
  | some (e, names) =>
    some {
      node := (e.expand false 0).1
      groupCount := e.groups.foldl max 0 + 1
      names := names.filter fun (_, i) => e.groups.contains i
      groupCount_pos := Nat.succ_pos _
      lt_groupCount_of_mem := fun _ hx =>
        Expr.lt_of_mem_groups (List.contains_iff_mem.mp (List.mem_filter.mp hx).2) }
  | none => none

/-- The regular expression of a pattern. -/
def ofPattern (pattern : String) : Except BuildError Regex :=
  match Program.read? pattern with
  | some p => .ok p.regex
  | none => .error .invalidPattern

end Backtrack.Regex
