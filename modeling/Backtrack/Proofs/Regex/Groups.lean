import Backtrack.Proofs.ComesTo
import Backtrack.Proofs.Rest
import Backtrack.Proofs.Soundness
import Backtrack.Proofs.Suffix

/-!
# Groups of a match

`regex` produces the text of a match, `regexGroup` that of one of its groups, and `regexGroups` all
of them, each with its place. All three match the text that is left at a position, so the offsets of
a match count from there, and a place in the source is behind them by that position.

- A group of an expression is counted or named (`Regex.HasGroup`). The index of a name is one that
  is counted (`Regex.groupIndex_lt`), so that the index of a name and the table of names that a
  match hands on are of the same groups.
- A group that took part in a match has a text, and the text is the one at its place in the source
  (`Groups.describes_ofMatch`).
- The three parsers succeed at the same places with the same end, and agree on every group, by index
  and by name (`Regex.adapters_agree`).
-/

namespace Backtrack

/-! ## The groups of an expression -/

namespace Regex

variable {re : Regex} {group : GroupRef} {i : Nat}

/-- The expression has the group: it counts that far, or has a group of that name. -/
def HasGroup (re : Regex) : GroupRef → Prop
  | .index i => i < re.groupCount
  | .name x => ∃ i, (x, i) ∈ re.names

/-- A name with an index is one of the names of groups. -/
theorem mem_names_of_index? {x : String} (h : re.index? x = some i) : (x, i) ∈ re.names := by
  rw [re.index?_eq] at h
  obtain ⟨before, after, hnames, -⟩ := List.lookup_eq_some_iff.mp h
  rw [hnames]
  exact List.mem_append_right before List.mem_cons_self

theorem groupIndex_lt (hi : re.groupIndex group = .ok i) : i < re.groupCount := by
  unfold groupIndex at hi
  cases group with
  | index j =>
    dsimp only at hi
    split at hi
    next hj =>
      cases hi
      exact hj
    next => cases hi
  | name x =>
    dsimp only at hi
    split at hi
    next j hj =>
      cases hi
      exact re.lt_groupCount_of_mem (mem_names_of_index? hj)
    next => cases hi

/-- No index is found for exactly the groups that the expression does not have. -/
theorem groupIndex_eq_error {e : BuildError} :
    re.groupIndex group = .error e ↔ ¬ re.HasGroup group ∧ e = .noGroup group := by
  cases group with
  | index i =>
    by_cases h : i < re.groupCount
    · simp [groupIndex, HasGroup, h]
    · simp [groupIndex, HasGroup, h, eq_comm]
  | name x =>
    cases h : re.index? x with
    | some i =>
      have hx : re.HasGroup (.name x) := ⟨i, mem_names_of_index? h⟩
      simp [groupIndex, h, hx]
    | none =>
      have hx : ¬ re.HasGroup (.name x) := by
        rintro ⟨i, hi⟩
        rw [re.index?_eq] at h
        simpa using List.lookup_eq_none_iff.mp h _ hi
      simp [groupIndex, h, hx, eq_comm]

end Regex

/-! ## The groups of a match -/

namespace Source

variable {src : Source Char} {pos : Nat} {rest : List Char}

/-- What lies between two offsets of what is left lies between two positions of the source. -/
theorem slice?_of_textFrom? (h : src.textFrom? pos = some rest) (i j : Nat) :
    src.slice? (pos + i) (pos + j) = (text rest).slice? i j := by
  cases src with
  | text cs =>
    have hsuffix : (text cs).suffix? pos = some (text rest) := congrArg (Option.map text) h
    exact slice?_suffix hsuffix i j
  | items cs => cases h

theorem textBetween?_eq_slice? (h : src.textFrom? pos = some rest) (i j : Nat) :
    src.textBetween? i j = src.slice? i j := by
  cases src with
  | text cs => rfl
  | items cs => cases h

end Source

namespace Groups

/-- The text of a group that is given by its index or its name. -/
def ref? (g : Groups) : GroupRef → Option String
  | .index i => g.get? i
  | .name x => g.named? x

/-- What the groups say of the match `m` of `re` at the position `pos` of a source. -/
structure Describes (g : Groups) (re : Regex) (m : Regex.Match) (src : Source Char) (pos : Nat) :
    Prop where
  size : g.size = re.groupCount
  whole : g.span? 0 = some (.new pos (pos + m.stop))
  matched : src.textBetween? pos (pos + m.stop) = some g.matched.toList
  place : ∀ i < re.groupCount, g.span? i =
    (m.group? i).map fun (start, stop) => .new (pos + start) (pos + stop)
  both : ∀ i, (g.span? i).isSome = (g.get? i).isSome
  text : ∀ i sp, g.span? i = some sp → g.get? i = (sp.of? src).map String.ofList

variable {re : Regex} {m : Regex.Match} {src : Source Char} {pos i : Nat} {rest : List Char}

/-- The entry of a group is its place and its text, if it took part. -/
theorem entries_ofMatch (hi : i < re.groupCount) :
    (ofMatch re m rest pos).entries[i]?.getD none =
      (m.group? i).bind fun (start, stop) =>
        (m.text? rest i).map fun text => (.new (pos + start) (pos + stop), text) := by
  rw [ofMatch]
  simp only [List.getElem?_map, List.getElem?_range hi, Option.map_some, Option.getD_some]
  cases hgroup : m.group? i with
  | none => simp
  | some x =>
    cases m.text? rest i with
    | none => rfl
    | some text => rfl

/-- A group that took part has a text. -/
theorem text?_eq_some (h : re.match? rest = some m) {start stop : Nat}
    (hi : m.group? i = some (start, stop)) :
    ∃ cs, (Source.text rest).slice? start stop = some cs ∧
      m.text? rest i = some (String.ofList cs) := by
  obtain ⟨cs, hcs⟩ := Option.isSome_iff_exists.mp (Regex.match?_group h hi)
  refine ⟨cs, hcs, ?_⟩
  rw [Regex.Match.text?, hi]
  dsimp only
  rw [hcs, Option.map_some]

theorem span?_ofMatch (h : re.match? rest = some m) (hi : i < re.groupCount) :
    (ofMatch re m rest pos).span? i =
      (m.group? i).map fun (start, stop) => .new (pos + start) (pos + stop) := by
  rw [span?, entries_ofMatch hi]
  cases hgroup : m.group? i with
  | none => rfl
  | some x =>
    obtain ⟨cs, -, htext⟩ := text?_eq_some h hgroup
    simp [htext]

theorem get?_ofMatch (h : re.match? rest = some m) (hi : i < re.groupCount) :
    (ofMatch re m rest pos).get? i = m.text? rest i := by
  rw [get?, entries_ofMatch hi]
  cases hgroup : m.group? i with
  | none => simp [Regex.Match.text?, hgroup]
  | some x =>
    obtain ⟨cs, -, htext⟩ := text?_eq_some h hgroup
    simp [htext]

/-- Only the groups that are counted have a place. -/
theorem lt_of_span? {sp : Span} (h : (ofMatch re m rest pos).span? i = some sp) :
    i < re.groupCount := by
  by_contra hi
  have hnone : (ofMatch re m rest pos).entries[i]? = none := by
    simp [ofMatch, Nat.le_of_not_lt hi]
  rw [span?, hnone] at h
  cases h

/-- A group that is named is the one with the index of the name. -/
theorem ref?_ofMatch {group : GroupRef} (hi : re.groupIndex group = .ok i) :
    (ofMatch re m rest pos).ref? group = (ofMatch re m rest pos).get? i := by
  unfold Regex.groupIndex at hi
  cases group with
  | index j =>
    dsimp only at hi
    split at hi
    next =>
      cases hi
      rfl
    next => cases hi
  | name x =>
    dsimp only at hi
    split at hi
    next hj =>
      cases hi
      rw [re.index?_eq] at hj
      have hnames : (ofMatch re m rest pos).names.lookup x = some i := hj
      rw [ref?, named?, hnames]
    next => cases hi

/-- The groups of a match tell where the source has which text. -/
theorem describes_ofMatch (hrest : src.textFrom? pos = some rest) (h : re.match? rest = some m) :
    (ofMatch re m rest pos).Describes re m src pos := by
  have hzero : m.group? 0 = some (0, m.stop) := rfl
  have hcount := re.groupCount_pos
  have hwhole : (ofMatch re m rest pos).span? 0 = some (.new pos (pos + m.stop)) := by
    rw [span?_ofMatch h hcount, hzero]
    rfl
  have htext : ∀ i sp, (ofMatch re m rest pos).span? i = some sp →
      (ofMatch re m rest pos).get? i = (sp.of? src).map String.ofList ∧
        ((ofMatch re m rest pos).get? i).isSome := by
    intro i sp hsp
    have hi := lt_of_span? hsp
    rw [span?_ofMatch h hi] at hsp
    obtain ⟨⟨start, stop⟩, hgroup, rfl⟩ := Option.map_eq_some_iff.mp hsp
    obtain ⟨cs, hcs, hvalue⟩ := text?_eq_some h hgroup
    have hle : start ≤ stop := by
      by_contra hlt
      rw [Source.slice?, if_neg hlt] at hcs
      cases hcs
    rw [get?_ofMatch h hi, hvalue, Span.of?_new (Nat.add_le_add_left hle pos),
      Source.slice?_of_textFrom? hrest, hcs]
    exact ⟨rfl, rfl⟩
  refine ⟨?_, hwhole, ?_, fun i => span?_ofMatch h, fun i => ?_, fun i sp hsp => (htext i sp hsp).1⟩
  · simp [size, ofMatch]
  · obtain ⟨cs, hcs, hvalue⟩ := text?_eq_some h hzero
    rw [Source.textBetween?_eq_slice? hrest, ← Nat.add_zero pos, Nat.add_assoc, Nat.zero_add,
      Source.slice?_of_textFrom? hrest, hcs, matched, Nat.add_zero, get?_ofMatch h hcount, hvalue,
      Option.getD_some, String.toList_ofList]
  · cases hsp : (ofMatch re m rest pos).span? i with
    | some sp => exact (htext i sp hsp).2.symm
    | none =>
      rw [span?, Option.map_eq_none_iff] at hsp
      rw [get?, hsp]
      rfl

end Groups

/-! ## The parsers -/

section Runs

variable {ι : Type} {τ : ι → Type} {α : Type} {env : Env Char τ} {pos : Nat} {rest : List Char}
  {re : Regex} {m : Regex.Match} {s : State}

theorem regexWhere_of_match {src : Source Char} {value : Regex.Match → List Char → α}
    (hrest : src.textFrom? pos = some rest) (h : re.match? rest = some m) :
    regexWhere src re pos value s = some (.ok (pos + m.stop) (value m rest), s) := by
  rw [regexWhere, hrest]
  dsimp only
  rw [h]
  rfl

theorem regexWhere_of_none {src : Source Char} {value : Regex.Match → List Char → α}
    (hrest : src.textFrom? pos = some rest) (h : re.match? rest = none) :
    regexWhere src re pos value s = some (.fail pos, s.reported (.unknown pos)) := by
  rw [regexWhere, hrest]
  dsimp only
  rw [h]
  rfl

/-- The parsers of a regular expression match at the same places up to the same end, change nothing
there and agree on what each group has matched. Elsewhere each of them makes one report. A group can
be asked for if the expression has it. -/
theorem Regex.adapters_agree (re : Regex) {cs : List Char} (hsource : env.source = .text cs)
    (hpos : env.source.IsBoundary pos) (s : State) :
    (∃ rest, env.source.textFrom? pos = some rest ∧
      ((re.match? rest = none ∧
        (Parser.regex re : Parser Char τ String).ComesTo env pos s (.fail pos)
          (s.reported (.unknown pos)) ∧
        (Parser.regexGroups re : Parser Char τ Groups).ComesTo env pos s (.fail pos)
          (s.reported (.unknown pos)) ∧
        ∀ group i, re.groupIndex group = .ok i →
          (Parser.regexGroup re i : Parser Char τ (Option String)).ComesTo env pos s (.fail pos)
            (s.reported (.unknown pos))) ∨
      ∃ m g, re.match? rest = some m ∧ g.Describes re m env.source pos ∧
        (Parser.regex re : Parser Char τ String).ComesTo env pos s
          (.ok (pos + m.stop) g.matched) s ∧
        (Parser.regexGroups re : Parser Char τ Groups).ComesTo env pos s
          (.ok (pos + m.stop) g) s ∧
        ∀ group i, re.groupIndex group = .ok i →
          g.ref? group = g.get? i ∧
          (Parser.regexGroup re i : Parser Char τ (Option String)).ComesTo env pos s
            (.ok (pos + m.stop) (g.ref? group)) s)) ∧
    ∀ group e, re.groupIndex group = .error e ↔ ¬ re.HasGroup group ∧ e = .noGroup group := by
  refine ⟨?_, fun group e => groupIndex_eq_error⟩
  obtain ⟨rest, hrest⟩ : ∃ rest, env.source.textFrom? pos = some rest := by
    rw [hsource] at hpos ⊢
    exact Option.isSome_iff_exists.mp (Source.isBoundary_iff_rest?.mp hpos)
  refine ⟨rest, hrest, ?_⟩
  cases h : re.match? rest with
  | none =>
    have hgroup : ∀ i, (Parser.regexGroup re i : Parser Char τ (Option String)).ComesTo env pos s
        (.fail pos) (s.reported (.unknown pos)) :=
      fun i => .of_run (n := 1) (by rw [Parser.run]; exact regexWhere_of_none hrest h)
    refine .inl ⟨rfl, ?_, ?_, fun _ i _ => hgroup i⟩
    · exact Parser.comesTo_map.mpr ⟨.fail pos, hgroup 0, rfl⟩
    · exact .of_run (n := 1) (by rw [Parser.run]; exact regexWhere_of_none hrest h)
  | some m =>
    have hgroup : ∀ i, (Parser.regexGroup re i : Parser Char τ (Option String)).ComesTo env pos s
        (.ok (pos + m.stop) (m.text? rest i)) s :=
      fun i => .of_run (n := 1) (by rw [Parser.run]; exact regexWhere_of_match hrest h)
    have hzero : (Groups.ofMatch re m rest pos).get? 0 = m.text? rest 0 :=
      Groups.get?_ofMatch h re.groupCount_pos
    refine .inr ⟨m, .ofMatch re m rest pos, rfl, Groups.describes_ofMatch hrest h, ?_, ?_, ?_⟩
    · refine Parser.comesTo_map.mpr ⟨_, hgroup 0, ?_⟩
      rw [Outcome.map, Groups.matched, hzero]
    · exact .of_run (n := 1) (by rw [Parser.run]; exact regexWhere_of_match hrest h)
    · intro group i hi
      have hname : (Groups.ofMatch re m rest pos).ref? group =
          (Groups.ofMatch re m rest pos).get? i := Groups.ref?_ofMatch hi
      refine ⟨hname, ?_⟩
      rw [hname, Groups.get?_ofMatch h (groupIndex_lt hi)]
      exact hgroup i

/-- Behind a character of three bytes, a group with a name, and one that does not take part. -/
theorem Regex.adapters_agree_accents :
    let env : Env Char (Empty.elim : Empty → Type) := Env.bare (.text ['→', 'é', 'é', 'b'])
    let p : Regex.Program := {
      node := .seq (.group 1 (.plus (.set (.char 'é')))) (.optional (.group 2 (.set (.char 'a'))))
      groupCount := 3
      names := [("x", 1)] }
    (Regex.ofPattern "(?<x>é+)(a)?" = .ok p.regex ∧ env.source.IsBoundary 3) ∧
      ∃ g : Groups, g.span? 1 = some (.new 3 7) ∧ g.named? "x" = some "éé" ∧ g.get? 2 = none ∧
        (Parser.regexGroup p.regex 1 : Parser Char (Empty.elim : Empty → Type) _).ComesTo env 3 {}
          (.ok 7 (some "éé")) {} := by
  intro env p
  have hpos : env.source.IsBoundary 3 := Source.isBoundary_iff_rest?.mpr (by decide)
  refine ⟨⟨rfl, hpos⟩, ?_⟩
  obtain ⟨⟨rest, hrest, hruns⟩, -⟩ := adapters_agree p.regex rfl hpos {}
  obtain rfl : ['é', 'é', 'b'] = rest := Option.some.inj hrest
  have hmatch : p.regex.match? ['é', 'é', 'b'] = some ⟨4, [(1, 0, 4)]⟩ := rfl
  rcases hruns with ⟨hnone, -⟩ | ⟨m, g, hm, hg, -, -, hgroup⟩
  · rw [hmatch] at hnone
    cases hnone
  · obtain rfl : ⟨4, [(1, 0, 4)]⟩ = m := Option.some.inj (hmatch.symm.trans hm)
    have hplace : g.span? 1 = some (.new 3 7) := hg.place 1 (by decide)
    have htext : g.get? 1 = some "éé" := (hg.text 1 _ hplace).trans rfl
    obtain ⟨hname, hrun⟩ := hgroup (.name "x") 1 rfl
    rw [hname, htext] at hrun
    refine ⟨g, hplace, hname.trans htext, ?_, hrun⟩
    have hnone := hg.both 2
    rw [hg.place 2 (by decide)] at hnone
    exact Option.not_isSome_iff_eq_none.mp (by rw [← hnone]; decide)

end Runs

end Backtrack
