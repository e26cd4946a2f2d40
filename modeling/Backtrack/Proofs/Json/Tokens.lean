import Backtrack.Proofs.Json.Strings

/-!
# Parsers of JSON lexemes

What the parsers of which values are made do on the rest of a text, and by which first characters a
kind of value is told from others.
-/

namespace Backtrack

namespace Json

/-- A token: its character, and the white space behind it. -/
def IsToken (c : Char) (r s : List Char) : Prop := ∃ t, r = c :: t ∧ s = skipBlanks t

section Tokens

variable {env : Env Char fun _ : Unit => Json} {n : Nat} {c : Char} {r s : List Char}

/-- White space is skipped, if there is any. -/
theorem blank_run (hn : 1 < n) : ∃ w, blank.Takes env n r w (skipBlanks r) := by
  obtain ⟨w, captures, happend, hmatch⟩ := blankText_match r
  have h : (Parser.regex blankText.regex : Grammar String).Takes env n (w ++ skipBlanks r)
      (.ofList w) (skipBlanks r) := .regex_takes hn (by rwa [← happend])
  rw [← happend] at h
  exact ⟨.ofList w, h⟩

/-- A parser with white space behind it. -/
theorem skip_blank {α : Type} {p : Grammar α} {Q : Option (α × List Char) → Prop} (hn : 2 < n)
    (h : p.OnRest env (n - 1) r fun y => Q (y.map fun (a, s) => (a, skipBlanks s))) :
    (p.skip blank).OnRest env n r Q := by
  refine .andMap (n := n - 1) (by omega) (h.imp fun y hQ => ?_)
  cases y with
  | none => exact hQ
  | some x =>
    obtain ⟨w, hblank⟩ : ∃ w, blank.Takes env (n - 1) x.2 w (skipBlanks x.2) :=
      blank_run (by omega)
    exact hblank.of_eq hQ

theorem skip_blank_finds {α : Type} {p : Grammar α} {D : α → List Char → Prop} (hn : 2 < n)
    (h : p.Finds env (n - 1) r fun a s => D a (skipBlanks s)) :
    (p.skip blank).Finds env n r D := by
  refine skip_blank hn (h.of_finds nofun fun a s hD b t hx => ?_)
  cases hx
  exact hD

theorem token_run (hn : 3 < n) : (token c).OnRest env n r
    fun y => ∀ u s, y = some (u, s) ↔ IsToken c r s := by
  refine .map (n := n - 1) (by omega) (skip_blank (by omega) ?_)
  refine .el (by omega) (fun t ht u s => ⟨?_, ?_⟩) fun hno u s => ⟨nofun, ?_⟩
  · rintro ⟨⟩
    exact ⟨t, ht, rfl⟩
  · rintro ⟨t', ht', rfl⟩
    rw [ht] at ht'
    cases ht'
    rfl
  · rintro ⟨t, ht, -⟩
    exact (hno t ht).elim

theorem token_finds (hn : 3 < n) : (token c).Finds env n r fun _ s => IsToken c r s :=
  (token_run hn).imp fun _ hy u s hx => (hy u s).mp hx

theorem token_takes (hn : 3 < n) : (token c).Takes env n (c :: s) () (skipBlanks s) :=
  (token_run hn).imp fun _ hy => (hy () _).mpr ⟨s, rfl, rfl⟩

theorem token_refuses (hn : 3 < n) (hr : ∀ t, r ≠ c :: t) :
    (token c).Refuses env n r := by
  refine ((token_finds hn).finds_mono fun u s h => ?_).refuses
  obtain ⟨t, ht, -⟩ := h
  exact hr t ht

/-! ## Literal names -/

section Names

variable {name : String} {v : Json}

theorem name_takes (hn : 1 < n) :
    ((Parser.literal (.string name)).withValue v : Grammar Json).Takes env n (name.toList ++ s)
      v s := by
  refine .map hn (.literal Nat.one_pos (fun t ht => ?_) fun hno => (hno s rfl).elim)
  rw [List.append_cancel_left ht]
  rfl

theorem name_finds (hn : 1 < n) :
    ((Parser.literal (.string name)).withValue v : Grammar Json).Finds env n r
      fun x s => x = v ∧ r = name.toList ++ s := by
  refine .map hn (.literal Nat.one_pos (fun t ht x s hx => ?_) fun _ => nofun)
  cases hx
  exact ⟨rfl, ht⟩

theorem name_refuses (hn : 1 < n) (hc : name.toList.head? ≠ some c) (hname : name.toList ≠ []) :
    ((Parser.literal (.string name)).withValue v : Grammar Json).Refuses env n (c :: s) := by
  refine ((name_finds hn).finds_mono fun a t h => ?_).refuses
  have hsplit := h.2
  obtain ⟨d, ds, hds⟩ := List.exists_cons_of_ne_nil hname
  rw [hds] at hc hsplit
  cases hsplit
  exact hc rfl

end Names

/-! ## Numbers -/

/-- A number starts with its sign or with a digit. -/
theorem IsNumber.head {w : List Char} (h : IsNumber w) :
    ∃ c cs, w = c :: cs ∧ (c = '-' ∨ c.isDigit = true) := by
  obtain ⟨rfl | rfl, hint, -, -⟩ := h
  · cases hint with
    | zero => exact ⟨_, _, rfl, .inr rfl⟩
    | nonzero hd =>
      exact ⟨_, _, rfl, .inr (contains_digit.mp (Regex.CharSet.contains_range.mpr
        ⟨Nat.le_trans (by decide) hd.1, hd.2⟩))⟩
  · exact ⟨_, _, rfl, .inl rfl⟩

theorem number_takes {w : List Char} {x : Binary64} (hn : 3 < n) (hw : IsNumber w)
    (hx : Binary64.ofLiteral? w = some x) (hs : NumberEnds s) :
    numberValue.Takes env n (w ++ s) (.number x) s := by
  have htext : (Parser.regex numberText.regex : Grammar String).Takes env (n - 2) (w ++ s)
      (.ofList w) s := .regex_takes (by omega) (numberText_match hw hs)
  refine .map (n := n - 1) (by omega) (.label (n := n - 2) (by omega) (htext.of_eq ?_))
  simp [hx]

theorem number_finds (hn : 3 < n) : numberValue.Finds env n r fun v s =>
    ∃ w x, r = w ++ s ∧ IsNumber w ∧ Binary64.ofLiteral? w = some x ∧ v = .number x := by
  refine .map_finds (n := n - 1) (by omega) (.label (n := n - 2) (by omega) ?_)
  refine .finds_mono (.regex_finds (by omega)) fun a s h => ?_
  obtain ⟨w, happend, rfl, hw⟩ := h
  have hw := isNumber_of_matches hw
  obtain ⟨x, hx⟩ := Option.isSome_iff_exists.mp (ofLiteral?_isSome hw)
  refine ⟨w, x, happend, hw, hx, ?_⟩
  rw [String.toList_ofList, hx]
  rfl

theorem number_refuses (hn : 3 < n) (hc : c ≠ '-' ∧ c.isDigit = false) :
    numberValue.Refuses env n (c :: s) := by
  refine ((number_finds hn).finds_mono fun v t h => ?_).refuses
  obtain ⟨w, x, happend, hw, -⟩ := h
  obtain ⟨d, ds, rfl, hd⟩ := hw.head
  cases happend
  rcases hd with hd | hd
  · exact hc.1 hd
  · rw [hc.2] at hd
    cases hd

/-! ## Strings -/

theorem string_takes {x : String} (hn : bytes r + 3 ≤ n) (h : StringText Replaced r x s) :
    stringLiteral.Takes env n r x s :=
  (stringLiteral_run hn).imp fun _ hy => (hy x s).mpr h

theorem string_finds (hn : bytes r + 3 ≤ n) :
    stringLiteral.Finds env n r (StringText Replaced r) :=
  (stringLiteral_run hn).imp fun _ hy x s hx => (hy x s).mp hx

theorem string_refuses (hn : bytes (c :: s) + 3 ≤ n) (hc : c ≠ '"') :
    stringLiteral.Refuses env n (c :: s) := by
  refine ((string_finds hn).finds_mono fun x t h => ?_).refuses
  cases h
  exact hc rfl

/-! ## Values -/

/-- The kinds of values, in the order in which they are tried. -/
def kinds : Parsers Char (fun _ : Unit => Json) Json :=
  .ofList
    [(Parser.literal (.string "null")).withValue .null,
     (Parser.literal (.string "true")).withValue (.bool true),
     (Parser.literal (.string "false")).withValue (.bool false),
     numberValue,
     stringLiteral.map .string,
     arrayValue,
     objectValue]

/-- A value is of one of the kinds, with white space behind it. -/
theorem value_run {Q : Option (Json × List Char) → Prop} (hn : 2 < n)
    (h : kinds.OnRest env (n - 2) r fun y => Q (y.map fun (v, s) => (v, skipBlanks s))) :
    value.OnRest env n r Q :=
  skip_blank hn (.choice (n := n - 2) (by omega) h)

theorem value_of_kinds {D : Json → List Char → Prop} (hn : 2 < n)
    (h : ∀ p ∈ kinds.toList, p.Finds env (n - 2) r fun v s => D v (skipBlanks s)) :
    value.Finds env n r D :=
  skip_blank_finds hn (.choice (n := n - 2) (by omega) (.finds h))

theorem value_takes {v : Json} (hn : 2 < n)
    (h : kinds.OnRest env (n - 2) r (· = some (v, s))) : value.Takes env n r v (skipBlanks s) := by
  refine value_run hn (h.imp ?_)
  rintro _ rfl
  rfl

/-- The kinds that are names are passed over where another letter stands. -/
theorem skip_names {ps : Parsers Char (fun _ : Unit => Json) Json}
    {Q : Option (Json × List Char) → Prop} (hn : 1 < n) (hc : c ≠ 'n' ∧ c ≠ 't' ∧ c ≠ 'f')
    (h : ps.OnRest env n (c :: s) Q) :
    (Parsers.cons ((Parser.literal (.string "null")).withValue .null)
      (.cons ((Parser.literal (.string "true")).withValue (.bool true))
        (.cons ((Parser.literal (.string "false")).withValue (.bool false)) ps))).OnRest env n
          (c :: s) Q :=
  .skip (name_refuses hn (by simpa using hc.1.symm) (by decide)) <|
    .skip (name_refuses hn (by simpa using hc.2.1.symm) (by decide)) <|
      .skip (name_refuses hn (by simpa using hc.2.2.symm) (by decide)) h

/-- Names, numbers and strings are passed over where a bracket or a brace stands. -/
theorem skip_scalars {ps : Parsers Char (fun _ : Unit => Json) Json}
    {Q : Option (Json × List Char) → Prop} (hn : bytes (c :: s) + 4 ≤ n)
    (hnames : c ≠ 'n' ∧ c ≠ 't' ∧ c ≠ 'f') (hnumber : c ≠ '-' ∧ c.isDigit = false)
    (hquote : c ≠ '"') (h : ps.OnRest env n (c :: s) Q) :
    (Parsers.cons ((Parser.literal (.string "null")).withValue .null)
      (.cons ((Parser.literal (.string "true")).withValue (.bool true))
        (.cons ((Parser.literal (.string "false")).withValue (.bool false))
          (.cons numberValue (.cons (stringLiteral.map .string) ps))))).OnRest env n
            (c :: s) Q := by
  refine skip_names (by omega) hnames (.skip (number_refuses (by omega) hnumber) ?_)
  exact .skip (.map_refuses (n := n - 1) (by omega) (string_refuses (by omega) hquote)) h

end Tokens

end Json

end Backtrack
