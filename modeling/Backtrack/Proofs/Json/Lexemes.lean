import Backtrack.Proofs.Json.Grammar
import Backtrack.Proofs.Rest

/-!
# Lexemes of JSON

What the expressions for white space and numbers match, in terms of the grammar. Each takes as much
as it can, so a lexeme is found as a whole if what comes behind it cannot be a part of it
(`numberText_match`), and what is found is a lexeme (`isNumber_of_matches`).
-/

namespace Backtrack

namespace Json

open Regex Regex.CharSet Regex.Node

/-! ## White space -/

theorem contains_blank {c : Char} : (ofString " \t\n\r").contains c = true ↔ IsBlank c := by
  rw [contains_ofString, IsBlank]
  simp

/-- The text without the white space in front. -/
def skipBlanks (r : List Char) : List Char := r.dropWhile (IsBlank ·)

theorem blanks_skipBlanks (r : List Char) : Blanks r (skipBlanks r) := by
  rw [skipBlanks]
  induction r with
  | nil => exact .nil
  | cons c r ih =>
    rw [List.dropWhile_cons]
    split
    next hc => exact .cons (of_decide_eq_true hc) ih
    next => exact .nil

theorem Blanks.skipBlanks_eq {r s : List Char} (h : Blanks r s) : skipBlanks r = skipBlanks s := by
  induction h with
  | nil => rfl
  | cons hc _ ih =>
    rw [skipBlanks, List.dropWhile_cons_of_pos (by simpa using hc), ← ih, skipBlanks]

theorem Blanks.trans {r s t : List Char} (h : Blanks r s) (h' : Blanks s t) : Blanks r t := by
  induction h with
  | nil => exact h'
  | cons hc _ ih => exact .cons hc (ih h')

theorem skipBlanks_cons {c : Char} (hc : ¬ IsBlank c) (r : List Char) :
    skipBlanks (c :: r) = c :: r :=
  List.dropWhile_cons_of_neg (by simpa using hc)

theorem skipBlanks_skipBlanks (r : List Char) : skipBlanks (skipBlanks r) = skipBlanks r :=
  (blanks_skipBlanks r).skipBlanks_eq.symm

theorem Blanks.bytes_le {r s : List Char} (h : Blanks r s) : bytes s ≤ bytes r := by
  induction h with
  | nil => exact Nat.le_refl _
  | cons _ _ ih =>
    rw [bytes_cons]
    omega

/-- The expression for white space takes all of it. -/
theorem blankText_match (r : List Char) : ∃ w captures, r = w ++ skipBlanks r ∧
    blankText.match? r = some ⟨bytes w, captures⟩ := by
  have hset : (fun c => decide (IsBlank c)) = (ofString " \t\n\r").contains := by
    funext c
    rw [Bool.eq_iff_iff, contains_blank, decide_eq_true_iff]
  refine ⟨r.takeWhile (IsBlank ·), [], List.takeWhile_append_dropWhile.symm, ?_⟩
  have hrun : blankText.node.run { rest := r } some =
      some (Cursor.past (r.takeWhile (IsBlank ·)) { rest := r }) := by
    rw [hset]
    exact run_star_takeWhile rfl
  rw [Program.match?, hrun]
  simp

/-! ## Numbers -/

theorem contains_digit {c : Char} :
    (ofList [range '0' '9']).contains c = true ↔ c.isDigit = true := by
  rw [contains_ofList_singleton, contains_range, Char.isDigit]
  simp only [Bool.and_eq_true, decide_eq_true_iff]
  exact Iff.rfl

/-- What may stand behind a number: nothing that could be a part of it. -/
def NumberEnds (r : List Char) : Prop :=
  ∀ x ∈ r.head?, x.isDigit = false ∧ x ≠ '.' ∧ x ≠ 'e' ∧ x ≠ 'E'

section Match

variable {c d : Cursor} {k : Cursor → Option Cursor} {back : List Char}

theorem run_digits {ds : List Char} (h : c.rest = ds ++ back) (hds : ∀ x ∈ ds, x.isDigit = true)
    (hback : ∀ x ∈ back.head?, x.isDigit = false) (hk : k (c.past ds) = some d) :
    (star digit).run c k = some d := by
  refine run_star h (fun x hx => contains_digit.mpr (hds x hx)) (fun x hx => ?_) hk
  rw [← Bool.not_eq_true, contains_digit, hback x hx]
  exact Bool.false_ne_true

theorem run_someDigits {ds : List Char} (h : c.rest = ds ++ back) (hds : IsDigits ds)
    (hback : ∀ x ∈ back.head?, x.isDigit = false) (hk : k (c.past ds) = some d) :
    (plus digit).run c k = some d := by
  refine run_plus h hds.1 (fun x hx => contains_digit.mpr (hds.2 x hx)) (fun x hx => ?_) hk
  rw [← Bool.not_eq_true, contains_digit, hback x hx]
  exact Bool.false_ne_true

theorem run_exponent {exp : List Char} (h : c.rest = exp ++ back) (hexp : IsExponent exp)
    (hback : NumberEnds back) (hk : k (c.past exp) = some d) :
    (optional (concat [.set (ofString "eE"), optional (.set (ofString "+-")), plus digit])).run
      c k = some d := by
  have hends : ∀ x ∈ back.head?, x.isDigit = false := fun x hx => (hback x hx).1
  cases hexp with
  | none =>
    refine run_alt_right (run_set_none fun x hx => ?_) hk
    obtain ⟨-, -, he, hE⟩ := hback x (by rwa [h] at hx)
    rw [← Bool.not_eq_true, contains_ofString]
    simpa using ⟨he, hE⟩
  | @some e sign ds he hsign hds =>
    have hmark : (ofString "eE").contains e = true := contains_ofString.mpr (by simpa using he)
    refine run_alt_left (run_set h hmark ?_)
    have hrest : (c.past [e]).rest = sign ++ (ds ++ back) := by
      rw [← List.append_assoc]
      exact Cursor.rest_past_one h
    rcases hsign with rfl | rfl | rfl
    · have hdigits : (c.past [e]).rest = ds ++ back := hrest
      refine run_alt_right (run_set_none fun x hx => ?_) (run_someDigits hdigits hds hends hk)
      obtain ⟨y, ds, rfl⟩ := List.exists_cons_of_ne_nil hds.1
      rw [hrest] at hx
      cases hx
      have hx := hds.2 x (by simp)
      rw [← Bool.not_eq_true, contains_ofString]
      rintro hsign
      rcases (by simpa using hsign : x = '+' ∨ x = '-') with rfl | rfl <;> cases hx
    · refine run_alt_left (run_set hrest (contains_ofString.mpr (by simp)) ?_)
      exact run_someDigits (Cursor.rest_past hrest) hds hends hk
    · refine run_alt_left (run_set hrest (contains_ofString.mpr (by simp)) ?_)
      exact run_someDigits (Cursor.rest_past hrest) hds hends hk

theorem run_fraction {frac : List Char} (h : c.rest = frac ++ back) (hfrac : IsFraction frac)
    (hback : ∀ x ∈ back.head?, x.isDigit = false ∧ x ≠ '.') (hk : k (c.past frac) = some d) :
    (optional (.seq (.set (.char '.')) (plus digit))).run c k = some d := by
  cases hfrac with
  | none =>
    refine run_alt_right (run_set_none fun x hx => ?_) hk
    rw [← Bool.not_eq_true, contains_char]
    exact (hback x (by rwa [h] at hx)).2
  | some hds =>
    refine run_alt_left (run_set h (contains_char.mpr rfl) ?_)
    exact run_someDigits (Cursor.rest_past_one h) hds (fun x hx => (hback x hx).1) hk

theorem run_integer {int : List Char} (h : c.rest = int ++ back) (hint : IsInteger int)
    (hback : ∀ x ∈ back.head?, x.isDigit = false) (hk : k (c.past int) = some d) :
    (alt none (.set (.char '0')) (.seq (.set (ofList [range '1' '9'])) (star digit))).run c k =
      some d := by
  cases hint with
  | zero => exact run_alt_left (run_set h (contains_char.mpr rfl) hk)
  | @nonzero x ds hx hds =>
    have hrange : (ofList [range '1' '9']).contains x = true :=
      contains_ofList_singleton.mpr (contains_range.mpr hx)
    refine run_alt_right (run_set_none fun y hy => ?_) (run_set h hrange ?_)
    · rw [h] at hy
      cases hy
      rw [← Bool.not_eq_true, contains_char]
      rintro rfl
      exact absurd hx.1 (by decide)
    · exact run_digits (Cursor.rest_past_one h) hds hback hk

theorem run_sign {sign : List Char} (h : c.rest = sign ++ back)
    (hsign : sign = [] ∨ sign = ['-']) (hback : ∀ x ∈ back.head?, x ≠ '-')
    (hk : k (c.past sign) = some d) : (optional (.set (.char '-'))).run c k = some d := by
  rcases hsign with rfl | rfl
  · refine run_alt_right (run_set_none fun x hx => ?_) hk
    rw [← Bool.not_eq_true, contains_char]
    exact hback x (by rwa [h] at hx)
  · exact run_alt_left (run_set h (contains_char.mpr rfl) hk)

end Match

/-- A number is found as a whole. -/
theorem numberText_match {w s : List Char} (hw : IsNumber w) (hs : NumberEnds s) :
    numberText.match? (w ++ s) = some ⟨bytes w, []⟩ := by
  obtain @⟨sign, int, frac, exp, hsign, hint, hfrac, hexp⟩ := hw
  have hexpEnds : ∀ x ∈ (exp ++ s).head?, x.isDigit = false ∧ x ≠ '.' := by
    cases hexp with
    | none => exact fun x hx => ⟨(hs x hx).1, (hs x hx).2.1⟩
    | some he =>
      rintro x ⟨⟩
      rcases he with rfl | rfl <;> decide
  have hfracEnds : ∀ x ∈ (frac ++ (exp ++ s)).head?, x.isDigit = false := by
    cases hfrac with
    | none => exact fun x hx => (hexpEnds x hx).1
    | some => rintro x ⟨⟩; decide
  have hintStarts : ∀ x ∈ (int ++ (frac ++ (exp ++ s))).head?, x ≠ '-' := by
    cases hint with
    | zero => rintro x ⟨⟩; decide
    | nonzero hd =>
      rintro x ⟨⟩ rfl
      exact absurd hd.1 (by decide)
  let start : Cursor := { rest := sign ++ (int ++ (frac ++ exp)) ++ s }
  have hrest : start.rest = sign ++ (int ++ (frac ++ (exp ++ s))) := by simp [start]
  have hrun : numberText.node.run start some =
      some ((((start.past sign).past int).past frac).past exp) := by
    refine run_sign hrest hsign hintStarts ?_
    refine run_integer (Cursor.rest_past hrest) hint hfracEnds ?_
    refine run_fraction (Cursor.rest_past (Cursor.rest_past hrest)) hfrac hexpEnds ?_
    exact run_exponent (Cursor.rest_past (Cursor.rest_past (Cursor.rest_past hrest))) hexp hs rfl
  rw [Program.match?, hrun]
  simp [start, Nat.add_assoc]

theorem isDigits_of_matches {w : List Char} (h : (plus digit).Matches w) : IsDigits w := by
  obtain ⟨hne, hw⟩ := matches_plus.mp h
  exact ⟨hne, fun c hc => contains_digit.mp (hw c hc)⟩

/-- What is found as a number is one. -/
theorem isNumber_of_matches {w : List Char} (h : numberText.node.Matches w) : IsNumber w := by
  obtain ⟨sign, _, hsign, ⟨int, _, hint, ⟨frac, exp, hfrac, hexp, rfl⟩, rfl⟩, rfl⟩ := h
  refine .mk ?_ ?_ ?_ ?_
  · rcases matches_optional.mp hsign with ⟨x, hx, rfl⟩ | rfl
    · exact .inr (by rw [contains_char.mp hx])
    · exact .inl rfl
  · rcases hint with ⟨x, hx, rfl⟩ | ⟨_, ds, ⟨x, hx, rfl⟩, hds, rfl⟩
    · rw [contains_char.mp hx]
      exact .zero
    · have hrange := contains_range.mp (contains_ofList_singleton.mp hx)
      refine .nonzero hrange fun c hc => contains_digit.mp ?_
      exact matches_star.mp hds c hc
  · rcases matches_optional.mp hfrac with ⟨_, ds, ⟨x, hx, rfl⟩, hds, rfl⟩ | rfl
    · rw [contains_char.mp hx]
      exact .some (isDigits_of_matches hds)
    · exact .none
  · rcases matches_optional.mp hexp with
      ⟨_, _, ⟨e, he, rfl⟩, ⟨sign', ds, hsign', hds, rfl⟩, rfl⟩ | rfl
    · change IsExponent (e :: (sign' ++ ds))
      refine .some (by simpa using contains_ofString.mp he) ?_ (isDigits_of_matches hds)
      rcases matches_optional.mp hsign' with ⟨x, hx, rfl⟩ | rfl
      · rcases (by simpa using contains_ofString.mp hx : x = '+' ∨ x = '-') with rfl | rfl
        · exact .inr (.inl rfl)
        · exact .inr (.inr rfl)
      · exact .inl rfl
    · exact .none

/-! ### What a number is worth -/

theorem span_digits {ds : List Char} (back : List Char) (hds : ∀ x ∈ ds, x.isDigit = true)
    (hback : ∀ x ∈ back.head?, x.isDigit = false) :
    (ds ++ back).takeWhile Char.isDigit = ds ∧ (ds ++ back).dropWhile Char.isDigit = back := by
  rw [List.takeWhile_append_of_pos hds, List.dropWhile_append_of_pos hds]
  cases back with
  | nil => simp
  | cons x back => simp [hback x rfl]

theorem splitSign_digit {x : Char} {cs : List Char} (hx : x.isDigit = true) :
    Binary64.splitSign (x :: cs) = (false, x :: cs) := by
  rw [Binary64.splitSign]
  · rintro _ ⟨⟩
    cases hx
  · rintro _ ⟨⟩
    cases hx

theorem readExponent?_isSome {exp : List Char} (h : IsExponent exp) :
    (Binary64.readExponent? exp).isSome = true := by
  cases h with
  | none => rfl
  | @some e sign ds he hsign hds =>
    have hsplit : ∃ negative, Binary64.splitSign (sign ++ ds) = (negative, ds) := by
      rcases hsign with rfl | rfl | rfl
      · obtain ⟨x, ds, rfl⟩ := List.exists_cons_of_ne_nil hds.1
        exact ⟨_, splitSign_digit (hds.2 x (by simp))⟩
      · exact ⟨_, rfl⟩
      · exact ⟨_, rfl⟩
    obtain ⟨negative, hsplit⟩ := hsplit
    have hmark : (e == 'e' || e == 'E') = true := by simpa using he
    have hne : ds.isEmpty = false := by simpa using hds.1
    have hall : ds.all Char.isDigit = true := List.all_eq_true.mpr hds.2
    simp [Binary64.readExponent?, hsplit, hmark, hne, hall]

/-- Every literal of the grammar is one that can be read. -/
theorem ofLiteral?_isSome {w : List Char} (hw : IsNumber w) :
    (Binary64.ofLiteral? w).isSome = true := by
  obtain @⟨sign, int, frac, exp, hsign, hint, hfrac, hexp⟩ := hw
  have hdigits : int ≠ [] ∧ ∀ x ∈ int, x.isDigit = true := by
    cases hint with
    | zero => simp
    | @nonzero d ds hd hds =>
      have hd : d.isDigit = true :=
        contains_digit.mp <| contains_ofList_singleton.mpr <|
          contains_range.mpr ⟨Nat.le_trans (by decide) hd.1, hd.2⟩
      simpa [hd] using hds
  have hsplit : ∃ negative, Binary64.splitSign (sign ++ (int ++ (frac ++ exp))) =
      (negative, int ++ (frac ++ exp)) := by
    rcases hsign with rfl | rfl
    · obtain ⟨x, int, rfl⟩ := List.exists_cons_of_ne_nil hdigits.1
      exact ⟨_, splitSign_digit (hdigits.2 x (by simp))⟩
    · exact ⟨_, rfl⟩
  obtain ⟨negative, hsplit⟩ := hsplit
  have hexpEnds : ∀ x ∈ exp.head?, x.isDigit = false := by
    cases hexp with
    | none => nofun
    | some he =>
      rintro x ⟨⟩
      rcases he with rfl | rfl <;> rfl
  have hexponent := readExponent?_isSome hexp
  rw [Binary64.ofLiteral?, hsplit]
  cases hfrac with
  | none =>
    obtain ⟨htake, hdrop⟩ := span_digits exp hdigits.2 hexpEnds
    simp only [List.nil_append, htake, hdrop]
    have hpoint : ∀ cs, exp ≠ '.' :: cs := by
      cases hexp with
      | none => nofun
      | some he =>
        rintro cs ⟨⟩
        rcases he with he | he <;> cases he
    split
    next cs => exact (hpoint cs rfl).elim
    next => simpa [hdigits.1] using hexponent
  | @some ds hds =>
    obtain ⟨htake, hdrop⟩ := span_digits ('.' :: (ds ++ exp)) hdigits.2 (by simp)
    obtain ⟨htake', hdrop'⟩ := span_digits exp hds.2 hexpEnds
    simp only [List.cons_append, htake, hdrop, htake', hdrop']
    simpa [hdigits.1] using hexponent

end Json

end Backtrack
