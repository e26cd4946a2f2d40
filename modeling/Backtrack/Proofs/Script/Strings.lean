import Backtrack.Proofs.ComesTo
import Backtrack.Proofs.Script.Lexemes

/-!
# String literals of the scripting language

Between its quotes, a literal writes each character as itself or with a backslash in front, where a
quote and a backslash need the backslash (`Script.Written`). What is left of a text divides in one
way only into characters that are written so and a place that halts: the end, a backslash at the
end, or a quote (`Script.exists_written`). The parser of string literals takes the characters up to
there, and so ends behind the first quote without a backslash, wherever that is
(`Script.string_exact`).
-/

namespace Backtrack

open Act

/-! ## Runs -/

section Runs

variable {ι : Type} {τ : ι → Type} {α : Type} {env : Env Char τ} {p : Parser Char τ α} {n pos : Nat}
  {r : List Char}

theorem Parser.OnRest.takes_comesTo {a : α} {s : List Char} (h : p.Takes env n r a s)
    (hpos : env.source.textFrom? pos = some r) (u : State) :
    ∃ e t, p.ComesTo env pos u (.ok e a) t ∧ env.source.textFrom? e = some s := by
  obtain ⟨o, t, hrun, x, ho, rfl⟩ := h pos hpos n (Nat.le_refl n) u
  cases ho with
  | ok hs => exact ⟨_, t, .of_run hrun, hs⟩

theorem Parser.OnRest.refuses_comesTo (h : p.Refuses env n r)
    (hpos : env.source.textFrom? pos = some r) (u : State) :
    ∃ f t, p.ComesTo env pos u (.fail f) t := by
  obtain ⟨o, t, hrun, x, ho, rfl⟩ := h pos hpos n (Nat.le_refl n) u
  cases ho with
  | fail => exact ⟨_, t, .of_run hrun⟩

end Runs

namespace Script

/-! ## How characters are written -/

/-- The text of the first list writes each character of the second one as itself or with a
backslash in front. -/
inductive Written : List Char → List Char → Prop where
  | nil : Written [] []
  | itself {c : Char} {w cs : List Char} (hquote : c ≠ '"') (hbackslash : c ≠ '\\')
    (h : Written w cs) : Written (c :: w) (c :: cs)
  | escaped {c : Char} {w cs : List Char} (h : Written w cs) : Written ('\\' :: c :: w) (c :: cs)

/-- No character is written where the text ends, or is a single backslash, or goes on with a
quote. -/
inductive Halts : List Char → Prop where
  | atEnd : Halts []
  | atBackslash : Halts ['\\']
  | atQuote {r : List Char} : Halts ('"' :: r)

/-- A text between quotes. -/
def quoted (w : List Char) : List Char := '"' :: (w ++ ['"'])

theorem quoted_append (w rest : List Char) : quoted w ++ rest = '"' :: (w ++ '"' :: rest) := by
  rw [quoted, List.cons_append, List.append_assoc, List.singleton_append]

/-- Characters are written up to a place that halts. The recursion goes on behind one character, or
behind two if the first one is a backslash. -/
theorem exists_written : ∀ r : List Char, ∃ w cs s, r = w ++ s ∧ Written w cs ∧ Halts s
  | [] => ⟨[], [], [], rfl, .nil, .atEnd⟩
  | [c] => by
    by_cases hquote : c = '"'
    · exact ⟨[], [], [c], rfl, .nil, hquote ▸ .atQuote⟩
    by_cases hbackslash : c = '\\'
    · exact ⟨[], [], [c], rfl, .nil, hbackslash ▸ .atBackslash⟩
    exact ⟨[c], [c], [], rfl, .itself hquote hbackslash .nil, .atEnd⟩
  | c :: d :: r => by
    by_cases hquote : c = '"'
    · exact ⟨[], [], c :: d :: r, rfl, .nil, hquote ▸ .atQuote⟩
    by_cases hbackslash : c = '\\'
    · obtain ⟨w, cs, s, rfl, hw, hs⟩ := exists_written r
      exact ⟨c :: d :: w, d :: cs, s, rfl, hbackslash ▸ .escaped hw, hs⟩
    · obtain ⟨w, cs, s, hr, hw, hs⟩ := exists_written (d :: r)
      exact ⟨c :: w, c :: cs, s, congrArg (c :: ·) hr, .itself hquote hbackslash hw, hs⟩

/-! ## Characters -/

/-- A character as it is written. -/
def unit : Grammar Char := .either (.noneOf (.string "\"\\")) ((Parser.el '\\').andThen .any)

variable {env : Env Char Rule.Value} {m : Nat} {r s w cs rest : List Char} {c : Char}

theorem mem_special : c ∈ (Pattern.string "\"\\").toList ↔ c = '"' ∨ c = '\\' := by
  have hlist : (Pattern.string "\"\\").toList = ['"', '\\'] := rfl
  rw [hlist, List.mem_cons, List.mem_singleton]

theorem unit_takes_itself (hm : 1 < m) (hquote : c ≠ '"') (hbackslash : c ≠ '\\') :
    unit.Takes env m (c :: s) c s := by
  refine .either (n := m - 1) (by omega) (.noneOf (by omega) (fun x t ht _ => ?_) fun hno => ?_)
  · cases ht
    rfl
  · exact absurd (mem_special.mp (hno c rfl)) (not_or.mpr ⟨hquote, hbackslash⟩)

theorem unit_takes_escaped (hm : 2 < m) : unit.Takes env m ('\\' :: c :: s) c s := by
  refine .either (n := m - 1) (by omega) (.noneOf (by omega) (fun x t ht hx => ?_) fun _ => ?_)
  · cases ht
    exact absurd (mem_special.mpr (.inr rfl)) hx
  · refine .andThen (n := m - 2) (by omega) (.el (by omega) (fun t ht => ?_) fun hno => ?_)
    · cases ht
      refine .any (by omega) (fun x t ht => ?_) nofun
      cases ht
      rfl
    · exact absurd rfl (hno (c :: s))

theorem unit_refuses (hm : 2 < m) (hr : Halts r) : unit.Refuses env m r := by
  have hplain : (Parser.noneOf (.string "\"\\") : Grammar Char).Refuses env (m - 1) r := by
    refine .noneOf (by omega) (fun x t ht hx => ?_) fun _ => rfl
    cases hr with
    | atEnd => cases ht
    | atBackslash =>
      cases ht
      exact absurd (mem_special.mpr (.inr rfl)) hx
    | atQuote =>
      cases ht
      exact absurd (mem_special.mpr (.inl rfl)) hx
  refine .either_refuses (n := m - 1) (by omega) hplain (.andThen (n := m - 2) (by omega) ?_)
  refine .el (by omega) (fun t ht => .any (by omega) (fun x u hu => ?_) fun _ => rfl) fun _ => rfl
  subst hu
  cases hr with
  | atEnd => cases ht
  | atBackslash => cases ht
  | atQuote => cases ht

theorem steps_written (hm : 2 < m) (hw : Written w cs) :
    Steps (unit.Takes env m) (fun r s => r = s) (w ++ s) cs s := by
  induction hw with
  | nil => exact .nil
  | @itself c w cs hquote hbackslash _ ih =>
    exact .cons rfl (unit_takes_itself (by omega) hquote hbackslash) (bytes_lt_cons c _) ih
  | @escaped c w cs _ ih =>
    have hlt := (bytes_lt_cons c (w ++ s)).trans (bytes_lt_cons '\\' (c :: (w ++ s)))
    exact .cons rfl (unit_takes_escaped hm) hlt ih

/-- All characters are taken that are written there. -/
theorem many_unit_takes (hm : bytes (w ++ s) + 3 < m) (hw : Written w cs) (hs : Halts s) :
    (Parser.many unit {}).Takes env m (w ++ s) cs s :=
  .many_takes (n := m - 1) (by omega) (by omega) (steps_written (by omega) hw)
    (unit_refuses (by omega) hs)

/-! ## Literals -/

theorem string_takes (hm : bytes (quoted w ++ rest) + 5 < m) (hw : Written w cs) :
    string.Takes env m (quoted w ++ rest) (.str (.ofList cs)) rest := by
  rw [quoted_append] at hm ⊢
  have hlt := bytes_lt_cons '"' (w ++ '"' :: rest)
  refine .map_takes (n := m - 1) (by omega) (.between_takes (n := m - 2) (b := '"') (c := '"')
    (s := w ++ '"' :: rest) (t := '"' :: rest) (by omega) ?_ ?_ ?_)
  · refine .el (by omega) (fun t ht => ?_) fun hno => absurd rfl (hno _)
    cases ht
    rfl
  · exact many_unit_takes (by omega) hw .atQuote
  · refine .el (by omega) (fun t ht => ?_) fun hno => absurd rfl (hno _)
    cases ht
    rfl

/-- Without a quote at the end, or at the start, there is no literal. -/
theorem string_refuses_unquoted (hm : bytes r + 5 < m)
    (hr : ¬ ∃ w cs rest, r = quoted w ++ rest ∧ Written w cs) : string.Refuses env m r := by
  by_cases hquote : '"' ∈ r.head?
  · obtain ⟨r', rfl⟩ : ∃ r', r = '"' :: r' := List.head?_eq_some_iff.mp hquote
    obtain ⟨w, cs, s, rfl, hw, hs⟩ := exists_written r'
    have hlt := bytes_lt_cons '"' (w ++ s)
    refine .map_refuses (n := m - 1) (by omega) (.between (n := m - 2) (by omega) ?_)
    refine .el (by omega) (fun t ht => ?_) fun _ => rfl
    cases ht
    refine (many_unit_takes (by omega) hw hs).of_eq (.el (by omega) (fun t ht => ?_) fun _ => rfl)
    subst ht
    exact absurd ⟨w, cs, t, (quoted_append w t).symm, hw⟩ hr
  · exact string_refuses (by omega) hquote

/-- At each boundary of a text, the parser of string literals returns, and succeeds exactly where
the text goes on with characters written between quotes: behind the closing quote, and with those
characters. -/
theorem string_exact [Alphabet] (front r : List Char) (s : State) :
    ∃ o t, string.ComesTo (Script.env (front ++ r)) (bytes front) s o t ∧ ∀ e a, o = .ok e a ↔
      ∃ w cs rest, r = quoted w ++ rest ∧ Written w cs ∧ e = bytes (front ++ quoted w) ∧
        a = .str (.ofList cs) := by
  have hpos : (Script.env (front ++ r)).source.textFrom? (bytes front) = some r := by
    have hstart := Source.textFrom?_zero (front ++ r)
    have hmove := Source.textFrom?_move hstart
    rwa [Nat.zero_add] at hmove
  have hliteral {w cs rest : List Char} (hr : r = quoted w ++ rest) (hw : Written w cs) :
      ∃ t, string.ComesTo (Script.env (front ++ r)) (bytes front) s
        (.ok (bytes (front ++ quoted w)) (.str (.ofList cs))) t := by
    subst hr
    obtain ⟨e, t, hrun, hrest⟩ := (string_takes (Nat.lt_succ_self _) hw).takes_comesTo hpos s
    have hlen := Source.len_of_textFrom? hpos
    have hlen' := Source.len_of_textFrom? hrest
    rw [bytes_append] at hlen
    obtain rfl : e = bytes (front ++ quoted w) := by
      rw [bytes_append]
      omega
    exact ⟨t, hrun⟩
  by_cases hr : ∃ w cs rest, r = quoted w ++ rest ∧ Written w cs
  · obtain ⟨w, cs, rest, hr, hw⟩ := hr
    obtain ⟨t, hrun⟩ := hliteral hr hw
    refine ⟨_, t, hrun, fun e a => ⟨fun h => ?_, ?_⟩⟩
    · cases h
      exact ⟨w, cs, rest, hr, hw, rfl, rfl⟩
    · rintro ⟨w', cs', rest', hr', hw', rfl, rfl⟩
      obtain ⟨t', hrun'⟩ := hliteral hr' hw'
      exact (hrun.unique hrun').1
  · obtain ⟨f, t, hrun⟩ :=
      (string_refuses_unquoted (Nat.lt_succ_self _) hr).refuses_comesTo hpos s
    refine ⟨_, t, hrun, fun e a => ⟨nofun, ?_⟩⟩
    rintro ⟨w, cs, rest, hr', hw, -⟩
    exact absurd ⟨w, cs, rest, hr', hw⟩ hr

end Script

end Backtrack
