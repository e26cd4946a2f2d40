import Backtrack.Grapheme
import Backtrack.Proofs.Alternatives
import Backtrack.Proofs.Rest
import Mathlib.Data.List.Basic

/-!
# Clusters partition a text

Where a character is left, a cluster takes one or more, produces them and reports nothing. Where
none is left there is no cluster, and one report says so. So clusters, one after another, reach the
end of a text and leave nothing of it out (`Grapheme.parser_partitions`). This does not depend on
where a cluster ends: it holds for all properties that the characters might have.

- **A character is left**: each part of the grammar comes to something and takes a stretch of the
  text, of one character or more (`Parser.Progresses`). The last choice takes any character, so one
  of them succeeds, and what is reported goes to a sink of its own (`Parser.comesTo_covered`).
- **No character is left** (`Source.NoChar`), at the end of a text, or because the source is not
  one: every character of the grammar is missing, so each part of it fails or takes nothing
  (`Parser.FailsAt`, `Parser.StaysAt`), and the whole fails.
- **Repetition**: each cluster leaves less of the text, until nothing is left.
-/

namespace Backtrack

/-- The states have the same sink, with the same history. -/
structure State.SameSink (s t : State) : Prop where
  sink : t.sink = s.sink
  entries : t.entries = s.entries

namespace State.SameSink

variable {s t u : State}

theorem trans (h : s.SameSink t) (h' : t.SameSink u) : s.SameSink u :=
  ⟨h'.sink.trans h.sink, h'.entries.trans h.entries⟩

/-- The same report goes to the same sink. -/
theorem reported (h : s.SameSink t) (e : Expectation) : (s.reported e).SameSink (t.reported e) := by
  refine ⟨?_, ?_⟩
  · show t.sink.report e = s.sink.report e
    rw [h.sink]
  · show _ :: t.entries = _ :: s.entries
    rw [h.entries]

end State.SameSink

/-- No character is left at the position: the source is not a text, or ends there. -/
def Source.NoChar {σ : Type} (src : Source σ) (pos : Nat) : Prop :=
  ∀ c cs, src.textFrom? pos ≠ some (c :: cs)

variable {σ ι : Type} {τ : ι → Type} {α β : Type}

theorem Source.noChar_of_nil {src : Source σ} {pos : Nat} (h : src.textFrom? pos = some []) :
    src.NoChar pos := by
  intro c cs hchar
  rw [h] at hchar
  cases hchar

/-! ## Where no character is left -/

namespace Parser

variable [BEq σ] [Describe σ] {env : Env σ τ} {pos : Nat}

/-- From every state, the parser fails at the position. -/
def FailsAt (env : Env σ τ) (p : Parser σ τ α) (pos : Nat) : Prop :=
  ∀ s, ∃ e t, p.ComesTo env pos s (.fail e) t

/-- From every state, the parser succeeds at the position and does not advance. -/
def StaysAt (env : Env σ τ) (p : Parser σ τ α) (pos : Nat) : Prop :=
  ∀ s, ∃ a t, p.ComesTo env pos s (.ok pos a) t

namespace FailsAt

theorem charWith {accept : Char → Bool} (h : env.source.NoChar pos) :
    (Parser.charWith accept : Parser σ τ Char).FailsAt env pos := by
  intro s
  refine ⟨pos, s.reported (.unknown pos), .of_run (n := 1) ?_⟩
  rw [run, charWhere]
  cases hrest : env.source.textFrom? pos with
  | none => exact Act.mismatch_apply pos s
  | some r =>
    cases r with
    | nil => exact Act.mismatch_apply pos s
    | cons c cs => exact (h c cs hrest).elim

theorem map {p : Parser σ τ α} {f : α → β} (h : p.FailsAt env pos) :
    (p.map f).FailsAt env pos := by
  intro s
  obtain ⟨e, t, hp⟩ := h s
  exact ⟨e, t, comesTo_map.mpr ⟨_, hp, rfl⟩⟩

theorem andThen {p : Parser σ τ α} {q : Parser σ τ β} (h : p.FailsAt env pos) :
    (p.andThen q).FailsAt env pos := by
  intro s
  obtain ⟨e, t, hp⟩ := h s
  exact ⟨e, t, comesTo_andMap.mpr (.inr ⟨e, hp, rfl⟩)⟩

/-- What takes nothing is passed over. -/
theorem behind {p : Parser σ τ α} {q : Parser σ τ β} (hp : p.StaysAt env pos)
    (hq : q.FailsAt env pos) : (p.andThen q).FailsAt env pos := by
  intro s
  obtain ⟨a, u, hp⟩ := hp s
  obtain ⟨e, t, hq⟩ := hq u
  exact ⟨e, t, comesTo_andMap.mpr (.inl ⟨pos, a, u, _, hp, hq, rfl⟩)⟩

theorem choiceOf {ps : List (Parser σ τ α)} (hne : ps ≠ []) (h : ∀ p ∈ ps, p.FailsAt env pos) :
    (Parser.choiceOf ps).FailsAt env pos := by
  have htries : ∀ s, ∃ t, Tries env pos s ps (.fail pos) t := by
    clear hne
    induction ps with
    | nil => exact fun s => ⟨s, .none⟩
    | cons p ps ih =>
      intro s
      rw [List.forall_mem_cons] at h
      obtain ⟨e, u, hp⟩ := h.1 s
      obtain ⟨t, hps⟩ := ih h.2 u
      exact ⟨t, .next hp hps⟩
  intro s
  obtain ⟨t, ht⟩ := htries s
  exact ⟨pos, t, (comesTo_choiceOf hne).mpr ht⟩

/-- A parser that fails is repeated no times. -/
theorem repeats {p : Parser σ τ α} (h : p.FailsAt env pos) (s : State) :
    ∃ t, p.Repeats env none pos s [] pos t := by
  obtain ⟨e, t, hp⟩ := h s
  exact ⟨t, repeats_iff.mpr (.inr (.inl ⟨by simp, rfl, rfl, _, hp, nofun⟩))⟩

theorem skipMany {p : Parser σ τ α} (h : p.FailsAt env pos) :
    (Grapheme.skipMany p 1).FailsAt env pos := by
  intro s
  obtain ⟨t, hp⟩ := h.repeats s
  refine ⟨pos, t.missed pos, comesTo_manyAccum.mpr ⟨[], pos, t, hp, ?_⟩⟩
  exact atLeast_eq_some.mpr (.inr ⟨Nat.one_pos, rfl, rfl⟩)

end FailsAt

theorem StaysAt.skipMany {p : Parser σ τ α} (h : p.FailsAt env pos) :
    (Grapheme.skipMany p 0).StaysAt env pos := by
  intro s
  obtain ⟨t, hp⟩ := h.repeats s
  refine ⟨(), t, comesTo_manyAccum.mpr ⟨[], pos, t, hp, ?_⟩⟩
  exact atLeast_eq_some.mpr (.inl ⟨Nat.le_refl 0, rfl, rfl⟩)

end Parser

/-! ## Where a character is left -/

namespace Parser

variable {env : Env Char τ} {pos : Nat}

/-- Wherever text is left, the parser comes to something from every state, and if it succeeds it
takes `k` characters or more of that text. -/
def Progresses (env : Env Char τ) (k : Nat) (p : Parser Char τ α) : Prop :=
  ∀ pos r, env.source.textFrom? pos = some r → ∀ s, ∃ o t, p.ComesTo env pos s o t ∧
    ∀ e a, o = .ok e a → ∃ w back, r = w ++ back ∧ k ≤ w.length ∧ e = pos + bytes w

/-- Where a character is left that is acceptable, it is taken. -/
theorem comesTo_charWith {accept : Char → Bool} {c : Char} {cs : List Char}
    (hpos : env.source.textFrom? pos = some (c :: cs)) (hc : accept c = true) (s : State) :
    (charWith accept : Parser Char τ Char).ComesTo env pos s (.ok (pos + c.utf8Size) c) s := by
  refine .of_run (n := 1) ?_
  rw [run, charWhere, hpos]
  simp only [if_pos hc]
  rfl

namespace Progresses

variable {j k : Nat} {p : Parser Char τ α}

theorem of_le (h : p.Progresses env k) (hjk : j ≤ k) : p.Progresses env j := by
  intro pos r hpos s
  obtain ⟨o, t, hp, hprogress⟩ := h pos r hpos s
  refine ⟨o, t, hp, fun e a ho => ?_⟩
  obtain ⟨w, back, hr, hk, he⟩ := hprogress e a ho
  exact ⟨w, back, hr, Nat.le_trans hjk hk, he⟩

theorem charWith (accept : Char → Bool) :
    (Parser.charWith accept : Parser Char τ Char).Progresses env 1 := by
  intro pos r hpos s
  by_cases h : ∃ c cs, r = c :: cs ∧ accept c = true
  · obtain ⟨c, cs, rfl, hc⟩ := h
    refine ⟨_, s, comesTo_charWith hpos hc s, fun e a ho => ?_⟩
    obtain ⟨rfl, rfl⟩ := Outcome.ok.inj ho
    exact ⟨[c], cs, rfl, Nat.le_refl 1, rfl⟩
  · refine ⟨.fail pos, s.reported (.unknown pos), .of_run (n := 1) ?_, nofun⟩
    rw [run, charWhere, hpos]
    cases r with
    | nil => exact Act.mismatch_apply pos s
    | cons c cs =>
      have hc : ¬accept c = true := fun hc => h ⟨c, cs, rfl, hc⟩
      simp only [if_neg hc]
      exact Act.mismatch_apply pos s

theorem map (h : p.Progresses env k) (f : α → β) : (p.map f).Progresses env k := by
  intro pos r hpos s
  obtain ⟨o, t, hp, hprogress⟩ := h pos r hpos s
  refine ⟨o.map f, t, comesTo_map.mpr ⟨o, hp, rfl⟩, fun e b ho => ?_⟩
  cases o with
  | fail f => cases ho
  | ok e a =>
    cases ho
    exact hprogress e a rfl

/-- One stretch behind the other. -/
theorem andThen {q : Parser Char τ β} (hp : p.Progresses env j) (hq : q.Progresses env k) :
    (p.andThen q).Progresses env (j + k) := by
  intro pos r hpos s
  obtain ⟨o, u, hp, hprogress⟩ := hp pos r hpos s
  cases o with
  | fail f => exact ⟨.fail f, u, comesTo_andMap.mpr (.inr ⟨f, hp, rfl⟩), nofun⟩
  | ok e a =>
    obtain ⟨w, rest, rfl, hj, rfl⟩ := hprogress e a rfl
    obtain ⟨o, t, hq, hprogress⟩ := hq _ _ (Source.textFrom?_move hpos) u
    refine ⟨_, t, comesTo_andMap.mpr (.inl ⟨_, a, u, o, hp, hq, rfl⟩), fun e b ho => ?_⟩
    cases o with
    | fail f => cases ho
    | ok e b =>
      cases ho
      obtain ⟨v, back, rfl, hk, rfl⟩ := hprogress e b rfl
      refine ⟨w ++ v, back, (List.append_assoc w v back).symm, ?_, ?_⟩
      · rw [List.length_append]
        exact Nat.add_le_add hj hk
      · rw [bytes_append, Nat.add_assoc]

theorem choiceOf {ps : List (Parser Char τ α)} (hne : ps ≠ []) (h : ∀ p ∈ ps, p.Progresses env k) :
    (Parser.choiceOf ps).Progresses env k := by
  have htries : ∀ pos r, env.source.textFrom? pos = some r → ∀ s, ∃ o t, Tries env pos s ps o t ∧
      ∀ e a, o = .ok e a → ∃ w back, r = w ++ back ∧ k ≤ w.length ∧ e = pos + bytes w := by
    clear hne
    intro pos r hpos s
    induction ps generalizing s with
    | nil => exact ⟨.fail pos, s, .none, nofun⟩
    | cons p ps ih =>
      rw [List.forall_mem_cons] at h
      obtain ⟨o, u, hp, hprogress⟩ := h.1 pos r hpos s
      cases o with
      | ok e a => exact ⟨.ok e a, u, .found hp, hprogress⟩
      | fail f =>
        obtain ⟨o, t, hps, hprogress⟩ := ih h.2 u
        exact ⟨o, t, .next hp hps, hprogress⟩
  intro pos r hpos s
  obtain ⟨o, t, ht, hprogress⟩ := htries pos r hpos s
  exact ⟨o, t, (comesTo_choiceOf hne).mpr ht, hprogress⟩

/-- Repeated, the parser takes a character or more each time, and so it stops. -/
theorem repeats {p : Parser Char τ α} (h : p.Progresses env 1) {r : List Char}
    (hpos : env.source.textFrom? pos = some r) (s : State) :
    ∃ as e t w back, p.Repeats env none pos s as e t ∧ r = w ++ back ∧ as.length ≤ w.length ∧
      e = pos + bytes w := by
  induction hn : r.length using Nat.strong_induction_on generalizing pos r s with
  | _ n ih =>
    subst hn
    obtain ⟨o, u, hp, hprogress⟩ := h pos r hpos s
    cases o with
    | fail f =>
      exact ⟨[], pos, u, [], r, repeats_iff.mpr (.inr (.inl ⟨nofun, rfl, rfl, _, hp, nofun⟩)), rfl,
        Nat.le_refl 0, rfl⟩
    | ok e a =>
      obtain ⟨w, rest, rfl, hw, rfl⟩ := hprogress e a rfl
      have hne : w ≠ [] := List.ne_nil_of_length_pos hw
      have hahead : pos < pos + bytes w :=
        Nat.lt_add_of_pos_right (Nat.pos_of_ne_zero fun h => hne (bytes_eq_zero.mp h))
      have hshorter : rest.length < (w ++ rest).length := by
        rw [List.length_append]
        exact Nat.lt_add_of_pos_left hw
      obtain ⟨as, e, t, v, back, hrest, rfl, hv, rfl⟩ :=
        ih rest.length hshorter (Source.textFrom?_move hpos) u rfl
      refine ⟨a :: as, _, t, w ++ v, back, repeats_iff.mpr
        (.inr (.inr ⟨nofun, _, a, u, as, hp, hahead, hrest, rfl⟩)), ?_, ?_, ?_⟩
      · exact (List.append_assoc w v back).symm
      · rw [List.length_cons, List.length_append]
        omega
      · rw [bytes_append, Nat.add_assoc]

theorem skipMany {p : Parser Char τ α} (h : p.Progresses env 1) (min : Nat) :
    (Grapheme.skipMany p min).Progresses env min := by
  intro pos r hpos s
  obtain ⟨as, e, t, w, back, hrepeats, rfl, hlength, rfl⟩ := h.repeats hpos s
  by_cases hmin : min ≤ as.length
  · have hcomes : (Grapheme.skipMany p min).ComesTo env pos s (.ok (pos + bytes w) _) t :=
      comesTo_manyAccum.mpr ⟨as, _, t, hrepeats, atLeast_eq_some.mpr (.inl ⟨hmin, rfl, rfl⟩)⟩
    refine ⟨_, t, hcomes, fun e a ho => ?_⟩
    obtain ⟨rfl, -⟩ := Outcome.ok.inj ho
    exact ⟨w, back, rfl, Nat.le_trans hmin hlength, rfl⟩
  · have hcomes :
        (Grapheme.skipMany p min).ComesTo env pos s (.fail (pos + bytes w)) (t.missed _) :=
      comesTo_manyAccum.mpr ⟨as, _, t, hrepeats,
        atLeast_eq_some.mpr (.inr ⟨Nat.lt_of_not_le hmin, rfl, rfl⟩)⟩
    exact ⟨_, _, hcomes, nofun⟩

end Progresses

/-- Where all alternatives fail, each of them fails from some state. -/
theorem Tries.exists_fail {ps : List (Parser Char τ α)} {s t : State} {f : Nat}
    (h : Tries env pos s ps (.fail f) t) {p : Parser Char τ α} (hp : p ∈ ps) :
    ∃ u g v, p.ComesTo env pos u (.fail g) v := by
  generalize ho : (.fail f : Outcome α) = o at h
  induction h with
  | none => cases hp
  | found => cases ho
  | next hrun _ ih =>
    rcases List.mem_cons.mp hp with rfl | hp
    · exact ⟨_, _, _, hrun⟩
    · exact ih hp ho

end Parser

namespace Grapheme

open Backtrack.Parser (FailsAt StaysAt Progresses)
open Properties

section NoChar

variable [BEq σ] [Describe σ] {env : Env σ τ} {pos : Nat} (P : Properties)

theorem one_fails (h : env.source.NoChar pos) (accept : Char → Bool) :
    (one accept : Parser σ τ Unit).FailsAt env pos :=
  (FailsAt.charWith h).map

theorem lineBreak_fails (h : env.source.NoChar pos) :
    (lineBreak P : Parser σ τ Unit).FailsAt env pos := by
  refine .choiceOf (List.cons_ne_nil _ _) ?_
  simp only [List.forall_mem_cons]
  exact ⟨(one_fails h _).andThen, one_fails h _, one_fails h _, nofun⟩

theorem syllableVowel_fails (h : env.source.NoChar pos) :
    (syllableVowel P : Parser σ τ Unit).FailsAt env pos := by
  refine .choiceOf (List.cons_ne_nil _ _) ?_
  simp only [List.forall_mem_cons]
  exact ⟨(one_fails h _).skipMany, (one_fails h _).andThen, one_fails h _, nofun⟩

theorem hangulSyllable_fails (h : env.source.NoChar pos) :
    (hangulSyllable P : Parser σ τ Unit).FailsAt env pos := by
  have hwhole : ((skipMany (one (P.breakIn [.leadingJamo])) 0).andThen <|
      (syllableVowel P).andThen (skipMany (one (P.breakIn [.trailingJamo])) 0) :
        Parser σ τ Unit).FailsAt env pos :=
    .behind (.skipMany (one_fails h _)) (syllableVowel_fails P h).andThen
  refine .choiceOf (List.cons_ne_nil _ _) ?_
  simp only [List.forall_mem_cons]
  exact ⟨hwhole, (one_fails h _).skipMany, (one_fails h _).skipMany, nofun⟩

theorem core_fails (h : env.source.NoChar pos) : (core P : Parser σ τ Unit).FailsAt env pos := by
  refine .choiceOf (List.cons_ne_nil _ _) ?_
  simp only [List.forall_mem_cons]
  exact ⟨hangulSyllable_fails P h, (one_fails h _).andThen, (one_fails h _).andThen,
    (one_fails h _).andThen, one_fails h _, nofun⟩

theorem extended_fails (h : env.source.NoChar pos) :
    (extended P : Parser σ τ Unit).FailsAt env pos :=
  .behind (.skipMany (one_fails h _)) (core_fails P h).andThen

theorem cluster_fails (h : env.source.NoChar pos) :
    (cluster P : Parser σ τ Unit).FailsAt env pos := by
  refine .choiceOf (List.cons_ne_nil _ _) ?_
  simp only [List.forall_mem_cons]
  exact ⟨lineBreak_fails P h, one_fails h _, extended_fails P h, (FailsAt.charWith h).map, nofun⟩

/-- Without a character there is no cluster. -/
theorem parser_fails (h : env.source.NoChar pos) (s : State) :
    ∃ t, (parser P : Parser σ τ String).ComesTo env pos s (.fail pos) t ∧
      (s.reported (.unknown pos)).SameSink t := by
  obtain ⟨e, u, hcluster⟩ := cluster_fails P h { s with sink := .empty, entries := [] }
  exact ⟨_, Parser.comesTo_covered.mpr ⟨_, u, hcluster, .inr ⟨nofun, rfl, rfl⟩⟩, rfl, rfl⟩

end NoChar

/-! ## Where a character is left -/

section Progresses

variable {env : Env Char τ} {pos : Nat} {r : List Char} (P : Properties)

theorem one_progresses (accept : Char → Bool) :
    (one accept : Parser Char τ Unit).Progresses env 1 := (Progresses.charWith accept).map _

theorem ones_progresses (accept : Char → Bool) (min : Nat) :
    (skipMany (one accept) min : Parser Char τ Unit).Progresses env min :=
  (one_progresses accept).skipMany min

theorem lineBreak_progresses : (lineBreak P : Parser Char τ Unit).Progresses env 1 := by
  refine .choiceOf (List.cons_ne_nil _ _) ?_
  simp only [List.forall_mem_cons]
  exact ⟨((one_progresses _).andThen (one_progresses _)).of_le (by decide), one_progresses _,
    one_progresses _, nofun⟩

theorem syllableVowel_progresses : (syllableVowel P : Parser Char τ Unit).Progresses env 1 := by
  refine .choiceOf (List.cons_ne_nil _ _) ?_
  simp only [List.forall_mem_cons]
  exact ⟨ones_progresses _ 1, (one_progresses _).andThen (ones_progresses _ 0), one_progresses _,
    nofun⟩

theorem hangulSyllable_progresses : (hangulSyllable P : Parser Char τ Unit).Progresses env 1 := by
  refine .choiceOf (List.cons_ne_nil _ _) ?_
  simp only [List.forall_mem_cons]
  exact ⟨(ones_progresses _ 0).andThen ((syllableVowel_progresses P).andThen (ones_progresses _ 0)),
    ones_progresses _ 1, ones_progresses _ 1, nofun⟩

theorem flag_progresses : (flag P : Parser Char τ Unit).Progresses env 2 :=
  (one_progresses _).andThen (one_progresses _)

theorem pictographs_progresses : (pictographs P : Parser Char τ Unit).Progresses env 1 := by
  have hjoined : (joinedPictograph P : Parser Char τ Unit).Progresses env 2 :=
    (ones_progresses _ 0).andThen ((one_progresses _).andThen (one_progresses _))
  exact (one_progresses _).andThen ((hjoined.of_le (by decide)).skipMany 0)

theorem conjunct_progresses : (conjunct P : Parser Char τ Unit).Progresses env 2 := by
  have hlinked : (linkedConsonant P : Parser Char τ Unit).Progresses env 2 :=
    (ones_progresses _ 0).andThen
      ((one_progresses _).andThen ((ones_progresses _ 0).andThen (one_progresses _)))
  exact (one_progresses _).andThen ((hlinked.of_le (by decide)).skipMany 1)

theorem core_progresses : (core P : Parser Char τ Unit).Progresses env 1 := by
  refine .choiceOf (List.cons_ne_nil _ _) ?_
  simp only [List.forall_mem_cons]
  exact ⟨hangulSyllable_progresses P, (flag_progresses P).of_le (by decide),
    pictographs_progresses P, (conjunct_progresses P).of_le (by decide), one_progresses _, nofun⟩

theorem extended_progresses : (extended P : Parser Char τ Unit).Progresses env 1 :=
  (ones_progresses _ 0).andThen ((core_progresses P).andThen (ones_progresses _ 0))

theorem cluster_progresses : (cluster P : Parser Char τ Unit).Progresses env 1 := by
  refine .choiceOf (List.cons_ne_nil _ _) ?_
  simp only [List.forall_mem_cons]
  exact ⟨lineBreak_progresses P, one_progresses _, extended_progresses P,
    (Progresses.charWith _).map _, nofun⟩

/-- Any character is taken by the last choice. -/
theorem not_cluster_fails (hpos : env.source.textFrom? pos = some r) (hr : r ≠ []) {s t : State}
    {f : Nat} : ¬(cluster P : Parser Char τ Unit).ComesTo env pos s (.fail f) t := by
  intro hfail
  obtain ⟨c, cs, rfl⟩ := List.exists_cons_of_ne_nil hr
  have htries := (Parser.comesTo_choiceOf (List.cons_ne_nil _ _)).mp hfail
  obtain ⟨u, g, v, hchar⟩ :=
    htries.exists_fail (p := Parser.char.withValue ()) (by simp)
  have hok : (Parser.char : Parser Char τ Char).ComesTo env pos u (.ok (pos + c.utf8Size) c) u :=
    Parser.comesTo_charWith hpos rfl u
  have hmap := Parser.comesTo_map (f := fun _ => ()).mpr ⟨_, hok, rfl⟩
  cases (hchar.unique hmap).1

/-- A cluster takes the first characters that are left, one or more, and produces them. -/
theorem parser_takes (hpos : env.source.textFrom? pos = some r) (hr : r ≠ []) (s : State) :
    ∃ w back t, w ≠ [] ∧ r = w ++ back ∧
      (parser P : Parser Char τ String).ComesTo env pos s (.ok (pos + bytes w) (.ofList w)) t ∧
      s.SameSink t := by
  obtain ⟨o, u, hcluster, hprogress⟩ :=
    cluster_progresses P pos r hpos { s with sink := .empty, entries := [] }
  cases o with
  | fail f => exact absurd hcluster (not_cluster_fails P hpos hr)
  | ok e a =>
    obtain ⟨w, back, rfl, hw, rfl⟩ := hprogress e a rfl
    have htext := Source.textBetween?_of_textFrom? hpos (Source.textFrom?_move hpos)
    refine ⟨w, back, { s with built := u.built }, List.ne_nil_of_length_pos hw, rfl, ?_, rfl, rfl⟩
    exact Parser.comesTo_covered.mpr ⟨_, u, hcluster, .inl ⟨_, a, w, rfl, htext, rfl, rfl⟩⟩

end Progresses

/-! ## Repetition -/

variable {env : Env Char τ} {P : Properties} {pos : Nat} {r : List Char}

/-- Clusters one after another take all that is left. -/
theorem parser_repeats (hpos : env.source.textFrom? pos = some r) (s : State) :
    ∃ ws t, (parser P : Parser Char τ String).Repeats env none pos s ws (pos + bytes r) t ∧
      ws.flatMap String.toList = r ∧ (s.reported (.unknown (pos + bytes r))).SameSink t := by
  induction hn : r.length using Nat.strong_induction_on generalizing pos r s with
  | _ n ih =>
    subst hn
    by_cases hr : r = []
    · subst hr
      obtain ⟨t, hfail, hsame⟩ := parser_fails P (Source.noChar_of_nil hpos) s
      refine ⟨[], t, Parser.repeats_iff.mpr (.inr (.inl ⟨by simp, rfl, rfl, ?_⟩)), rfl, hsame⟩
      exact ⟨_, hfail, nofun⟩
    · -- The next cluster is not empty, and what is left behind it is shorter.
      obtain ⟨w, back, u, hw, rfl, htake, hsame⟩ := parser_takes P hpos hr s
      have hshorter : back.length < (w ++ back).length := by
        rw [List.length_append]
        exact Nat.lt_add_of_pos_left (List.length_pos_of_ne_nil hw)
      obtain ⟨ws, t, hrest, hjoin, hsame'⟩ :=
        ih back.length hshorter (Source.textFrom?_move hpos) u rfl
      rw [Nat.add_assoc, ← bytes_append] at hrest hsame'
      refine ⟨.ofList w :: ws, t, ?_, ?_, (hsame.reported _).trans hsame'⟩
      · have hahead : pos < pos + bytes w :=
          Nat.lt_add_of_pos_right (Nat.pos_of_ne_zero fun h => hw (bytes_eq_zero.mp h))
        exact Parser.repeats_iff.mpr
          (.inr (.inr ⟨by simp, _, _, u, ws, htake, hahead, hrest, rfl⟩))
      · rw [List.flatMap_cons, hjoin, String.toList_ofList]

/-- Clusters partition a text, whatever the properties of its characters are. There is one wherever
something is left of the text, it is the text from there to its end, and nothing is reported;
repeated, they are all of the text that is left. At the end of a text, and on a source that is not
one, there is none, which makes one report. -/
theorem parser_partitions (P : Properties) :
    (∀ {ι : Type} {τ : ι → Type} (env : Env Char τ) (cs : List Char), env.source = .text cs →
      ∀ pos, env.source.IsBoundary pos → ∀ s : State,
      (∃ o t, (parser P : Parser Char τ String).ComesTo env pos s o t ∧
        ((pos = env.source.len ∧ o = .fail pos ∧ (s.reported (.unknown pos)).SameSink t) ∨
          (pos < env.source.len ∧ ∃ w, w ≠ [] ∧ o = .ok (pos + bytes w) (.ofList w) ∧
            env.source.textBetween? pos (pos + bytes w) = some w ∧
            env.source.IsBoundary (pos + bytes w) ∧ s.SameSink t))) ∧
      ∃ ws t, ((parser P : Parser Char τ String).many {}).ComesTo env pos s
          (.ok env.source.len ws) t ∧
        env.source.textBetween? pos env.source.len = some (String.join ws).toList ∧
        (s.reported (.unknown env.source.len)).SameSink t) ∧
    ∀ {σ ι : Type} {τ : ι → Type} [BEq σ] [Describe σ] (env : Env σ τ),
      env.source.text? = none → ∀ pos (s : State), ∃ t,
        (parser P : Parser σ τ String).ComesTo env pos s (.fail pos) t ∧
        (s.reported (.unknown pos)).SameSink t := by
  constructor
  · intro ι τ env cs hsource pos hboundary s
    obtain ⟨r, hpos⟩ : ∃ r, env.source.textFrom? pos = some r := by
      rw [hsource] at hboundary ⊢
      exact Option.isSome_iff_exists.mp (Source.isBoundary_iff_rest?.mp hboundary)
    have hlen := Source.len_of_textFrom? hpos
    constructor
    · by_cases hr : r = []
      · subst hr
        obtain ⟨t, hfail, hsame⟩ := parser_fails P (Source.noChar_of_nil hpos) s
        exact ⟨_, t, hfail, .inl ⟨hlen.symm, rfl, hsame⟩⟩
      · obtain ⟨w, back, t, hw, rfl, htake, hsame⟩ := parser_takes P hpos hr s
        have hend := Source.textFrom?_move hpos
        have hahead : 0 < bytes (w ++ back) :=
          Nat.pos_of_ne_zero fun h => hr (bytes_eq_zero.mp h)
        refine ⟨_, t, htake, .inr ⟨by omega, w, hw, rfl, ?_, ?_, hsame⟩⟩
        · exact Source.textBetween?_of_textFrom? hpos hend
        · exact Source.isBoundary_of_textFrom? hend
    · obtain ⟨ws, t, hrepeats, hjoin, hsame⟩ := parser_repeats (P := P) hpos s
      rw [← hlen] at hrepeats hsame
      refine ⟨ws, t, Parser.comesTo_many.mpr ⟨ws, _, t, hrepeats, ?_⟩, ?_, hsame⟩
      · exact atLeast_eq_some.mpr (.inl ⟨Nat.zero_le _, rfl, rfl⟩)
      · have hall : env.source.textFrom? pos = some (r ++ []) := by rw [hpos, List.append_nil]
        have hend := Source.textFrom?_move hall
        rw [← hlen] at hend
        rw [Source.textBetween?_of_textFrom? hall hend, String.toList_join, hjoin]
  · intro σ ι τ _ _ env hsource pos s
    refine parser_fails P (fun c cs hchar => ?_) s
    rw [Source.textFrom?, hsource] at hchar
    cases hchar

/-- Two clusters of three characters, and the same characters as a list of items. -/
theorem parser_partitions_accented :
    let cs := ['e', '\u0301', 'a']
    let env : Env Char (Empty.elim : Empty → Type) := Env.bare (.text cs)
    (env.source.IsBoundary 0 ∧ (Source.items cs).text? = none) ∧
      (∃ ws t, ((parser .unicode : Parser Char (Empty.elim : Empty → Type) String).many {}).ComesTo
        env 0 {} (.ok 4 ws) t ∧ (String.join ws).toList = cs ∧
          t.sink = .reached 4 [.unknown 4]) ∧
      ∃ t, (parser .unicode : Parser Char (Empty.elim : Empty → Type) String).ComesTo
        (Env.bare (.items cs)) 0 {} (.fail 0) t ∧ t.sink = .reached 0 [.unknown 0] := by
  intro cs env
  have hpos : env.source.IsBoundary 0 := Source.isBoundary_zero _
  have hitems : (Source.items cs).text? = none := rfl
  refine ⟨⟨hpos, hitems⟩, ?_, ?_⟩
  · obtain ⟨-, ws, t, hmany, htext, hsame⟩ := (parser_partitions .unicode).1 env cs rfl 0 hpos {}
    refine ⟨ws, t, hmany, ?_, hsame.sink⟩
    have hall : env.source.textBetween? 0 env.source.len = some cs := by decide
    exact (Option.some.inj (hall.symm.trans htext)).symm
  · obtain ⟨t, hfail, hsame⟩ := (parser_partitions .unicode).2 (Env.bare (.items cs)) hitems 0 {}
    exact ⟨t, hfail, hsame.sink⟩

end Grapheme

end Backtrack
