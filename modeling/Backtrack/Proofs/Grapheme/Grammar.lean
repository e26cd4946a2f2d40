import Backtrack.Proofs.Grapheme.Kinds
import Backtrack.Proofs.Rest

/-!
# What the grammar of grapheme clusters takes

For each part of the grammar, what it takes from the rest of a text, and what is known of the text
where it fails. All parsers of the grammar but the last have no value: `Parser.Skips` says what
holds of what they leave, and of a failure. What is taken as a core is one (`core_skips`).
-/

namespace Backtrack

variable {ι : Type} {τ : ι → Type} {env : Env Char τ}

/-! ## Parsers without a value -/

/-- Where `r` is left, the parser succeeds and `D` holds of what it leaves, or it fails and `N`
holds. -/
abbrev Parser.Skips (env : Env Char τ) (n : Nat) (p : Parser Char τ Unit) (r : List Char)
    (D : List Char → Prop) (N : Prop) : Prop :=
  p.OnRest env n r fun
    | some (_, s) => D s
    | none => N

/-- What `Parser.Skips` says of a parser, for a list of alternatives. -/
abbrev Parser.SkipsOne (env : Env Char τ) (n : Nat) (ps : List (Parser Char τ Unit))
    (r : List Char) (D : List Char → Prop) (N : Prop) : Prop :=
  (Parsers.ofList ps).OnRest env n r fun
    | some (_, s) => D s
    | none => N

namespace Parser

variable {n m : Nat} {p q : Parser Char τ Unit} {ps : List (Parser Char τ Unit)} {r : List Char}
  {D D' : List Char → Prop} {N N' : Prop}

theorem Skips.imp (h : p.Skips env n r D N) (hD : ∀ s, D s → D' s) (hN : N → N') :
    p.Skips env n r D' N' := by
  refine OnRest.imp h fun x hx => ?_
  cases x with
  | none => exact hN hx
  | some x => exact hD x.2 hx

theorem Skips.andThen (hnm : n < m) (h : p.Skips env n r D N)
    (hq : ∀ s, D s → q.Skips env n s D' N') (hN : N → N') : (p.andThen q).Skips env m r D' N' := by
  refine OnRest.andThen hnm (OnRest.imp h fun x hx => ?_)
  cases x with
  | none => exact hN hx
  | some x => exact hq x.2 hx

theorem SkipsOne.nil (h : N) : SkipsOne env n [] r D N := Parsers.OnRest.nil h

theorem SkipsOne.cons (h : p.Skips env n r D' N') (hD : ∀ s, D' s → D s)
    (hN : N' → SkipsOne env n ps r D N) : SkipsOne env n (p :: ps) r D N := by
  refine Parsers.OnRest.cons (OnRest.imp h fun x hx => ?_)
  cases x with
  | none => exact hN hx
  | some x => exact hD x.2 hx

theorem SkipsOne.choiceOf (hnm : n < m) (h : SkipsOne env n (p :: ps) r D N) :
    (Parser.choiceOf (p :: ps)).Skips env m r D N :=
  OnRest.choice hnm h

end Parser

namespace Grapheme

open Backtrack.Parser (Skips SkipsOne)
open Unicode (GraphemeBreak ConjunctBreak)
open Properties

variable {P : Properties} {accept : Char → Bool} {n m : Nat} {r s w : List Char} {c d : Char}

theorem bytes_le_of_append (h : r = w ++ s) : bytes s ≤ bytes r := by
  rw [h, bytes_append]
  exact Nat.le_add_left _ _

/-! ## Characters -/

theorem one_skips (hm : 1 < m) : (one accept).Skips env m r
    (fun s => ∃ c, r = c :: s ∧ accept c = true) (∀ c ∈ r.head?, accept c = false) :=
  .map hm (.charWith Nat.one_pos (fun c _ hr hc => ⟨c, hr, hc⟩) id)

/-- Repetition of one character takes the run of them that is there. -/
theorem run_skips {min : Nat} (hm : bytes r + 3 ≤ m) : (skipMany (one accept) min).Skips env m r
    (fun s => ∃ w, IsRun accept r w s ∧ min ≤ w.length)
    (∃ w s, IsRun accept r w s ∧ w.length < min) := by
  refine .manyAccum (n := m - 1) (by omega) (by omega)
    (I := fun count s => ∃ w, r = w ++ s ∧ (∀ c ∈ w, accept c = true) ∧ w.length = count)
    (J := fun count s => ∃ w, IsRun accept r w s ∧ w.length = count)
    (fun count s hs ⟨w, hr, hw, hcount⟩ => ?_) ⟨[], rfl, nofun, rfl⟩ ?_ ?_
  · refine Parser.OnRest.imp (one_skips (by omega)) fun x hx => ?_
    cases x with
    | none => exact ⟨w, ⟨hr, hw, hx⟩, hcount⟩
    | some x =>
      obtain ⟨c, rfl, hc⟩ := hx
      refine ⟨⟨w ++ [c], by simp [hr], ?_, by simp [hcount]⟩, ?_⟩
      · simpa [or_imp, forall_and] using ⟨hw, hc⟩
      · rw [bytes_cons]
        exact Nat.lt_add_of_pos_left c.utf8Size_pos
  · rintro _ s _ ⟨w, hw, rfl⟩ hmin
    exact ⟨w, hw, hmin⟩
  · rintro _ s ⟨w, hw, rfl⟩ hmin
    exact ⟨w, s, hw, hmin⟩

theorem all_skips (hm : bytes r + 3 ≤ m) : (skipMany (one accept) 0).Skips env m r
    (fun s => ∃ w, IsRun accept r w s) False :=
  (run_skips hm).imp (fun _ ⟨w, hw, _⟩ => ⟨w, hw⟩) fun ⟨_, _, _, hmin⟩ => Nat.not_lt_zero _ hmin

theorem some_skips (hm : bytes r + 3 ≤ m) : (skipMany (one accept) 1).Skips env m r
    (fun s => ∃ w, IsRun accept r w s ∧ w ≠ []) (∀ c ∈ r.head?, accept c = false) := by
  refine (run_skips hm).imp (fun s ⟨w, hw, hmin⟩ => ⟨w, hw, ?_⟩) fun ⟨w, s, hw, hmin⟩ => ?_
  · exact List.ne_nil_of_length_pos hmin
  · obtain rfl : w = [] := List.eq_nil_of_length_eq_zero (by omega)
    rw [hw.append]
    exact hw.stops

theorem break_skips {g : GraphemeBreak} (hm : 1 < m) : (one (P.breakIn [g])).Skips env m r
    (fun s => ∃ c, r = c :: s ∧ P.breaks c = g) (∀ c ∈ r.head?, P.breaks c ≠ g) :=
  (one_skips hm).imp (fun _ ⟨c, hr, hc⟩ => ⟨c, hr, breakIn_singleton.mp hc⟩) fun hno c hc =>
    breakIn_singleton_eq_false.mp (hno c hc)

/-- Two characters in order. -/
theorem pair_skips {g h : GraphemeBreak} (hm : 2 < m) :
    ((one (P.breakIn [g])).andThen (one (P.breakIn [h]))).Skips env m r
      (fun s => ∃ c d, r = c :: d :: s ∧ P.breaks c = g ∧ P.breaks d = h)
      (∀ c s, r = c :: s → P.breaks c = g → ∀ d ∈ s.head?, P.breaks d ≠ h) := by
  refine .andThen (n := m - 1) (by omega) (break_skips (by omega)) ?_ ?_
  · rintro s ⟨c, rfl, hc⟩
    refine (break_skips (by omega)).imp ?_ ?_
    · rintro t ⟨d, rfl, hd⟩
      exact ⟨c, d, rfl, hc, hd⟩
    · rintro hno c' s' heq -
      obtain ⟨-, rfl⟩ := List.cons.inj heq
      exact hno
  · rintro hno c s rfl hc
    exact (hno c rfl hc).elim

/-! ## Line breaks -/

theorem lineBreak_skips (hm : 3 < m) : (lineBreak P).Skips env m r
    (fun s => r = P.firstCluster r ++ s ∧ ∃ c ∈ r.head?, P.control c = true)
    (∀ c ∈ r.head?, P.breaks c ≠ .carriageReturn ∧ P.breaks c ≠ .lineFeed) := by
  have hcontrol : ∀ c, P.breaks c = .carriageReturn ∨ P.breaks c = .lineFeed →
      P.control c = true := by
    intro c hc
    rw [control_iff]
    rcases hc with hc | hc <;> rw [hc] <;> decide
  refine SkipsOne.choiceOf (n := m - 1) (by omega) (.cons (pair_skips (by omega)) ?_ fun hpair =>
    .cons (break_skips (by omega)) ?_ fun hreturn =>
    .cons (break_skips (by omega)) ?_ fun hfeed => .nil fun c hc => ⟨hreturn c hc, hfeed c hc⟩)
  · rintro s ⟨c, d, rfl, hc, hd⟩
    have hjoined : P.joined [c] d = true := by
      rw [joined, if_pos (by simp [breakIn_singleton, hc, hd])]
    have hfirst : P.firstCluster ([c, d] ++ s) = [c, d] := by
      refine firstCluster_append ⟨rfl, hjoined, trivial⟩ fun x hx => ?_
      exact not_joined_of_control (by simp [hd]) (.inl (hcontrol d (.inr hd)))
    refine ⟨?_, c, rfl, hcontrol c (.inl hc)⟩
    rw [List.cons_append, List.singleton_append] at hfirst
    rw [hfirst]
    rfl
  · rintro s ⟨c, rfl, hc⟩
    have hfirst : P.firstCluster (c :: s) = [c] := firstCluster_cons fun x hx =>
      ⟨.inl (hcontrol c (.inl hc)), fun _ => hpair c s rfl hc x hx⟩
    exact ⟨by rw [hfirst, List.singleton_append], c, rfl, hcontrol c (.inl hc)⟩
  · rintro s ⟨c, rfl, hc⟩
    have hfirst : P.firstCluster (c :: s) = [c] := firstCluster_cons fun x hx =>
      ⟨.inl (hcontrol c (.inr hc)), by simp [hc]⟩
    exact ⟨by rw [hfirst, List.singleton_append], c, rfl, hcontrol c (.inr hc)⟩

/-! ## Syllables -/

theorem syllableVowel_skips (hm : bytes r + 5 ≤ m) : (syllableVowel P).Skips env m r
    (fun s => ∃ v d, r = v ++ s ∧ P.IsVowel v d s)
    (∀ c ∈ r.head?, P.breaks c ∉ [GraphemeBreak.vowelJamo, .syllableLV, .syllableLVT]) := by
  have hopen : ((one (P.breakIn [.syllableLV])).andThen
      (skipMany (one (P.breakIn [.vowelJamo])) 0)).Skips env (m - 1) r
        (fun s => ∃ v d, r = v ++ s ∧ P.IsVowel v d s)
        (∀ c ∈ r.head?, P.breaks c ≠ .syllableLV) := by
    refine .andThen (n := m - 2) (by omega) (break_skips (by omega)) ?_ id
    rintro s ⟨c, rfl, hc⟩
    rw [bytes_cons] at hm
    refine (all_skips (by omega)).imp ?_ False.elim
    rintro t ⟨v, hv⟩
    obtain ⟨d, hvowel⟩ := isVowel_of_open hc hv
    exact ⟨c :: v, d, by rw [hv.append, List.cons_append], hvowel⟩
  refine SkipsOne.choiceOf (n := m - 1) (by omega) (.cons (some_skips (by omega)) ?_ fun hjamo =>
    .cons hopen (fun _ => id) fun hlv => .cons (break_skips (by omega)) ?_ fun hlvt => .nil ?_)
  · rintro s ⟨v, hv, hne⟩
    obtain ⟨d, hvowel⟩ := isVowel_of_jamo hv hne
    exact ⟨v, d, hv.append, hvowel⟩
  · rintro s ⟨c, rfl, hc⟩
    exact ⟨[c], c, rfl, isVowel_of_closed hc s⟩
  · intro c hc
    have hv : P.breaks c ≠ .vowelJamo := breakIn_singleton_eq_false.mp (hjamo c hc)
    simp [hv, hlv c hc, hlvt c hc]

/-- Leading parts, a vowel and trailing parts. -/
theorem wholeSyllable_skips (hP : P.Consistent) (hm : bytes r + 7 ≤ m) :
    ((skipMany (one (P.breakIn [.leadingJamo])) 0).andThen <|
      (syllableVowel P).andThen (skipMany (one (P.breakIn [.trailingJamo])) 0)).Skips env m r
        (fun s => ∃ w d, r = w ++ s ∧ P.IsCore w d s)
        (∃ ls s, IsRun (P.breakIn [.leadingJamo]) r ls s ∧ ∀ c ∈ s.head?,
          P.breaks c ∉ [GraphemeBreak.vowelJamo, .syllableLV, .syllableLVT]) := by
  refine .andThen (n := m - 1) (by omega) (all_skips (by omega)) ?_ False.elim
  rintro s ⟨ls, hls⟩
  have hs := bytes_le_of_append hls.append
  refine .andThen (n := m - 2) (by omega) (syllableVowel_skips (by omega)) ?_ fun hno =>
    ⟨ls, s, hls, hno⟩
  rintro t ⟨v, d, hv, hvowel⟩
  have ht := bytes_le_of_append hv
  refine (all_skips (by omega)).imp ?_ False.elim
  rintro u ⟨ts, hts⟩
  obtain ⟨e, hcore⟩ := isCore_of_vowel hP hls.all_breaks hvowel hts
  exact ⟨_, e, by simp [hls.append, hv, hts.append], hcore⟩

theorem hangulSyllable_skips (hP : P.Consistent) (hm : bytes r + 8 ≤ m) :
    (hangulSyllable P).Skips env m r (fun s => ∃ w d, r = w ++ s ∧ P.IsCore w d s)
      (∀ c ∈ r.head?, P.breaks c ∉ GraphemeBreak.hangul) := by
  refine SkipsOne.choiceOf (n := m - 1) (by omega)
    (.cons (wholeSyllable_skips hP (by omega)) (fun _ => id) fun ⟨ls, s, hls, hvowel⟩ =>
      .cons (some_skips (by omega)) ?_ fun hleading =>
      .cons (some_skips (by omega)) ?_ fun htrailing => .nil ?_)
  · rintro s' ⟨w, hw, hne⟩
    obtain ⟨rfl, rfl⟩ := hw.unique hls
    obtain ⟨d, hcore⟩ := isCore_of_jamo hP (by decide) rfl hw.all_breaks hne fun x hx =>
      GraphemeBreak.inSyllable_of_leading (hw.stops_breaks x hx) (hvowel x hx)
    exact ⟨w, d, hw.append, hcore⟩
  · rintro s' ⟨w, hw, hne⟩
    obtain ⟨d, hcore⟩ := isCore_of_jamo hP (by decide) rfl hw.all_breaks hne fun x hx =>
      GraphemeBreak.inSyllable_of_closed (by decide) (hw.stops_breaks x hx)
    exact ⟨w, d, hw.append, hcore⟩
  · intro c hc
    obtain ⟨-, rfl⟩ := hls.eq_nil hleading
    have hl : P.breaks c ≠ .leadingJamo := breakIn_singleton_eq_false.mp (hleading c hc)
    have ht : P.breaks c ≠ .trailingJamo := breakIn_singleton_eq_false.mp (htrailing c hc)
    have hvowel := hvowel c hc
    rw [GraphemeBreak.hangul]
    grind

/-! ## Pictographs and consonants -/

/-- Repetition of what continues a series continues it as far as it goes. -/
theorem series_skips {p : Parser Char τ Unit} {between : List Char → Prop} {item : Char → Prop}
    {min : Nat} (hmin : min ≤ 1) (hnm : n < m) (hn : bytes r < n) (h : Series between item w d)
    (hp : ∀ s, bytes s ≤ bytes r → p.Skips env n s
      (fun t => ∃ l x, s = l ++ x :: t ∧ between l ∧ item x) (¬ Follows between item s)) :
    (skipMany p min).Skips env m r
      (fun s => ∃ u e, r = u ++ s ∧ Series between item (w ++ u) e ∧ ¬ Follows between item s)
      (0 < min ∧ ¬ Follows between item r) := by
  refine .manyAccum (n := n) hnm hn
    (I := fun count s => ∃ u e, r = u ++ s ∧ Series between item (w ++ u) e ∧ (count = 0 → s = r))
    (J := fun count s => ∃ u e, r = u ++ s ∧ Series between item (w ++ u) e ∧ (count = 0 → s = r) ∧
      ¬ Follows between item s)
    (fun count s hs ⟨u, e, hr, hu, hcount⟩ => ?_) ⟨[], d, rfl, by simpa using h, fun _ => rfl⟩ ?_ ?_
  · refine Parser.OnRest.imp (hp s hs) fun x hx => ?_
    cases x with
    | none => exact ⟨u, e, hr, hu, hcount, hx⟩
    | some y =>
      obtain ⟨l, x, rfl, hl, hx⟩ := hx
      refine ⟨⟨u ++ (l ++ [x]), x, by simp [hr], ?_, nofun⟩, ?_⟩
      · rw [← List.append_assoc]
        exact .link hu hl hx
      · have := x.utf8Size_pos
        rw [bytes_append, bytes_cons]
        omega
  · rintro _ s _ ⟨u, e, hr, hu, -, hs⟩ -
    exact ⟨u, e, hr, hu, hs⟩
  · rintro count s ⟨u, e, hr, hu, hcount, hs⟩ hlt
    rw [hcount (by omega)] at hs
    exact ⟨by omega, hs⟩

/-- What joins another pictograph is a joiner behind the marks that are there. -/
theorem joiner_of_follows {marks : List Char} (hmarks : IsRun (P.breakIn [.extend]) r marks s)
    (h : Follows P.IsJoin (P.pictographic · = true) r) :
    ∃ z x rest, s = z :: x :: rest ∧ P.breaks z = .zeroWidthJoiner ∧ P.pictographic x = true := by
  obtain ⟨_, x, rest, hr, ⟨marks', z, rfl, hmarks', hz⟩, hx⟩ := h
  have hrun : IsRun (P.breakIn [.extend]) r marks' (z :: x :: rest) := by
    refine ⟨by simp [hr], fun e he => breakIn_singleton.mpr (hmarks' e he), fun e he => ?_⟩
    rw [← Option.some.inj he, breakIn_singleton_eq_false, hz]
    decide
  exact ⟨z, x, rest, (hmarks.unique hrun).2, hz, hx⟩

theorem joinedPictograph_skips (hm : bytes r + 5 ≤ m) : (joinedPictograph P).Skips env m r
    (fun t => ∃ l x, r = l ++ x :: t ∧ P.IsJoin l ∧ P.pictographic x = true)
    (¬ Follows P.IsJoin (P.pictographic · = true) r) := by
  refine .andThen (n := m - 1) (by omega) (all_skips (by omega)) ?_ False.elim
  rintro s ⟨marks, hmarks⟩
  refine .andThen (n := m - 2) (by omega) (break_skips (by omega)) ?_ fun hno hyes => ?_
  · rintro t ⟨z, rfl, hz⟩
    refine (one_skips (by omega)).imp ?_ fun hno hyes => ?_
    · rintro u ⟨x, rfl, hx⟩
      exact ⟨marks ++ [z], x, by simp [hmarks.append], ⟨marks, z, rfl, hmarks.all_breaks, hz⟩, hx⟩
    · obtain ⟨z', x, rest, heq, -, hx⟩ := joiner_of_follows hmarks hyes
      obtain ⟨-, rfl⟩ := List.cons.inj heq
      exact Bool.false_ne_true ((hno x rfl).symm.trans hx)
  · obtain ⟨z, x, rest, rfl, hz, -⟩ := joiner_of_follows hmarks hyes
    exact hno z rfl hz

theorem pictographs_skips (hm : bytes r + 7 ≤ m) : (pictographs P).Skips env m r
    (fun s => ∃ w d, r = w ++ s ∧ Series P.IsJoin (P.pictographic · = true) w d ∧
      ¬ Follows P.IsJoin (P.pictographic · = true) s)
    (∀ c ∈ r.head?, P.pictographic c = false) := by
  refine .andThen (n := m - 1) (by omega) (one_skips (by omega)) ?_ id
  rintro s ⟨c, rfl, hc⟩
  rw [bytes_cons] at hm
  refine (series_skips (n := m - 2) (by omega) (by omega) (by omega) (.one hc)
    fun t ht => joinedPictograph_skips (by omega)).imp ?_ fun h => (Nat.lt_irrefl 0 h.1).elim
  rintro t ⟨u, e, rfl, hu, hends⟩
  exact ⟨c :: u, e, rfl, hu, hends⟩

/-- A link is marks, its first linker, and marks and linkers. -/
theorem isLink_iff : P.IsLink w ↔ ∃ es k fs, w = es ++ k :: fs ∧
    (∀ e ∈ es, P.conjuncts e = .extend) ∧ P.conjuncts k = .linker ∧
    ∀ e ∈ fs, P.conjunctIn [.extend, .linker] e = true := by
  constructor
  · rintro ⟨hall, k, hk, hlinker⟩
    have hfind : (w.find? (P.conjunctIn [.linker])).isSome :=
      List.find?_isSome.mpr ⟨k, hk, conjunctIn_singleton.mpr hlinker⟩
    obtain ⟨k, hk⟩ := Option.isSome_iff_exists.mp hfind
    obtain ⟨hlinker, es, fs, rfl, hes⟩ := List.find?_eq_some_iff_append.mp hk
    simp only [List.forall_mem_append, List.forall_mem_cons] at hall
    refine ⟨es, k, fs, rfl, fun e he => ?_, conjunctIn_singleton.mp hlinker, hall.2.2⟩
    refine (conjunctIn_marks.mp (hall.1 e he)).resolve_right ?_
    exact conjunctIn_singleton_eq_false.mp (by simpa using hes e he)
  · rintro ⟨es, k, fs, rfl, hes, hk, hfs⟩
    refine ⟨?_, k, by simp, hk⟩
    simp only [List.forall_mem_append, List.forall_mem_cons]
    exact ⟨fun e he => conjunctIn_marks.mpr (.inl (hes e he)), conjunctIn_marks.mpr (.inr hk), hfs⟩

/-- What links another consonant is a linker behind the marks that are there, with the marks and
linkers behind it. -/
theorem linker_of_follows {es : List Char} (hes : IsRun (P.conjunctIn [.extend]) r es s)
    (h : Follows P.IsLink (P.conjuncts · = .consonant) r) :
    ∃ k t fs x rest, s = k :: t ∧ P.conjuncts k = .linker ∧
      IsRun (P.conjunctIn [.extend, .linker]) t fs (x :: rest) ∧ P.conjuncts x = .consonant := by
  obtain ⟨l, x, rest, hr, hl, hx⟩ := h
  obtain ⟨es', k, fs, rfl, hes', hk, hfs⟩ := isLink_iff.mp hl
  have hrun : IsRun (P.conjunctIn [.extend]) r es' (k :: (fs ++ x :: rest)) := by
    refine ⟨by simp [hr], fun e he => conjunctIn_singleton.mpr (hes' e he), fun e he => ?_⟩
    rw [← Option.some.inj he, conjunctIn_singleton_eq_false, hk]
    decide
  refine ⟨k, fs ++ x :: rest, fs, x, rest, (hes.unique hrun).2, hk, ⟨rfl, hfs, fun e he => ?_⟩, hx⟩
  rw [← Option.some.inj he, conjunctIn, hx]
  decide

theorem linkedConsonant_skips (hm : bytes r + 6 ≤ m) : (linkedConsonant P).Skips env m r
    (fun t => ∃ l x, r = l ++ x :: t ∧ P.IsLink l ∧ P.conjuncts x = .consonant)
    (¬ Follows P.IsLink (P.conjuncts · = .consonant) r) := by
  refine .andThen (n := m - 1) (by omega) (all_skips (by omega)) ?_ False.elim
  rintro s ⟨es, hes⟩
  have hs := bytes_le_of_append hes.append
  refine .andThen (n := m - 2) (by omega) (one_skips (by omega)) ?_ fun hno hyes => ?_
  · rintro t ⟨k, rfl, hk⟩
    rw [bytes_cons] at hs
    refine .andThen (n := m - 3) (by omega) (all_skips (by omega)) ?_ False.elim
    rintro u ⟨fs, hfs⟩
    refine (one_skips (by omega)).imp ?_ fun hno hyes => ?_
    · rintro v ⟨x, rfl, hx⟩
      have hlink : P.IsLink (es ++ k :: fs) := isLink_iff.mpr ⟨es, k, fs, rfl,
        fun e he => conjunctIn_singleton.mp (hes.all e he), conjunctIn_singleton.mp hk, hfs.all⟩
      refine ⟨es ++ k :: fs, x, ?_, hlink, conjunctIn_singleton.mp hx⟩
      rw [hes.append, hfs.append, List.append_assoc, List.cons_append]
    · obtain ⟨k', t', fs', x, rest, heq, -, hrun, hx⟩ := linker_of_follows hes hyes
      obtain ⟨-, rfl⟩ := List.cons.inj heq
      obtain ⟨-, rfl⟩ := hfs.unique hrun
      exact conjunctIn_singleton_eq_false.mp (hno x rfl) hx
  · obtain ⟨k, t, fs, x, rest, rfl, hk, -⟩ := linker_of_follows hes hyes
    exact conjunctIn_singleton_eq_false.mp (hno k rfl) hk

theorem conjunct_skips (hm : bytes r + 8 ≤ m) : (conjunct P).Skips env m r
    (fun s => ∃ w d, r = w ++ s ∧ Series P.IsLink (P.conjuncts · = .consonant) w d ∧
      ¬ Follows P.IsLink (P.conjuncts · = .consonant) s)
    (∀ c s, r = c :: s → P.conjuncts c = .consonant →
      ¬ Follows P.IsLink (P.conjuncts · = .consonant) s) := by
  refine .andThen (n := m - 1) (by omega) (one_skips (by omega)) ?_ ?_
  · rintro s ⟨c, rfl, hc⟩
    have hc : P.conjuncts c = .consonant := conjunctIn_singleton.mp hc
    rw [bytes_cons] at hm
    refine (series_skips (n := m - 2) (by omega) (by omega) (by omega) (.one hc)
      fun t ht => linkedConsonant_skips (by omega)).imp ?_ ?_
    · rintro t ⟨u, e, rfl, hu, hends⟩
      exact ⟨c :: u, e, rfl, hu, hends⟩
    · rintro ⟨-, hends⟩ c' s' heq -
      obtain ⟨-, rfl⟩ := List.cons.inj heq
      exact hends
  · rintro hno c s rfl hc
    exact (conjunctIn_singleton_eq_false.mp (hno c rfl) hc).elim

/-! ## Cores -/

theorem core_skips (hP : P.Consistent) (hm : bytes r + 9 ≤ m)
    (hr : ∀ c ∈ r.head?, P.breaks c ≠ .prepend) : (core P).Skips env m r
      (fun s => ∃ w d, r = w ++ s ∧ P.IsCore w d s) (∀ c ∈ r.head?, P.control c = true) := by
  refine SkipsOne.choiceOf (n := m - 1) (by omega)
    (.cons (hangulSyllable_skips hP (by omega)) (fun _ => id) fun hhangul =>
    .cons (pair_skips (by omega)) ?_ fun hflag =>
    .cons (pictographs_skips (by omega)) ?_ fun hpictograph =>
    .cons (conjunct_skips (by omega)) ?_ fun hconsonant =>
    .cons (one_skips (by omega)) ?_ fun hcontrol => .nil ?_)
  · rintro s ⟨c, d, rfl, hc, hd⟩
    exact ⟨[c, d], d, rfl, isCore_of_flag hP hc hd s⟩
  · rintro s ⟨w, d, rfl, hw, hs⟩
    exact ⟨w, d, rfl, isCore_of_pictographs hP hw hs⟩
  · rintro s ⟨w, d, rfl, hw, hs⟩
    exact ⟨w, d, rfl, isCore_of_conjunct hP hw hs⟩
  · rintro s ⟨c, rfl, hc⟩
    refine ⟨[c], c, rfl, isCore_of_single (by simpa using hc) (hr c rfl) (hhangul c rfl)
      (hpictograph c rfl) (hflag c s rfl) (hconsonant c s rfl)⟩
  · intro c hc
    simpa using hcontrol c hc

/-! ## Clusters -/

/-- A core with its surroundings is the first cluster. Without a core, whatever is prepended reaches
a control or the end of the text. -/
theorem extended_skips (hP : P.Consistent) (hm : bytes r + 11 ≤ m) : (extended P).Skips env m r
    (fun s => r = P.firstCluster r ++ s ∧ ∃ ps s', IsRun (P.breakIn [.prepend]) r ps s' ∧
      ∃ c ∈ s'.head?, P.control c = false)
    (∃ ps s', IsRun (P.breakIn [.prepend]) r ps s' ∧ ∀ c ∈ s'.head?, P.control c = true) := by
  refine .andThen (n := m - 1) (by omega) (all_skips (by omega)) ?_ False.elim
  rintro s ⟨ps, hps⟩
  have hs := bytes_le_of_append hps.append
  refine .andThen (n := m - 2) (by omega) (core_skips hP (by omega) hps.stops_breaks) ?_ fun hno =>
    ⟨ps, s, hps, hno⟩
  rintro t ⟨w, d, rfl, hcore⟩
  have ht := bytes_le_of_append (rfl : w ++ t = w ++ t)
  refine (all_skips (by omega)).imp ?_ False.elim
  rintro u ⟨es, hes⟩
  have hfirst := hcore.firstCluster hP hps.all_breaks hes
  rw [← hps.append] at hfirst
  refine ⟨by rw [hfirst, hps.append, hes.append]; simp, ps, w ++ t, hps, ?_⟩
  obtain ⟨c, w, rfl⟩ := List.exists_cons_of_ne_nil hcore.ne_nil
  exact ⟨c, rfl, hcore.plain c List.mem_cons_self⟩

end Grapheme

end Backtrack
