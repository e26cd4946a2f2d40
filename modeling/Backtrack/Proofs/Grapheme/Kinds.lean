import Backtrack.Proofs.Grapheme.Cores

/-!
# The kinds of cores

Syllables of Hangul, flags, joined pictographs, linked consonants and single characters. Each is a
core where the text after it does not go on in its kind.
-/

namespace Backtrack

open Unicode (GraphemeBreak ConjunctBreak)

/-- The properties of the parts of syllables of Hangul. -/
def Unicode.GraphemeBreak.hangul : List GraphemeBreak :=
  [.leadingJamo, .vowelJamo, .trailingJamo, .syllableLV, .syllableLVT]

theorem Unicode.GraphemeBreak.hangul_of_inSyllable {g h : GraphemeBreak}
    (hgh : g.inSyllable h = true) : g ∈ hangul ∧ h ∈ hangul := by
  unfold inSyllable at hgh
  split at hgh <;> first | decide | cases hgh

/-- After a syllable without an end comes no part of it. -/
theorem Unicode.GraphemeBreak.inSyllable_of_open {g h : GraphemeBreak}
    (hg : g ∈ [vowelJamo, syllableLV]) (hv : h ≠ .vowelJamo) (ht : h ≠ .trailingJamo) :
    g.inSyllable h = false := by
  rw [List.mem_cons, List.mem_singleton] at hg
  rcases hg with rfl | rfl <;> cases h <;> first | rfl | contradiction

/-- After a syllable with an end only more of the end is part of it. -/
theorem Unicode.GraphemeBreak.inSyllable_of_closed {g h : GraphemeBreak}
    (hg : g ∈ [syllableLVT, trailingJamo]) (ht : h ≠ .trailingJamo) :
    g.inSyllable h = false := by
  rw [List.mem_cons, List.mem_singleton] at hg
  rcases hg with rfl | rfl <;> cases h <;> first | rfl | contradiction

/-- After a leading part comes more of the syllable. -/
theorem Unicode.GraphemeBreak.inSyllable_of_leading {h : GraphemeBreak} (hl : h ≠ leadingJamo)
    (hv : h ∉ [vowelJamo, syllableLV, syllableLVT]) : leadingJamo.inSyllable h = false := by
  cases h <;> first | rfl | contradiction

section Runs

variable {P : Grapheme.Properties} {g : GraphemeBreak} {r w s : List Char}

theorem IsRun.all_breaks (h : IsRun (P.breakIn [g]) r w s) : ∀ x ∈ w, P.breaks x = g :=
  fun x hx => Grapheme.Properties.breakIn_singleton.mp (h.all x hx)

theorem IsRun.stops_breaks (h : IsRun (P.breakIn [g]) r w s) : ∀ x ∈ s.head?, P.breaks x ≠ g :=
  fun x hx => Grapheme.Properties.breakIn_singleton_eq_false.mp (h.stops x hx)

end Runs

namespace Grapheme.Properties

variable {P : Properties} {r w s s' before ls v ts l : List Char} {c d x : Char}

/-- A character with a break property of its own has no part in conjuncts and is no pictograph. -/
theorem of_ne_other (hP : P.Consistent) (hc : P.breaks c ≠ .other) :
    P.pictographic c = false ∧ P.conjuncts c ≠ .consonant :=
  ⟨Bool.of_not_eq_true fun hpictograph => hc (hP.pictograph c hpictograph).1,
    fun hconsonant => hc (hP.consonant c hconsonant)⟩

/-- Behind anything but a regional indicator there is no half of a flag. -/
theorem halfFlag_of_last (hlast : w.getLast? = some d) (hd : P.breaks d ≠ .regionalIndicator)
    (before : List Char) : P.halfFlag (w.reverse ++ before) = false := by
  obtain ⟨front, rfl⟩ := List.getLast?_eq_some_iff.mp hlast
  have hindicator : ¬ P.breakIn [.regionalIndicator] d = true := by simpa [breakIn_iff] using hd
  rw [List.reverse_append, halfFlag]
  simp [List.takeWhile_cons_of_neg hindicator]

theorem exists_last (hw : w ≠ []) : ∃ d, w.getLast? = some d ∧ d ∈ w :=
  ⟨w.getLast hw, List.getLast?_eq_some_getLast hw, List.getLast_mem hw⟩

/-! ## Syllables -/

section Syllables

variable {g : GraphemeBreak} {gs : List GraphemeBreak}

theorem control_of_hangul (hc : P.breaks c ∈ GraphemeBreak.hangul) : P.control c = false := by
  rw [control_eq_false]
  generalize P.breaks c = g at hc
  revert g
  decide

theorem isCore_of_hangul (hP : P.Consistent) (hlast : w.getLast? = some d)
    (hw : ∀ c ∈ w, P.breaks c ∈ GraphemeBreak.hangul)
    (hunbroken : ∀ before, (∀ p ∈ before, P.breaks p = .prepend) → P.Unbroken before w)
    (hs : ∀ x ∈ s.head?, (P.breaks d).inSyllable (P.breaks x) = false) : P.IsCore w d s := by
  have hne : ∀ g, g ∉ GraphemeBreak.hangul → ∀ c ∈ w, P.breaks c ≠ g :=
    fun g hg c hc h => hg (h ▸ hw c hc)
  have hother : ∀ c ∈ w, P.pictographic c = false ∧ P.conjuncts c ≠ .consonant :=
    fun c hc => of_ne_other hP (hne _ (by decide) c hc)
  have hd := List.mem_of_getLast? hlast
  refine ⟨hlast, fun c hc => control_of_hangul (hw c hc), hunbroken, hne _ (by decide) d hd, hs,
    ?_, .inl fun c hc => (hother c hc).1, .inl fun c hc => (hother c hc).2⟩
  exact fun _ _ _ before _ => halfFlag_of_last hlast (hne _ (by decide) d hd) before

/-- A part of a syllable is joined to what is prepended to it and to what comes before it in the
syllable. -/
theorem joined_syllable (hg : g ∈ GraphemeBreak.hangul)
    (hgs : ∀ h ∈ gs, h = .prepend ∨ h.inSyllable g = true) (hx : P.breaks x = g)
    (hbefore : ∀ a ∈ before.head?, P.breaks a ∈ gs) : P.joined before x = true := by
  have hplain : P.control x = false := control_of_hangul (hx ▸ hg)
  cases before with
  | nil => rfl
  | cons a before =>
    rcases hgs _ (hbefore a rfl) with ha | ha
    · exact joined_of_prepended (fun p hp => Option.some.inj hp ▸ ha) hplain
    · refine joined_of_attached ?_ hplain ?_
      · exact control_of_hangul (GraphemeBreak.hangul_of_inSyllable ha).1
      · rw [attached, hx, ha]
        simp

/-- Parts of one property, each of which is joined to the one before. -/
theorem unbroken_syllable (gs : List GraphemeBreak) (hg : g ∈ GraphemeBreak.hangul) (hmem : g ∈ gs)
    (hgs : ∀ h ∈ gs, h = .prepend ∨ h.inSyllable g = true) (hw : ∀ x ∈ w, P.breaks x = g)
    (hbefore : ∀ a ∈ before.head?, P.breaks a ∈ gs) : P.Unbroken before w := by
  refine unbroken_of_head (A := fun a => P.breaks a ∈ gs) (B := fun x => P.breaks x = g)
    (fun a before x ha hx => ?_) (fun x hx => hx ▸ hmem) hw hbefore
  exact joined_syllable hg hgs hx fun a' ha' => Option.some.inj ha' ▸ ha

theorem breaks_of_prepended (hbefore : ∀ p ∈ before, P.breaks p = .prepend) :
    ∀ a ∈ before.head?, P.breaks a ∈ GraphemeBreak.prepend :: gs :=
  fun a ha => List.mem_cons.mpr (.inl (hbefore a (List.mem_of_mem_head? ha)))

/-- A run of leading parts alone, or of trailing ones. -/
theorem isCore_of_jamo (hP : P.Consistent) (hg : g ∈ GraphemeBreak.hangul)
    (hgg : g.inSyllable g = true) (hw : ∀ x ∈ w, P.breaks x = g) (hne : w ≠ [])
    (hs : ∀ x ∈ s.head?, g.inSyllable (P.breaks x) = false) : ∃ d, P.IsCore w d s := by
  obtain ⟨d, hlast, hd⟩ := exists_last hne
  refine ⟨d, isCore_of_hangul hP hlast (fun c hc => hw c hc ▸ hg) (fun before hbefore => ?_)
    fun x hx => hw d hd ▸ hs x hx⟩
  refine unbroken_syllable [.prepend, g] hg (by simp) (fun h hh => ?_) hw
    (breaks_of_prepended hbefore)
  rw [List.mem_cons, List.mem_singleton] at hh
  rcases hh with rfl | rfl
  · exact .inl rfl
  · exact .inr hgg

variable (P) in
/-- The vowel of a syllable, with `s` after it. Its last character is `d`. -/
structure IsVowel (v : List Char) (d : Char) (s : List Char) : Prop where
  last : v.getLast? = some d
  hangul : ∀ c ∈ v, P.breaks c ∈ GraphemeBreak.hangul
  unbroken : ∀ before, (∀ a ∈ before.head?, P.breaks a ∈ [GraphemeBreak.prepend, .leadingJamo]) →
    P.Unbroken before v
  trailing : (P.breaks d).inSyllable .trailingJamo = true
  ends : ∀ x ∈ s.head?, P.breaks x ≠ .trailingJamo →
    (P.breaks d).inSyllable (P.breaks x) = false

/-- A run of vowels. -/
theorem isVowel_of_jamo (hv : IsRun (P.breakIn [.vowelJamo]) r v s) (hne : v ≠ []) :
    ∃ d, P.IsVowel v d s := by
  obtain ⟨d, hlast, hd⟩ := exists_last hne
  have hall := hv.all_breaks
  refine ⟨d, hlast, fun c hc => hall c hc ▸ by decide, fun before hbefore => ?_,
    hall d hd ▸ by decide, fun x hx htrailing => ?_⟩
  · refine unbroken_syllable [.prepend, .leadingJamo, .vowelJamo] (by decide) (by decide)
      (by decide) hall fun a ha => ?_
    have hmem := hbefore a ha
    grind
  · rw [hall d hd]
    exact GraphemeBreak.inSyllable_of_open (by decide) (hv.stops_breaks x hx) htrailing

/-- A syllable without an end, and a run of vowels. -/
theorem isVowel_of_open (hc : P.breaks c = .syllableLV)
    (hv : IsRun (P.breakIn [.vowelJamo]) r v s) : ∃ d, P.IsVowel (c :: v) d s := by
  obtain ⟨d, hlast, hd⟩ := exists_last (List.cons_ne_nil c v)
  have hall := hv.all_breaks
  have hopen : ∀ x ∈ c :: v, P.breaks x ∈ [GraphemeBreak.vowelJamo, .syllableLV] := by
    rw [List.forall_mem_cons, hc]
    refine ⟨by decide, fun x hx => ?_⟩
    rw [hall x hx]
    decide
  have hhangul : ∀ g ∈ [GraphemeBreak.vowelJamo, .syllableLV],
      g ∈ GraphemeBreak.hangul ∧ g.inSyllable .trailingJamo = true := by decide
  refine ⟨d, hlast, fun x hx => (hhangul _ (hopen x hx)).1, fun before hbefore => ⟨?_, ?_⟩,
    (hhangul _ (hopen d hd)).2, fun x hx htrailing => ?_⟩
  · exact joined_syllable (by decide) (by decide) hc hbefore
  · refine unbroken_syllable [.vowelJamo, .syllableLV] (by decide) (by decide) (by decide)
      hall fun a ha => ?_
    exact hopen a (Option.some.inj ha ▸ List.mem_cons_self)
  · exact GraphemeBreak.inSyllable_of_open (hopen d hd) (hv.stops_breaks x hx) htrailing

/-- A syllable with an end. -/
theorem isVowel_of_closed (hc : P.breaks c = .syllableLVT) (s : List Char) : P.IsVowel [c] c s := by
  refine ⟨rfl, fun x hx => ?_, fun before hbefore => ⟨?_, trivial⟩, hc ▸ rfl, fun x _ ht => ?_⟩
  · rw [List.mem_singleton.mp hx, hc]
    decide
  · exact joined_syllable (by decide) (by decide) hc hbefore
  · rw [hc]
    exact GraphemeBreak.inSyllable_of_closed (by decide) ht

/-- A syllable: leading parts, a vowel and trailing parts. -/
theorem isCore_of_vowel (hP : P.Consistent) (hls : ∀ x ∈ ls, P.breaks x = .leadingJamo)
    (hv : P.IsVowel v d s') (hts : IsRun (P.breakIn [.trailingJamo]) s' ts s) :
    ∃ e, P.IsCore (ls ++ (v ++ ts)) e s := by
  have htrailing := hts.all_breaks
  have hhangul : ∀ c ∈ ls ++ (v ++ ts), P.breaks c ∈ GraphemeBreak.hangul := by
    simp only [List.forall_mem_append]
    exact ⟨fun c hc => hls c hc ▸ by decide, hv.hangul, fun c hc => htrailing c hc ▸ by decide⟩
  have hunbroken : ∀ before, (∀ p ∈ before, P.breaks p = .prepend) →
      P.Unbroken before (ls ++ (v ++ ts)) := by
    intro before hbefore
    have hleading : ∀ a ∈ (ls.reverse ++ before).head?,
        P.breaks a ∈ [GraphemeBreak.prepend, .leadingJamo] := by
      intro a ha
      rcases List.mem_append.mp (List.mem_of_mem_head? ha) with ha | ha
      · rw [hls a (List.mem_reverse.mp ha)]
        decide
      · rw [hbefore a ha]
        decide
    obtain ⟨front, rfl⟩ := List.getLast?_eq_some_iff.mp hv.last
    refine unbroken_append.mpr ⟨?_, unbroken_append.mpr ⟨hv.unbroken _ hleading, ?_⟩⟩
    · exact unbroken_syllable [.prepend, .leadingJamo] (by decide) (by decide) (by decide)
        hls (breaks_of_prepended hbefore)
    · refine unbroken_syllable [P.breaks d, .trailingJamo] (by decide) (by simp) ?_
        htrailing fun a ha => ?_
      · exact List.forall_mem_cons.mpr ⟨.inr hv.trailing, by decide⟩
      · rw [List.reverse_append] at ha
        simp [Option.some.inj ha]
  rcases List.eq_nil_or_concat ts with rfl | ⟨front, e, rfl⟩
  · obtain rfl : s' = s := hts.append
    refine ⟨d, isCore_of_hangul hP (by simp [hv.last]) hhangul hunbroken fun x hx => ?_⟩
    exact hv.ends x hx (hts.stops_breaks x hx)
  · rw [List.concat_eq_append] at *
    refine ⟨e, isCore_of_hangul hP (by simp) hhangul hunbroken fun x hx => ?_⟩
    rw [htrailing e (by simp)]
    exact GraphemeBreak.inSyllable_of_closed (by decide) (hts.stops_breaks x hx)

end Syllables

/-! ## Flags -/

/-- A pair of regional indicators. -/
theorem isCore_of_flag (hP : P.Consistent) (hc : P.breaks c = .regionalIndicator)
    (hd : P.breaks d = .regionalIndicator) (s : List Char) : P.IsCore [c, d] d s := by
  have hindicator : ∀ x ∈ [c, d], P.breaks x = .regionalIndicator := by simp [hc, hd]
  have hplain : ∀ x ∈ [c, d], P.control x = false :=
    fun x hx => control_of_breaks (hindicator x hx) (by decide)
  have hother : ∀ x ∈ [c, d], P.pictographic x = false ∧ P.conjuncts x ≠ .consonant := by
    intro x hx
    exact of_ne_other hP (hindicator x hx ▸ by decide)
  have hrun : ∀ before : List Char, (∀ p ∈ before, P.breaks p = .prepend) →
      before.takeWhile (P.breakIn [.regionalIndicator]) = [] := by
    intro before hbefore
    cases before with
    | nil => rfl
    | cons p before => simp [breakIn, hbefore p]
  refine ⟨rfl, hplain, fun before hbefore => ⟨?_, ?_, trivial⟩, ?_, ?_, ?_,
    .inl fun x hx => (hother x hx).1, .inl fun x hx => (hother x hx).2⟩
  · refine joined_of_prepended (fun p hp => ?_) (hplain c (by simp))
    exact hbefore p (List.mem_of_mem_head? hp)
  · refine joined_of_attached (hplain c (by simp)) (hplain d (by simp)) ?_
    simp [attached, halfFlag, breakIn, hc, hd, hrun before hbefore]
  · rw [hd]
    decide
  · intro x _
    rw [hd]
    rfl
  · intro x _ _ before hbefore
    simp [halfFlag, breakIn, hc, hd, hrun before hbefore]

/-! ## Pictographs and consonants -/

/-- Characters of a kind with something of another kind between each two. The last is `d`. -/
inductive Series (between : List Char → Prop) (item : Char → Prop) : List Char → Char → Prop where
  | one {c : Char} (hc : item c) : Series between item [c] c
  | link {w l : List Char} {c x : Char} (h : Series between item w c) (hl : between l)
    (hx : item x) : Series between item (w ++ (l ++ [x])) x

namespace Series

variable {between : List Char → Prop} {item A : Char → Prop}

theorem last (h : Series between item w d) : w.getLast? = some d ∧ item d := by
  cases h with
  | one hc => exact ⟨rfl, hc⟩
  | link h hl hx => exact ⟨by simp, hx⟩

theorem all (h : Series between item w d) (hitem : ∀ c, item c → A c)
    (hbetween : ∀ l, between l → ∀ e ∈ l, A e) : ∀ c ∈ w, A c := by
  induction h with
  | one hc => simpa using hitem _ hc
  | link h hl hx ih =>
    simp only [List.forall_mem_append, List.forall_mem_singleton]
    exact ⟨ih, hbetween _ hl, hitem _ hx⟩

/-- A series is unbroken if each of its parts is joined to the one before. -/
theorem unbroken (h : Series between item w d) (hitem : ∀ c, item c → P.control c = false)
    (hbetween : ∀ l, between l → ∀ e ∈ l, P.extending e = true)
    (hjoin : ∀ back l c x, item c → between l → item x →
      P.attached (l.reverse ++ c :: back) x = true)
    (hbefore : ∀ p ∈ before, P.breaks p = .prepend) : P.Unbroken before w := by
  induction h with
  | one hc =>
    refine ⟨joined_of_prepended (fun p hp => ?_) (hitem _ hc), trivial⟩
    exact hbefore p (List.mem_of_mem_head? hp)
  | @link w l c x h hl hx ih =>
    obtain ⟨hlast, hc⟩ := h.last
    obtain ⟨front, rfl⟩ := List.getLast?_eq_some_iff.mp hlast
    refine unbroken_append.mpr ⟨ih, unbroken_append.mpr ⟨?_, ?_, trivial⟩⟩
    · refine unbroken_extending (hbetween l hl) fun a ha => ?_
      rw [List.reverse_append] at ha
      exact Option.some.inj ha ▸ hitem c hc
    · have hattached := hjoin (front.reverse ++ before) l c x hc hl hx
      obtain ⟨b, back, heq, hb⟩ :=
        exists_plain_head (hitem c hc) (hbetween l hl) (front.reverse ++ before)
      rw [List.reverse_append, List.reverse_singleton, List.append_assoc, List.singleton_append,
        heq]
      exact joined_of_attached hb (hitem x hx) (heq ▸ hattached)

/-- A series of characters that have no break property of their own. -/
theorem isCore (h : Series between item w d) (hitem : ∀ c, item c → P.breaks c = .other)
    (hbetween : ∀ l, between l → ∀ e ∈ l, P.extending e = true)
    (hjoin : ∀ back l c x, item c → between l → item x →
      P.attached (l.reverse ++ c :: back) x = true)
    (hpictograph : (∀ c ∈ w, P.pictographic c = false) ∨
      P.pictographic d = true ∧ ¬ Follows P.IsJoin (P.pictographic · = true) s)
    (hconsonant : (∀ c ∈ w, P.conjuncts c ≠ .consonant) ∨
      P.conjuncts d = .consonant ∧ ¬ Follows P.IsLink (P.conjuncts · = .consonant) s) :
    P.IsCore w d s := by
  have hplain : ∀ c, item c → P.control c = false :=
    fun c hc => control_of_breaks (hitem c hc) (by decide)
  obtain ⟨hlast, hd⟩ := h.last
  have hother := hitem d hd
  refine ⟨hlast, h.all hplain fun l hl e he => control_of_extending (hbetween l hl e he),
    fun before hbefore => h.unbroken hplain hbetween hjoin hbefore, ?_, ?_, ?_, hpictograph,
    hconsonant⟩
  · rw [hother]
    decide
  · intro x _
    rw [hother]
    rfl
  · exact fun _ _ _ before _ => halfFlag_of_last hlast (by rw [hother]; decide) before

end Series

theorem ne_other_of_extending (h : P.extending c = true) : P.breaks c ≠ .other := by
  intro hother
  simp [extending_iff, hother] at h

/-- Pictographs that are joined. -/
theorem isCore_of_pictographs (hP : P.Consistent)
    (h : Series P.IsJoin (P.pictographic · = true) w d)
    (hs : ¬ Follows P.IsJoin (P.pictographic · = true) s) : P.IsCore w d s := by
  refine h.isCore (fun c hc => (hP.pictograph c hc).1) (fun l hl => hl.extending)
    (fun back l c x hc hl hx => attached_of_joined hx (joined_of_isJoin hP hl hc))
    (.inr ⟨h.last.2, hs⟩) (.inl (h.all (fun c hc => ?_) fun l hl e he => ?_))
  · rw [(hP.pictograph c hc).2]
    decide
  · exact (of_ne_other hP (ne_other_of_extending (hl.extending e he))).2

/-- Consonants that are linked. -/
theorem isCore_of_conjunct (hP : P.Consistent)
    (h : Series P.IsLink (P.conjuncts · = .consonant) w d)
    (hs : ¬ Follows P.IsLink (P.conjuncts · = .consonant) s) : P.IsCore w d s := by
  refine h.isCore hP.consonant (fun l hl => hl.extending hP)
    (fun back l c x hc hl hx => attached_of_linked hx (linked_of_isLink hl hc))
    (.inl (h.all (fun c hc => ?_) fun l hl e he => ?_)) (.inr ⟨h.last.2, hs⟩)
  · refine Bool.of_not_eq_true fun hpictograph => ?_
    rw [(hP.pictograph c hpictograph).2] at hc
    cases hc
  · exact (of_ne_other hP (ne_other_of_extending (hl.extending hP e he))).1

/-! ## Single characters -/

theorem isCore_of_single (hplain : P.control c = false) (hprepend : P.breaks c ≠ .prepend)
    (hhangul : P.breaks c ∉ GraphemeBreak.hangul) (hpictograph : P.pictographic c = false)
    (hflag : P.breaks c = .regionalIndicator → ∀ x ∈ s.head?, P.breaks x ≠ .regionalIndicator)
    (hconsonant : P.conjuncts c = .consonant →
      ¬ Follows P.IsLink (P.conjuncts · = .consonant) s) : P.IsCore [c] c s := by
  refine ⟨rfl, by simpa using hplain, fun before hbefore => ⟨?_, trivial⟩, hprepend, ?_, ?_,
    .inl (by simpa using hpictograph), ?_⟩
  · refine joined_of_prepended (fun p hp => ?_) hplain
    exact hbefore p (List.mem_of_mem_head? hp)
  · exact fun x _ => Bool.of_not_eq_true fun h => hhangul (GraphemeBreak.hangul_of_inSyllable h).1
  · intro x hx hindicator before _
    exact halfFlag_of_last rfl (fun hc => hflag hc x hx hindicator) before
  · by_cases hc : P.conjuncts c = .consonant
    · exact .inr ⟨hc, hconsonant hc⟩
    · exact .inl (by simpa using hc)

end Grapheme.Properties

end Backtrack
