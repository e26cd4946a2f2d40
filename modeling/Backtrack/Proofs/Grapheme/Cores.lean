import Backtrack.Proofs.Grapheme.Rules

/-!
# What clusters are built around

A cluster is a core with what is prepended to it and what extends it. `Properties.IsCore` lists what
makes a part of a text a core: no rule breaks it, whatever is prepended to it, and no rule attaches
to it what stands behind it, also with extending characters in between. Then the first cluster of
the text is the core with its surroundings (`IsCore.firstCluster`).
-/

namespace Backtrack

open Unicode (GraphemeBreak ConjunctBreak)

/-- The run of the characters of a set that a text starts with, and the rest. -/
structure IsRun (accept : Char → Bool) (r w s : List Char) : Prop where
  append : r = w ++ s
  all : ∀ c ∈ w, accept c = true
  stops : ∀ c ∈ s.head?, accept c = false

section Runs

variable {accept : Char → Bool} {r w s w' s' : List Char}

theorem IsRun.exists (accept : Char → Bool) (r : List Char) : ∃ w s, IsRun accept r w s := by
  refine ⟨r.takeWhile accept, r.dropWhile accept, List.takeWhile_append_dropWhile.symm,
    List.all_eq_true.mp List.all_takeWhile, fun c hc => ?_⟩
  have hstop := List.head?_dropWhile_not accept r
  rw [hc] at hstop
  exact Bool.of_not_eq_true (by simpa using hstop)

theorem IsRun.takeWhile (h : IsRun accept r w s) : r.takeWhile accept = w := by
  rw [h.append, List.takeWhile_append_of_pos h.all]
  cases s with
  | nil => exact List.append_nil w
  | cons c s => rw [List.takeWhile_cons_of_neg (by simp [h.stops c rfl]), List.append_nil]

theorem IsRun.dropWhile (h : IsRun accept r w s) : r.dropWhile accept = s := by
  have hsplit := List.takeWhile_append_dropWhile (p := accept) (l := r)
  rw [h.takeWhile] at hsplit
  exact List.append_cancel_left (hsplit.trans h.append)

/-- A text starts with one run only. -/
theorem IsRun.unique (h : IsRun accept r w s) (h' : IsRun accept r w' s') : w = w' ∧ s = s' :=
  ⟨h.takeWhile.symm.trans h'.takeWhile, h.dropWhile.symm.trans h'.dropWhile⟩

theorem IsRun.eq_nil (h : IsRun accept r w s) (hr : ∀ c ∈ r.head?, accept c = false) :
    w = [] ∧ s = r :=
  h.unique ⟨rfl, nofun, hr⟩

end Runs

namespace Grapheme.Properties

variable {P : Properties}

/-! ## Looking back -/

section Back

variable {back es : List Char} {d : Char}

/-- What is linked is linked to a consonant. -/
theorem consonant_of_linked {before : List Char} (h : P.linked before = true) :
    ∃ c ∈ before, P.conjuncts c = .consonant := by
  rw [linked, Bool.and_eq_true] at h
  obtain ⟨c, hc, hconsonant⟩ := (Option.any_eq_true _ _).mp h.2
  refine ⟨c, (List.dropWhile_sublist _).subset (List.mem_of_mem_head? hc), ?_⟩
  simpa [conjunctIn_iff] using hconsonant

theorem pictograph_of_joined {before : List Char} (h : P.joinedToPictograph before = true) :
    ∃ c ∈ before, P.pictographic c = true := by
  cases before with
  | nil => cases h
  | cons z before =>
    rw [joinedToPictograph, Bool.and_eq_true] at h
    obtain ⟨c, hc, hpictograph⟩ := (Option.any_eq_true _ _).mp h.2
    have hmem := (List.dropWhile_sublist _).subset (List.mem_of_mem_head? hc)
    exact ⟨c, List.mem_cons_of_mem z hmem, hpictograph⟩

/-- The first character that is not passed over in looking back is reached. -/
theorem dropWhile_across (skip : Char → Bool) (back es : List Char) (d : Char) :
    (∀ e ∈ es, skip e = true) ∨
      ∃ e ∈ es, skip e = false ∧ ((es ++ d :: back).dropWhile skip).head? = some e := by
  induction es with
  | nil => exact .inl nofun
  | cons e es ih =>
    by_cases he : skip e = true
    · rw [List.cons_append, List.dropWhile_cons_of_pos he, List.forall_mem_cons]
      rcases ih with h | ⟨e', he', hskip, hhead⟩
      · exact .inl ⟨he, h⟩
      · exact .inr ⟨e', List.mem_cons_of_mem e he', hskip, hhead⟩
    · refine .inr ⟨e, List.mem_cons_self, Bool.of_not_eq_true he, ?_⟩
      rw [List.cons_append, List.dropWhile_cons_of_neg he, List.head?_cons]

/-- What links a consonant that comes after it: what extends conjuncts, and a linker among it
(GB9c). -/
def IsLink (P : Properties) (l : List Char) : Prop :=
  (∀ e ∈ l, P.conjunctIn [.extend, .linker] e = true) ∧ ∃ k ∈ l, P.conjuncts k = .linker

/-- What joins a pictograph that comes after it: a joiner behind marks (GB11). -/
def IsJoin (P : Properties) (l : List Char) : Prop :=
  ∃ marks z, l = marks ++ [z] ∧ (∀ e ∈ marks, P.breaks e = .extend) ∧
    P.breaks z = .zeroWidthJoiner

/-- What extends a consonant links to it only as a link. -/
theorem isLink_of_linked (hP : P.Consistent) (hes : ∀ e ∈ es, P.extending e = true)
    (hd : P.conjuncts d = .consonant) (h : P.linked (es.reverse ++ d :: back) = true) :
    P.IsLink es := by
  have hes' : ∀ e ∈ es.reverse, P.extending e = true := fun e he => hes e (List.mem_reverse.mp he)
  have hskip : P.conjunctIn [.extend, .linker] d = false := by simp [conjunctIn, hd]
  rw [linked, Bool.and_eq_true] at h
  rcases dropWhile_across (P.conjunctIn [.extend, .linker]) back es.reverse d with
    hall | ⟨e, he, -, hhead⟩
  · refine ⟨fun e he => hall e (List.mem_reverse.mpr he), ?_⟩
    have hlinker := h.1
    rw [List.takeWhile_append_of_pos hall, List.takeWhile_cons_of_neg (by simp [hskip]),
      List.append_nil] at hlinker
    obtain ⟨k, hk, hlink⟩ := List.any_eq_true.mp hlinker
    exact ⟨k, List.mem_reverse.mp hk, by simpa [conjunctIn_iff] using hlink⟩
  · have hconsonant : P.conjuncts e = .consonant := by
      simpa [hhead, conjunctIn_iff] using h.2
    have hother := hP.consonant e hconsonant
    simpa [extending_iff, hother] using hes' e he

theorem linked_of_isLink (hl : P.IsLink es) (hd : P.conjuncts d = .consonant) :
    P.linked (es.reverse ++ d :: back) = true := by
  obtain ⟨hall, k, hk, hlinker⟩ := hl
  have hall' : ∀ e ∈ es.reverse, P.conjunctIn [.extend, .linker] e = true :=
    fun e he => hall e (List.mem_reverse.mp he)
  have hskip : ¬ P.conjunctIn [.extend, .linker] d = true := by simp [conjunctIn, hd]
  rw [linked, List.takeWhile_append_of_pos hall', List.dropWhile_append_of_pos hall',
    List.takeWhile_cons_of_neg hskip, List.dropWhile_cons_of_neg hskip, Bool.and_eq_true]
  refine ⟨List.any_eq_true.mpr ⟨k, by simpa using hk, ?_⟩, ?_⟩
  · simp [conjunctIn, hlinker]
  · simp [conjunctIn, hd]

theorem IsLink.extending (hP : P.Consistent) (hl : P.IsLink es) :
    ∀ e ∈ es, P.extending e = true := by
  intro e he
  rw [extending_iff]
  rcases conjunctIn_marks.mp (hl.1 e he) with h | h
  · rcases hP.extend e h with h | h <;> simp [h]
  · simp [hP.linker e h]

/-- What extends a pictograph joins to it only as a joiner behind marks. -/
theorem isJoin_of_joined (hP : P.Consistent) (hes : ∀ e ∈ es, P.extending e = true)
    (hd : P.pictographic d = true) (h : P.joinedToPictograph (es.reverse ++ d :: back) = true) :
    P.IsJoin es := by
  have hother := (hP.pictograph d hd).1
  rcases List.eq_nil_or_concat es with rfl | ⟨marks, z, rfl⟩
  · simp [joinedToPictograph, breakIn, hother] at h
  · rw [List.concat_eq_append] at hes h ⊢
    rw [List.reverse_append, List.reverse_singleton, List.append_assoc, List.singleton_append,
      joinedToPictograph, Bool.and_eq_true] at h
    have hz : P.breaks z = .zeroWidthJoiner := by simpa [breakIn_iff] using h.1
    refine ⟨marks, z, rfl, fun e he => ?_, hz⟩
    rcases dropWhile_across (P.breakIn [.extend]) back marks.reverse d with
      hall | ⟨e', he', -, hhead⟩
    · simpa [breakIn_iff] using hall e (List.mem_reverse.mpr he)
    · have hpictograph : P.pictographic e' = true := by simpa [hhead] using h.2
      have hbreak := (hP.pictograph e' hpictograph).1
      have he' := hes e' (List.mem_append_left _ (List.mem_reverse.mp he'))
      simp [extending_iff, hbreak] at he'

theorem joined_of_isJoin (hP : P.Consistent) (hl : P.IsJoin es) (hd : P.pictographic d = true) :
    P.joinedToPictograph (es.reverse ++ d :: back) = true := by
  obtain ⟨marks, z, rfl, hmarks, hz⟩ := hl
  have hall : ∀ e ∈ marks.reverse, P.breakIn [.extend] e = true := by
    simpa [breakIn_iff] using hmarks
  have hskip : ¬ P.breakIn [.extend] d = true := by simp [breakIn, (hP.pictograph d hd).1]
  rw [List.reverse_append, List.reverse_singleton, List.append_assoc, List.singleton_append,
    joinedToPictograph, List.dropWhile_append_of_pos hall, List.dropWhile_cons_of_neg hskip]
  simp [breakIn, hz, hd]

theorem IsJoin.extending (hl : P.IsJoin es) : ∀ e ∈ es, P.extending e = true := by
  obtain ⟨marks, z, rfl, hmarks, hz⟩ := hl
  intro e he
  rw [extending_iff]
  rcases List.mem_append.mp he with he | he
  · simp [hmarks e he]
  · simp [List.mem_singleton.mp he, hz]

/-- Behind a character that is no control, and what extends it, stands no control. -/
theorem exists_plain_head (hd : P.control d = false) (hes : ∀ e ∈ es, P.extending e = true)
    (back : List Char) :
    ∃ c before, es.reverse ++ d :: back = c :: before ∧ P.control c = false := by
  rcases List.eq_nil_or_concat es with rfl | ⟨front, e, rfl⟩
  · exact ⟨d, back, rfl, hd⟩
  · rw [List.concat_eq_append] at hes ⊢
    exact ⟨e, front.reverse ++ d :: back, by simp, control_of_extending (hes e (by simp))⟩

end Back

/-! ## Cores -/

/-- A character of a kind comes, with something of another kind before it. -/
def Follows (between : List Char → Prop) (item : Char → Prop) (s : List Char) : Prop :=
  ∃ l x rest, s = l ++ x :: rest ∧ between l ∧ item x

variable (P) in
/-- What a cluster can be built around, where `s` is what comes after it. Its last character is
`d`. -/
structure IsCore (w : List Char) (d : Char) (s : List Char) : Prop where
  last : w.getLast? = some d
  plain : ∀ c ∈ w, P.control c = false
  unbroken : ∀ before, (∀ p ∈ before, P.breaks p = .prepend) → P.Unbroken before w
  notPrepended : P.breaks d ≠ .prepend
  syllable : ∀ x ∈ s.head?, (P.breaks d).inSyllable (P.breaks x) = false
  flag : ∀ x ∈ s.head?, P.breaks x = .regionalIndicator →
    ∀ before, (∀ p ∈ before, P.breaks p = .prepend) → P.halfFlag (w.reverse ++ before) = false
  pictograph : (∀ c ∈ w, P.pictographic c = false) ∨
    P.pictographic d = true ∧ ¬ Follows P.IsJoin (P.pictographic · = true) s
  consonant : (∀ c ∈ w, P.conjuncts c ≠ .consonant) ∨
    P.conjuncts d = .consonant ∧ ¬ Follows P.IsLink (P.conjuncts · = .consonant) s

namespace IsCore

variable {w s before es rest : List Char} {d x : Char}

theorem reverse_eq (h : P.IsCore w d s) : ∃ back, w.reverse = d :: back := by
  obtain ⟨front, rfl⟩ := List.getLast?_eq_some_iff.mp h.last
  exact ⟨front.reverse, by simp⟩

theorem ne_nil (h : P.IsCore w d s) : w ≠ [] :=
  List.ne_nil_of_mem (List.mem_of_getLast? h.last)

section Ends

variable (hP : P.Consistent) (h : P.IsCore w d s)
  (hbefore : ∀ p ∈ before, P.breaks p = .prepend) (hes : ∀ e ∈ es, P.extending e = true)
  (hs : s = es ++ x :: rest)

include hP h hbefore hes hs

/-- No consonant is linked to what comes before it. -/
theorem not_linked (hx : P.conjuncts x = .consonant) :
    P.linked (es.reverse ++ (w.reverse ++ before)) = false := by
  refine Bool.of_not_eq_true fun hlinked => ?_
  rcases h.consonant with hnone | ⟨hd, hends⟩
  · obtain ⟨c, hc, hconsonant⟩ := consonant_of_linked hlinked
    have hother := hP.consonant c hconsonant
    rcases List.mem_append.mp hc with hc | hc
    · simpa [extending_iff, hother] using hes c (List.mem_reverse.mp hc)
    · rcases List.mem_append.mp hc with hc | hc
      · exact hnone c (List.mem_reverse.mp hc) hconsonant
      · rw [hbefore c hc] at hother
        cases hother
  · obtain ⟨back, hback⟩ := h.reverse_eq
    rw [hback, List.cons_append] at hlinked
    exact hends ⟨es, x, rest, hs, isLink_of_linked hP hes hd hlinked, hx⟩

/-- No pictograph is joined to what comes before it. -/
theorem not_joinedToPictograph (hx : P.pictographic x = true) :
    P.joinedToPictograph (es.reverse ++ (w.reverse ++ before)) = false := by
  refine Bool.of_not_eq_true fun hjoined => ?_
  rcases h.pictograph with hnone | ⟨hd, hends⟩
  · obtain ⟨c, hc, hpictograph⟩ := pictograph_of_joined hjoined
    have hother := (hP.pictograph c hpictograph).1
    rcases List.mem_append.mp hc with hc | hc
    · simpa [extending_iff, hother] using hes c (List.mem_reverse.mp hc)
    · rcases List.mem_append.mp hc with hc | hc
      · rw [hnone c (List.mem_reverse.mp hc)] at hpictograph
        cases hpictograph
      · rw [hbefore c hc] at hother
        cases hother
  · obtain ⟨back, hback⟩ := h.reverse_eq
    rw [hback, List.cons_append] at hjoined
    exact hends ⟨es, x, rest, hs, isJoin_of_joined hP hes hd hjoined, hx⟩

/-- Nothing that does not extend a core is attached to it, with what extends it in between. -/
theorem not_attached (hx : P.extending x = false) :
    P.attached (es.reverse ++ (w.reverse ++ before)) x = false := by
  have hlinked := h.not_linked hP hbefore hes hs
  have hjoined := h.not_joinedToPictograph hP hbefore hes hs
  rcases List.eq_nil_or_concat es with rfl | ⟨front, e, rfl⟩
  · obtain ⟨back, hback⟩ := h.reverse_eq
    rw [List.nil_append] at hs
    rw [List.reverse_nil, List.nil_append] at hlinked hjoined ⊢
    have hflag := h.flag x (by simp [hs])
    rw [hback, List.cons_append] at hlinked hjoined ⊢
    refine attached_eq_false (h.syllable x (by simp [hs])) hx h.notPrepended hlinked hjoined ?_
    intro hindicator
    have hhalf := hflag hindicator before hbefore
    rwa [hback, List.cons_append] at hhalf
  · have he : P.breaks e ∈ [GraphemeBreak.extend, .zeroWidthJoiner, .spacingMark] :=
      extending_iff.mp (hes e (by simp))
    rw [List.concat_eq_append, List.reverse_append] at hlinked hjoined ⊢
    refine attached_eq_false ?_ hx ?_ hlinked hjoined fun _ => ?_
    · simp at he
      rcases he with he | he | he <;> rw [he] <;> rfl
    · rintro heq
      simp [heq] at he
    · have hindicator : P.breakIn [.regionalIndicator] e = false := by
        rw [breakIn_eq_false]
        simp at he ⊢
        rcases he with he | he | he <;> simp [he]
      rw [halfFlag, List.takeWhile_cons_of_neg (by simp [hindicator])]
      rfl

end Ends

/-- A core with its surroundings is the first cluster. -/
theorem firstCluster (hP : P.Consistent) (h : P.IsCore w d s) {ps : List Char}
    (hps : ∀ p ∈ ps, P.breaks p = .prepend) (hes : IsRun P.extending s es rest) :
    P.firstCluster (ps ++ (w ++ s)) = ps ++ (w ++ es) := by
  have hbefore : ∀ p ∈ ps.reverse, P.breaks p = .prepend := fun p hp => hps p (by simpa using hp)
  have hd : P.control d = false := h.plain d (List.mem_of_getLast? h.last)
  obtain ⟨back, hback⟩ := h.reverse_eq
  have hunbroken : P.Unbroken [] (ps ++ (w ++ es)) := by
    simp only [unbroken_append, List.append_nil]
    refine ⟨unbroken_prepended hps, h.unbroken _ hbefore, unbroken_extending hes.all fun a ha => ?_⟩
    rw [hback] at ha
    exact Option.some.inj ha ▸ hd
  have hbreak : ∀ x ∈ rest.head?, P.joined (ps ++ (w ++ es)).reverse x = false := by
    intro x hx
    obtain ⟨rest', rfl⟩ := List.head?_eq_some_iff.mp hx
    have hattached := h.not_attached hP hbefore hes.all hes.append (hes.stops x rfl)
    obtain ⟨c, front, heq, hc⟩ := exists_plain_head hd hes.all (back ++ ps.reverse)
    rw [List.reverse_append, List.reverse_append, List.append_assoc]
    rw [hback, List.cons_append, heq] at hattached ⊢
    exact not_joined hc hattached
  have hfirst := firstCluster_append hunbroken hbreak
  rw [List.append_assoc, List.append_assoc] at hfirst
  rw [hes.append, hfirst]

end IsCore

end Grapheme.Properties

end Backtrack
