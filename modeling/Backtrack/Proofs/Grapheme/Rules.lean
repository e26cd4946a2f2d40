import Backtrack.Grapheme

/-!
# The rules of grapheme clusters

Unicode says by rules, which are numbered from GB1 on, between which characters of a text a cluster
ends. Whether there is a break before a character depends on the characters before it, on some of
them far back: on all regional indicators there (GB12, GB13), on what the joiner before it joins it
to (GB11), and on the consonant that a linker before it links it to (GB9c). `Properties.joined` says
that no rule puts a break there, and `Properties.firstCluster` takes characters up to the first
break.

The properties of one character are not independent of each other (`Properties.Consistent`).
-/

namespace Backtrack

open Unicode (GraphemeBreak ConjunctBreak)

/-- Two parts of a syllable of Hangul stay together (GB6, GB7, GB8). -/
def Unicode.GraphemeBreak.inSyllable : GraphemeBreak → GraphemeBreak → Bool
  | .leadingJamo, .leadingJamo | .leadingJamo, .vowelJamo | .leadingJamo, .syllableLV
  | .leadingJamo, .syllableLVT => true
  | .syllableLV, .vowelJamo | .syllableLV, .trailingJamo | .vowelJamo, .vowelJamo
  | .vowelJamo, .trailingJamo => true
  | .syllableLVT, .trailingJamo | .trailingJamo, .trailingJamo => true
  | _, _ => false

namespace Grapheme.Properties

variable (P : Properties)

/-! ## The rules

What stands before a position is given as the list of its characters, the nearest first. -/

/-- A consonant, and then extending characters and linkers of which at least one links (GB9c). -/
def linked (before : List Char) : Bool :=
  (before.takeWhile (P.conjunctIn [.extend, .linker])).any (P.conjunctIn [.linker]) &&
    (before.dropWhile (P.conjunctIn [.extend, .linker])).head?.any (P.conjunctIn [.consonant])

/-- A pictograph, perhaps extended, and a joiner (GB11). -/
def joinedToPictograph : List Char → Bool
  | [] => false
  | z :: before =>
    P.breakIn [.zeroWidthJoiner] z &&
      (before.dropWhile (P.breakIn [.extend])).head?.any P.pictographic

/-- Regional indicators, of which the last has no partner (GB12, GB13). -/
def halfFlag (before : List Char) : Bool :=
  (before.takeWhile (P.breakIn [.regionalIndicator])).length % 2 == 1

/-- One of the rules from GB6 to GB13 keeps a character with what stands before it. -/
def attached : List Char → Char → Bool
  | [], _ => false
  | c :: before, x =>
    -- GB6, GB7, GB8
    (P.breaks c).inSyllable (P.breaks x) ||
    -- GB9, GB9a
    P.extending x ||
    -- GB9b
    P.breakIn [.prepend] c ||
    -- GB9c
    P.conjunctIn [.consonant] x && P.linked (c :: before) ||
    -- GB11
    P.pictographic x && P.joinedToPictograph (c :: before) ||
    -- GB12, GB13
    P.breakIn [.regionalIndicator] x && P.halfFlag (c :: before)

/-- There is no break between a character and what stands before it, if anything does. -/
def joined : List Char → Char → Bool
  | [], _ => true
  | c :: before, x =>
    -- GB3
    if P.breakIn [.carriageReturn] c && P.breakIn [.lineFeed] x then true
    -- GB4, GB5
    else if P.control c || P.control x then false
    -- GB999 applies where none of the other rules does.
    else P.attached (c :: before) x

/-- The characters of a text up to the first break, behind the given ones. -/
def upToBreak (before : List Char) : List Char → List Char
  | [] => []
  | x :: rest => if P.joined before x then x :: upToBreak (x :: before) rest else []

/-- The first cluster of a text. -/
def firstCluster (text : List Char) : List Char := P.upToBreak [] text

/-- No rule puts a break between the characters, nor before the first of them. -/
def Unbroken (before : List Char) : List Char → Prop
  | [] => True
  | x :: w => P.joined before x = true ∧ Unbroken (x :: before) w

/-- Pictographs and consonants have no other part in clusters, and what extends or links conjuncts
extends clusters. -/
structure Consistent : Prop where
  pictograph (c : Char) : P.pictographic c = true → P.breaks c = .other ∧ P.conjuncts c = .none
  consonant (c : Char) : P.conjuncts c = .consonant → P.breaks c = .other
  linker (c : Char) : P.conjuncts c = .linker → P.breaks c = .extend
  extend (c : Char) : P.conjuncts c = .extend → P.breaks c = .extend ∨ P.breaks c = .zeroWidthJoiner

variable {P} {before w u v es : List Char} {c d x : Char}

/-! ## Properties of one character -/

theorem breakIn_iff {gs : List GraphemeBreak} : P.breakIn gs c = true ↔ P.breaks c ∈ gs :=
  List.contains_iff_mem

theorem breakIn_singleton {g : GraphemeBreak} : P.breakIn [g] c = true ↔ P.breaks c = g := by
  rw [breakIn_iff, List.mem_singleton]

theorem conjunctIn_iff {bs : List ConjunctBreak} :
    P.conjunctIn bs c = true ↔ P.conjuncts c ∈ bs :=
  List.contains_iff_mem

theorem breakIn_eq_false {gs : List GraphemeBreak} :
    P.breakIn gs c = false ↔ P.breaks c ∉ gs := by
  rw [← Bool.not_eq_true, breakIn_iff]

theorem breakIn_singleton_eq_false {g : GraphemeBreak} :
    P.breakIn [g] c = false ↔ P.breaks c ≠ g := by
  rw [breakIn_eq_false, List.mem_singleton]

theorem conjunctIn_singleton {b : ConjunctBreak} :
    P.conjunctIn [b] c = true ↔ P.conjuncts c = b := by
  rw [conjunctIn_iff, List.mem_singleton]

theorem conjunctIn_singleton_eq_false {b : ConjunctBreak} :
    P.conjunctIn [b] c = false ↔ P.conjuncts c ≠ b := by
  rw [← Bool.not_eq_true, conjunctIn_singleton]

/-- The characters that may stand before and behind a linker. -/
theorem conjunctIn_marks :
    P.conjunctIn [.extend, .linker] c = true ↔
      P.conjuncts c = .extend ∨ P.conjuncts c = .linker := by
  rw [conjunctIn_iff, List.mem_cons, List.mem_singleton]

theorem control_iff :
    P.control c = true ↔ P.breaks c ∈ [GraphemeBreak.control, .carriageReturn, .lineFeed] :=
  breakIn_iff

theorem extending_iff :
    P.extending c = true ↔ P.breaks c ∈ [GraphemeBreak.extend, .zeroWidthJoiner, .spacingMark] :=
  breakIn_iff

theorem control_eq_false :
    P.control c = false ↔ P.breaks c ∉ [GraphemeBreak.control, .carriageReturn, .lineFeed] :=
  breakIn_eq_false

theorem control_of_breaks {g : GraphemeBreak} (hc : P.breaks c = g)
    (hg : g ∉ [GraphemeBreak.control, .carriageReturn, .lineFeed]) : P.control c = false :=
  control_eq_false.mpr (hc ▸ hg)

/-! ## What is joined -/

theorem joined_of_attached (hc : P.control c = false) (hx : P.control x = false)
    (h : P.attached (c :: before) x = true) : P.joined (c :: before) x = true := by
  rw [joined, hc, hx, h]
  split <;> rfl

/-- Behind a character that is no control, a break is where no rule attaches the next one. -/
theorem not_joined (hc : P.control c = false) (h : P.attached (c :: before) x = false) :
    P.joined (c :: before) x = false := by
  have hreturn : P.breakIn [.carriageReturn] c = false := by
    rw [control_eq_false] at hc
    rw [breakIn_eq_false]
    grind
  rw [joined, hreturn, Bool.false_and, if_neg Bool.false_ne_true, h]
  split <;> rfl

theorem not_joined_of_control (hfeed : P.breaks c = .carriageReturn → P.breaks x ≠ .lineFeed)
    (h : P.control c = true ∨ P.control x = true) : P.joined (c :: before) x = false := by
  rw [joined, if_neg, if_pos]
  · simpa using h
  · simpa [breakIn_singleton] using hfeed

theorem attached_of_linked (hx : P.conjuncts x = .consonant) (h : P.linked before = true) :
    P.attached before x = true := by
  cases before with
  | nil => cases h
  | cons c before => simp [attached, conjunctIn, hx, h]

theorem attached_of_joined (hx : P.pictographic x = true)
    (h : P.joinedToPictograph before = true) : P.attached before x = true := by
  cases before with
  | nil => cases h
  | cons c before => simp [attached, hx, h]

theorem attached_eq_false (hsyllable : (P.breaks c).inSyllable (P.breaks x) = false)
    (hextending : P.extending x = false) (hprepend : P.breaks c ≠ .prepend)
    (hconsonant : P.conjuncts x = .consonant → P.linked (c :: before) = false)
    (hpictograph : P.pictographic x = true → P.joinedToPictograph (c :: before) = false)
    (hflag : P.breaks x = .regionalIndicator → P.halfFlag (c :: before) = false) :
    P.attached (c :: before) x = false := by
  have hprepend' : P.breakIn [.prepend] c = false := by simpa [breakIn_eq_false] using hprepend
  refine Bool.of_not_eq_true fun h => ?_
  rw [attached, hsyllable, hextending, hprepend'] at h
  simp only [Bool.false_or, Bool.or_eq_true, Bool.and_eq_true, conjunctIn_iff, breakIn_iff,
    List.mem_singleton] at h
  rcases h with (⟨hx, h⟩ | ⟨hx, h⟩) | ⟨hx, h⟩
  · rw [hconsonant hx] at h
    cases h
  · rw [hpictograph hx] at h
    cases h
  · rw [hflag hx] at h
    cases h

theorem unbroken_append :
    P.Unbroken before (u ++ v) ↔ P.Unbroken before u ∧ P.Unbroken (u.reverse ++ before) v := by
  induction u generalizing before with
  | nil => simp [Unbroken]
  | cons x u ih =>
    rw [List.cons_append, Unbroken, Unbroken, ih, List.reverse_cons, List.append_assoc, and_assoc]
    rfl

/-- What is unbroken is taken as a whole. -/
theorem upToBreak_append (h : P.Unbroken before u) :
    P.upToBreak before (u ++ v) = u ++ P.upToBreak (u.reverse ++ before) v := by
  induction u generalizing before with
  | nil => rfl
  | cons x u ih =>
    rw [List.cons_append, upToBreak, if_pos h.1, ih h.2, List.reverse_cons, List.append_assoc]
    rfl

/-- The first cluster is what is unbroken up to a break. -/
theorem firstCluster_append (hu : P.Unbroken [] u)
    (hv : ∀ x ∈ v.head?, P.joined u.reverse x = false) : P.firstCluster (u ++ v) = u := by
  rw [firstCluster, upToBreak_append hu, List.append_nil]
  cases v with
  | nil => exact List.append_nil u
  | cons x v => rw [upToBreak, if_neg (by simp [hv x rfl]), List.append_nil]

/-- A character is a cluster if it or the next one is a control. -/
theorem firstCluster_cons (hv : ∀ x ∈ v.head?, (P.control c = true ∨ P.control x = true) ∧
    (P.breaks c = .carriageReturn → P.breaks x ≠ .lineFeed)) : P.firstCluster (c :: v) = [c] :=
  firstCluster_append (u := [c]) ⟨rfl, trivial⟩ fun x hx =>
    not_joined_of_control (hv x hx).2 (hv x hx).1

/-- Characters that are joined to all of one kind, and are of this kind. -/
theorem unbroken_of_head {A B : Char → Prop}
    (hjoin : ∀ a before x, A a → B x → P.joined (a :: before) x = true) (hBA : ∀ x, B x → A x)
    (hw : ∀ x ∈ w, B x) (hbefore : ∀ a ∈ before.head?, A a) : P.Unbroken before w := by
  induction w generalizing before with
  | nil => trivial
  | cons x w ih =>
    rw [List.forall_mem_cons] at hw
    refine ⟨?_, ih hw.2 fun a ha => Option.some.inj ha ▸ hBA x hw.1⟩
    cases before with
    | nil => rfl
    | cons a before => exact hjoin a before x (hbefore a rfl) hw.1

theorem control_of_extending (h : P.extending c = true) : P.control c = false := by
  rw [extending_iff] at h
  rw [control_eq_false]
  intro hcontrol
  simp at h hcontrol
  grind

/-- Extending characters are joined to whatever is no control. -/
theorem unbroken_extending (hes : ∀ e ∈ es, P.extending e = true)
    (hbefore : ∀ a ∈ before.head?, P.control a = false) : P.Unbroken before es := by
  refine unbroken_of_head (fun a before x ha hx => ?_) (fun _ => control_of_extending) hes hbefore
  refine joined_of_attached ha (control_of_extending hx) ?_
  simp [attached, hx]

/-- A character that is no control is joined to one that is prepended. -/
theorem joined_of_prepended (hbefore : ∀ p ∈ before.head?, P.breaks p = .prepend)
    (hx : P.control x = false) : P.joined before x = true := by
  cases before with
  | nil => rfl
  | cons p before =>
    have hp : P.breaks p = .prepend := hbefore p rfl
    refine joined_of_attached (control_of_breaks hp (by decide)) hx ?_
    simp [attached, breakIn_singleton.mpr hp]

theorem unbroken_prepended (hw : ∀ p ∈ w, P.breaks p = .prepend) : P.Unbroken [] w := by
  refine unbroken_of_head (A := fun p => P.breaks p = .prepend) (fun a before x ha hx => ?_)
    (fun _ => id) hw (by simp)
  exact joined_of_prepended (fun p hp => Option.some.inj hp ▸ ha) (control_of_breaks hx (by decide))

end Grapheme.Properties

end Backtrack
