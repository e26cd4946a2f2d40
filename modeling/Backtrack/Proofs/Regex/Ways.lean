import Backtrack.Regex.Program

/-!
# Ways through a regular expression

What a regular expression matches belongs to its language (`Node.run_matches`), and among the ways
through it the first one is taken that leads on. For the expressions of which lexemes are made this
is the way that one would expect: a set takes a character of it, a star of a set takes all
characters up to one that is not in the set (`Node.run_star`), and of alternatives the second is
taken where the text does not even start like the first (`Node.run_alt_right`).
-/

namespace Backtrack

/-- The number of bytes of characters. -/
def bytes (cs : List Char) : Nat := extent Char.utf8Size cs

@[simp] theorem bytes_nil : bytes [] = 0 := rfl

@[simp] theorem bytes_cons (c : Char) (cs : List Char) :
    bytes (c :: cs) = c.utf8Size + bytes cs := by
  simp [bytes]

@[simp] theorem bytes_append (cs ds : List Char) : bytes (cs ++ ds) = bytes cs + bytes ds := by
  simp [bytes]

theorem bytes_lt_cons (c : Char) (r : List Char) : bytes r < bytes (c :: r) := by
  have hc := c.utf8Size_pos
  rw [bytes_cons]
  omega

theorem bytes_eq_zero {cs : List Char} : bytes cs = 0 ↔ cs = [] := by
  cases cs with
  | nil => simp
  | cons c cs =>
    have := c.utf8Size_pos
    simp only [bytes_cons, reduceCtorEq, iff_false]
    omega

/-- How a text is split is decided by the number of bytes in front. -/
theorem append_inj_of_bytes {cs cs' ds ds' : List Char} (h : cs ++ ds = cs' ++ ds')
    (hbytes : bytes cs = bytes cs') : cs = cs' ∧ ds = ds' := by
  induction cs generalizing cs' with
  | nil =>
    obtain rfl := bytes_eq_zero.mp hbytes.symm
    exact ⟨rfl, h⟩
  | cons c cs ih =>
    cases cs' with
    | nil => cases bytes_eq_zero.mp hbytes
    | cons c' cs' =>
      simp only [List.cons_append, List.cons.injEq] at h
      obtain ⟨rfl, h⟩ := h
      simp only [bytes_cons, Nat.add_left_cancel_iff] at hbytes
      obtain ⟨rfl, hds⟩ := ih h hbytes
      exact ⟨rfl, hds⟩

namespace Regex

/-! ## Sets of characters -/

namespace CharSet

variable {c : Char}

theorem contains_range {a b : Char} :
    (range a b).contains c = true ↔ a.toNat ≤ c.toNat ∧ c.toNat ≤ b.toNat := by
  rw [contains, Bool.and_eq_true, decide_eq_true_iff, decide_eq_true_iff]
  exact Iff.rfl

theorem contains_char {a : Char} : (char a).contains c = true ↔ c = a := by
  rw [char, contains_range, ← Nat.le_antisymm_iff, eq_comm, Char.toNat_inj]

theorem contains_ofList {sets : List CharSet} :
    (ofList sets).contains c = true ↔ ∃ s ∈ sets, s.contains c = true := by
  have hfold (sets : List CharSet) (s : CharSet) : (sets.foldl union s).contains c = true ↔
      s.contains c = true ∨ ∃ t ∈ sets, t.contains c = true := by
    induction sets generalizing s with
    | nil => simp
    | cons t sets ih => simp [ih, contains, or_assoc]
  rw [ofList, hfold]
  simp [contains]

theorem contains_ofList_singleton {s : CharSet} :
    (ofList [s]).contains c = true ↔ s.contains c = true := by
  simp [contains_ofList]

theorem contains_ofString {s : String} : (ofString s).contains c = true ↔ c ∈ s.toList := by
  rw [ofString, contains_ofList]
  constructor
  · rintro ⟨_, ht, hc⟩
    obtain ⟨a, ha, rfl⟩ := List.mem_map.mp ht
    exact contains_char.mp hc ▸ ha
  · intro hc
    exact ⟨char c, List.mem_map_of_mem hc, contains_char.mpr rfl⟩

end CharSet

/-! ## Moving on -/

/-- The cursor `e` is reached from `c` over the given characters. -/
structure Cursor.Leads (c : Cursor) (front : List Char) (e : Cursor) : Prop where
  rest : c.rest = front ++ e.rest
  offset : e.offset = c.offset + bytes front

namespace Cursor

variable {c d e : Cursor} {front front' : List Char}

theorem Leads.refl (c : Cursor) : c.Leads [] c := ⟨rfl, rfl⟩

theorem Leads.trans (h : c.Leads front d) (h' : d.Leads front' e) :
    c.Leads (front ++ front') e := by
  refine ⟨?_, ?_⟩
  · rw [h.rest, h'.rest, List.append_assoc]
  · rw [h'.offset, h.offset, bytes_append, Nat.add_assoc]

theorem Leads.step {s : CharSet} (h : c.step? s = some d) :
    ∃ x, s.contains x = true ∧ c.Leads [x] d := by
  rw [step?] at h
  split at h
  next x rest hrest =>
    split at h
    next hx =>
      cases h
      exact ⟨x, hx, ⟨by simp [hrest], by simp⟩⟩
    next => cases h
  next => cases h

theorem Leads.pass {mark : Option Nat} (h : c.pass? mark = some d) : c.Leads [] d := by
  cases mark with
  | none =>
    cases h
    exact .refl c
  | some m =>
    simp only [pass?] at h
    split at h
    next => cases h
    next =>
      cases h
      exact ⟨rfl, rfl⟩

/-- The cursor behind some characters. -/
def past : List Char → Cursor → Cursor
  | [], c => c
  | x :: xs, c =>
    past xs { c with
      previous := some x, rest := c.rest.tail, offset := c.offset + x.utf8Size, passed := [] }

@[simp] theorem captures_past (front : List Char) (c : Cursor) :
    (c.past front).captures = c.captures := by
  induction front generalizing c with
  | nil => rfl
  | cons x xs ih => rw [past, ih]

@[simp] theorem offset_past (front : List Char) (c : Cursor) :
    (c.past front).offset = c.offset + bytes front := by
  induction front generalizing c with
  | nil => rfl
  | cons x xs ih => rw [past, ih, bytes_cons, Nat.add_assoc]

theorem rest_past {back : List Char} (h : c.rest = front ++ back) : (c.past front).rest = back := by
  induction front generalizing c with
  | nil => exact h
  | cons x xs ih =>
    rw [past]
    exact ih (by simp [h])

theorem rest_past_one {x : Char} {back : List Char} (h : c.rest = x :: back) :
    (c.past [x]).rest = back :=
  rest_past (show c.rest = [x] ++ back from h)

theorem step?_eq_past {s : CharSet} {x : Char} {back : List Char} (h : c.rest = x :: back)
    (hx : s.contains x = true) : c.step? s = some (c.past [x]) := by
  rw [step?, h]
  simp only [hx, if_true, past, h, List.tail_cons]

theorem step?_eq_none {s : CharSet} (h : ∀ x ∈ c.rest.head?, s.contains x = false) :
    c.step? s = none := by
  rw [step?]
  split
  next x rest hrest =>
    rw [hrest] at h
    rw [if_neg (by simp [h x rfl])]
  next => rfl

end Cursor

/-! ## The language of an expression -/

/-- The expression matches the characters, whatever its assertions say. -/
def Node.Matches : Node → List Char → Prop
  | empty, w => w = []
  | set s, w => ∃ x, s.contains x = true ∧ w = [x]
  | assertion _, w => w = []
  | seq a b, w => ∃ f g, a.Matches f ∧ b.Matches g ∧ w = f ++ g
  | alt _ a b, w => a.Matches w ∨ b.Matches w
  | loop _ _ body, w => ∃ fs : List (List Char), (∀ f ∈ fs, body.Matches f) ∧ w = fs.flatten
  | group _ body, w => body.Matches w

namespace Node

variable {c d : Cursor} {k : Cursor → Option Cursor}

/-- A loop leads over passes of its body. -/
theorem loopWith_matches {body : Node}
    (hbody : ∀ {c d k}, body.run c k = some d →
      ∃ f e, body.Matches f ∧ c.Leads f e ∧ k e = some d) {mark : Option Nat} {greedy : Bool}
    {n : Nat} (h : loopWith (fun d l => body.run d l) mark greedy n c k = some d) :
    ∃ (fs : List (List Char)) (e : Cursor), (∀ f ∈ fs, body.Matches f) ∧
      c.Leads fs.flatten e ∧ k e = some d := by
  induction n generalizing c with
  | zero =>
    rw [loopWith] at h
    obtain ⟨e, he, hk⟩ := Option.bind_eq_some_iff.mp h
    exact ⟨[], e, by simp, .pass he, hk⟩
  | succ n ih =>
    rw [loopWith] at h
    split at h
    next => cases h
    next e he =>
      have hstop (hk : k e = some d) :
          ∃ (fs : List (List Char)) (e : Cursor), (∀ f ∈ fs, body.Matches f) ∧
            c.Leads fs.flatten e ∧ k e = some d :=
        ⟨[], e, by simp, .pass he, hk⟩
      have hagain (h : (body.run e fun d => if e.offset < d.offset then
          loopWith (fun d l => body.run d l) mark greedy n d k else none) = some d) :
          ∃ (fs : List (List Char)) (e : Cursor), (∀ f ∈ fs, body.Matches f) ∧
            c.Leads fs.flatten e ∧ k e = some d := by
        obtain ⟨f, g, hf, hg, hif⟩ := hbody h
        split at hif
        next =>
          obtain ⟨fs, e', hfs, he', hk⟩ := ih hif
          refine ⟨f :: fs, e', ?_, ?_, hk⟩
          · rintro f' (_ | ⟨_, hf'⟩)
            · exact hf
            · exact hfs f' hf'
          · exact (Cursor.Leads.pass he).trans (hg.trans he')
        next => cases hif
      dsimp only at h
      split at h
      next =>
        rcases Option.or_eq_some_iff.mp h with h | ⟨-, h⟩
        · exact hagain h
        · exact hstop h
      next =>
        rcases Option.or_eq_some_iff.mp h with h | ⟨-, h⟩
        · exact hstop h
        · exact hagain h

/-- Matching leads over characters of the language to where it goes on. -/
theorem run_matches (a : Node) (h : a.run c k = some d) :
    ∃ f e, a.Matches f ∧ c.Leads f e ∧ k e = some d := by
  induction a generalizing c d k with
  | empty => exact ⟨[], c, rfl, .refl c, h⟩
  | set s =>
    obtain ⟨e, he, hk⟩ := Option.bind_eq_some_iff.mp h
    obtain ⟨x, hx, hlead⟩ := Cursor.Leads.step he
    exact ⟨[x], e, ⟨x, hx, rfl⟩, hlead, hk⟩
  | assertion a =>
    rw [run] at h
    split at h
    next => exact ⟨[], c, rfl, .refl c, h⟩
    next => cases h
  | seq a b iha ihb =>
    obtain ⟨f, e, hf, he, hb⟩ := iha h
    obtain ⟨g, e', hg, he', hk⟩ := ihb hb
    exact ⟨f ++ g, e', ⟨f, g, hf, hg, rfl⟩, he.trans he', hk⟩
  | alt mark a b iha ihb =>
    rw [run] at h
    obtain ⟨e, he, hor⟩ := Option.bind_eq_some_iff.mp h
    rcases Option.or_eq_some_iff.mp hor with ha | ⟨-, hb⟩
    · obtain ⟨f, e', hf, he', hk⟩ := iha ha
      exact ⟨f, e', .inl hf, (Cursor.Leads.pass he).trans he', hk⟩
    · obtain ⟨f, e', hf, he', hk⟩ := ihb hb
      exact ⟨f, e', .inr hf, (Cursor.Leads.pass he).trans he', hk⟩
  | loop mark greedy body ih =>
    obtain ⟨fs, e, hfs, he, hk⟩ := loopWith_matches ih h
    exact ⟨fs.flatten, e, ⟨fs, hfs, rfl⟩, he, hk⟩
  | group index body ih =>
    obtain ⟨f, e, hf, he, hk⟩ := ih h
    exact ⟨f, e.capture index c.offset, hf, ⟨he.rest, he.offset⟩, hk⟩

/-! ### Languages of small expressions -/

theorem matches_optional {a : Node} {w : List Char} :
    a.optional.Matches w ↔ a.Matches w ∨ w = [] := by
  simp [optional, Matches]

theorem matches_star {s : CharSet} {w : List Char} :
    (star (.set s)).Matches w ↔ ∀ x ∈ w, s.contains x = true := by
  constructor
  · rintro ⟨fs, hfs, rfl⟩ x hx
    obtain ⟨f, hf, hx⟩ := List.mem_flatten.mp hx
    obtain ⟨y, hy, rfl⟩ := hfs f hf
    rw [List.mem_singleton.mp hx]
    exact hy
  · intro hw
    refine ⟨w.map ([·]), ?_, by rw [← List.flatMap_def, List.flatMap_singleton']⟩
    intro f hf
    obtain ⟨x, hx, rfl⟩ := List.mem_map.mp hf
    exact ⟨x, hw x hx, rfl⟩

theorem matches_plus {s : CharSet} {w : List Char} :
    (plus (.set s)).Matches w ↔ w ≠ [] ∧ ∀ x ∈ w, s.contains x = true := by
  constructor
  · rintro ⟨f, g, ⟨x, hx, rfl⟩, hg, rfl⟩
    refine ⟨by simp, ?_⟩
    simpa [hx] using matches_star.mp hg
  · rintro ⟨hne, hw⟩
    obtain ⟨x, w, rfl⟩ := List.exists_cons_of_ne_nil hne
    rw [List.forall_mem_cons] at hw
    exact ⟨[x], w, ⟨x, hw.1, rfl⟩, matches_star.mpr hw.2, rfl⟩

/-! ## The way that is taken -/

variable {s : CharSet} {x : Char} {w back : List Char}

theorem run_set (h : c.rest = x :: back) (hx : s.contains x = true)
    (hk : k (c.past [x]) = some d) : (set s).run c k = some d := by
  rw [run, Cursor.step?_eq_past h hx]
  exact hk

theorem run_set_none (h : ∀ x ∈ c.rest.head?, s.contains x = false) : (set s).run c k = none := by
  rw [run, Cursor.step?_eq_none h]
  rfl

theorem run_alt_left {a b : Node} (h : a.run c k = some d) : (alt none a b).run c k = some d := by
  rw [run]
  change (a.run c k).or (b.run c k) = some d
  rw [h]
  rfl

theorem run_alt_right {a b : Node} (ha : a.run c k = none) (h : b.run c k = some d) :
    (alt none a b).run c k = some d := by
  rw [run]
  change (a.run c k).or (b.run c k) = some d
  rw [ha]
  exact h

/-- A star of a set takes all that it can, if one can go on from there. The induction is on the
characters that it takes. -/
theorem run_star (h : c.rest = w ++ back) (hw : ∀ x ∈ w, s.contains x = true)
    (hback : ∀ x ∈ back.head?, s.contains x = false) (hk : k (c.past w) = some d) :
    (star (.set s)).run c k = some d := by
  change loopWith (fun d l => (set s).run d l) none true c.rest.length c k = some d
  induction w generalizing c with
  | nil =>
    have hstop (n : Nat) : loopWith (fun d l => (set s).run d l) none true n c k = some d := by
      cases n with
      | zero => exact hk
      | succ n =>
        rw [loopWith]
        change Option.or (Node.run _ _ _) (k c) = some d
        rw [run_set_none (by rw [h]; exact hback)]
        exact hk
    exact hstop _
  | cons x w ih =>
    rw [List.forall_mem_cons] at hw
    have hrest : (c.past [x]).rest = w ++ back := Cursor.rest_past_one h
    have hagain := ih hrest hw.2 hk
    rw [hrest] at hagain
    have hlt : c.offset < (c.past [x]).offset := by
      have := x.utf8Size_pos
      rw [Cursor.offset_past, bytes_cons]
      omega
    rw [h, List.cons_append, List.length_cons, loopWith]
    change Option.or (Node.run _ _ _) (k c) = some d
    rw [run_set h hw.1 (d := d) (by rw [if_pos hlt]; exact hagain)]
    rfl

/-- What a star of a set takes, if one can go on from there. -/
theorem run_star_takeWhile (hk : k (c.past (c.rest.takeWhile s.contains)) = some d) :
    (star (.set s)).run c k = some d := by
  refine run_star List.takeWhile_append_dropWhile.symm ?_ (fun x hx => ?_) hk
  · exact List.all_eq_true.mp List.all_takeWhile
  · have hnot := List.head?_dropWhile_not s.contains c.rest
    rw [Option.mem_def.mp hx] at hnot
    simpa using hnot

theorem run_plus (h : c.rest = w ++ back) (hne : w ≠ []) (hw : ∀ x ∈ w, s.contains x = true)
    (hback : ∀ x ∈ back.head?, s.contains x = false) (hk : k (c.past w) = some d) :
    (plus (.set s)).run c k = some d := by
  obtain ⟨x, w, rfl⟩ := List.exists_cons_of_ne_nil hne
  rw [List.forall_mem_cons] at hw
  change (set s).run c (fun d => (star (.set s)).run d k) = some d
  refine run_set h hw.1 (run_star (w := w) (Cursor.rest_past_one h) hw.2 hback ?_)
  exact hk

end Node

/-- The characters that a match covers belong to the language. -/
theorem Program.match?_matches {p : Program} {front back : List Char} {m : Match}
    (h : p.match? (front ++ back) = some m) (hstop : m.stop = bytes front) :
    p.node.Matches front := by
  obtain ⟨c, hrun, rfl⟩ := Option.map_eq_some_iff.mp h
  obtain ⟨f, e, hf, hlead, he⟩ := p.node.run_matches hrun
  cases he
  have hbytes : bytes front = bytes f := by
    rw [← hstop, hlead.offset, Nat.zero_add]
  obtain ⟨rfl, -⟩ := append_inj_of_bytes hlead.rest hbytes
  exact hf

end Regex

end Backtrack
