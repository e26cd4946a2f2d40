import Backtrack.Proofs.Json.Tokens

/-!
# Only JSON is accepted

On any text the parser of values returns, and what it finds is a value of the grammar that denotes
what the parser gives, with all the white space behind it (`value_finds`). The induction is on a
bound on the bytes that are left; the items of an array or an object are shorter by the bracket.
-/

namespace Backtrack

namespace Json

variable {lone : Char → Prop} {c : Char} {r s t u : List Char}

/-! ## What is left is shorter -/

/-- What is left behind something that is not only white space. -/
def Shorter (s r : List Char) : Prop := bytes s < bytes (skipBlanks r)

theorem Shorter.lt (h : Shorter s r) : bytes s < bytes r :=
  Nat.lt_of_lt_of_le h (blanks_skipBlanks r).bytes_le

theorem Shorter.trans (h : Shorter s r) (h' : Shorter t s) : Shorter t r :=
  Nat.lt_trans h'.lt h

theorem Shorter.blanks (h : Shorter s r) : bytes (skipBlanks s) < bytes (skipBlanks r) :=
  Nat.lt_of_le_of_lt (blanks_skipBlanks s).bytes_le h

theorem shorter_of_append {w : List Char} (hc : ¬ IsBlank c) : Shorter s (c :: w ++ s) := by
  have := c.utf8Size_pos
  rw [Shorter, List.cons_append, skipBlanks_cons hc, bytes_cons, bytes_append]
  omega

/-- A structural character is what follows the white space. -/
theorem Structural.skipBlanks_eq (hc : ¬ IsBlank c) (h : Structural c r t) :
    ∃ s, skipBlanks r = c :: s ∧ skipBlanks t = skipBlanks s ∧ bytes t ≤ bytes s := by
  obtain ⟨hbefore, hbehind⟩ := h
  exact ⟨_, hbefore.skipBlanks_eq.trans (skipBlanks_cons hc _), hbehind.skipBlanks_eq.symm,
    hbehind.bytes_le⟩

theorem Structural.shorter (hc : ¬ IsBlank c) (h : Structural c r t) : Shorter t r := by
  obtain ⟨s, hr, -, hle⟩ := h.skipBlanks_eq hc
  have := c.utf8Size_pos
  rw [Shorter, hr, bytes_cons]
  omega

theorem Characters.bytes_le {xs : List Char} (h : Characters lone r xs s) : bytes s ≤ bytes r := by
  induction h with
  | nil => exact Nat.le_refl _
  | plain _ _ ih =>
    rw [bytes_cons]
    omega
  | escape _ _ ih =>
    rw [bytes_cons, bytes_append]
    omega

theorem StringText.skipBlanks_eq {x : String} (h : StringText lone r x s) : skipBlanks r = r := by
  obtain ⟨h⟩ := h
  exact skipBlanks_cons (by decide) _

theorem StringText.shorter {x : String} (h : StringText lone r x s) : Shorter s r := by
  rw [Shorter, h.skipBlanks_eq]
  obtain ⟨h⟩ := h
  have hle := h.bytes_le
  have := ('"').utf8Size_pos
  rw [bytes_cons] at hle ⊢
  omega

theorem IsNumber.skipBlanks_eq {w : List Char} (h : IsNumber w) :
    skipBlanks (w ++ s) = w ++ s := by
  obtain ⟨c, cs, rfl, hc⟩ := h.head
  refine skipBlanks_cons ?_ (cs ++ s)
  rintro (rfl | rfl | rfl | rfl) <;> revert hc <;> decide

theorem IsNumber.shorter {w : List Char} (h : IsNumber w) : Shorter s (w ++ s) := by
  rw [Shorter, h.skipBlanks_eq]
  obtain ⟨c, cs, rfl, -⟩ := h.head
  have := c.utf8Size_pos
  rw [bytes_append, bytes_cons]
  omega

mutual

/-- A value takes more than white space. -/
theorem ValueText.shorter : ∀ {r : List Char} {v : Json} {s : List Char}, ValueText lone r v s →
    Shorter s r
  | _, _, _, .null => shorter_of_append (by decide)
  | _, _, _, .true => shorter_of_append (by decide)
  | _, _, _, .false => shorter_of_append (by decide)
  | _, _, _, .number h _ => h.shorter
  | _, _, _, .string h => h.shorter
  | _, _, _, .emptyArray hopen hclose =>
    (hopen.shorter (by decide)).trans (hclose.shorter (by decide))
  | _, _, _, .array hopen helements hclose =>
    ((hopen.shorter (by decide)).trans helements.shorter).trans (hclose.shorter (by decide))
  | _, _, _, .emptyObject hopen hclose =>
    (hopen.shorter (by decide)).trans (hclose.shorter (by decide))
  | _, _, _, .object hopen hmembers hclose =>
    ((hopen.shorter (by decide)).trans hmembers.shorter).trans (hclose.shorter (by decide))

theorem Elements.shorter : ∀ {r : List Char} {vs : List Json} {s : List Char},
    Elements lone r vs s → Shorter s r
  | _, _, _, .one h => h.shorter
  | _, _, _, .cons h hcomma hrest =>
    (h.shorter.trans (hcomma.shorter (by decide))).trans hrest.shorter

theorem MemberText.shorter : ∀ {r : List Char} {m : String × Json} {s : List Char},
    MemberText lone r m s → Shorter s r
  | _, _, _, .mk hkey hcolon hvalue =>
    (hkey.shorter.trans (hcolon.shorter (by decide))).trans hvalue.shorter

theorem Members.shorter : ∀ {r : List Char} {ms : List (String × Json)} {s : List Char},
    Members lone r ms s → Shorter s r
  | _, _, _, .one h => h.shorter
  | _, _, _, .cons h hcomma hrest =>
    (h.shorter.trans (hcomma.shorter (by decide))).trans hrest.shorter

end

/-! ## What is read -/

/-- Something, and the white space behind it. -/
def WithBlanks {α : Type} (D : List Char → α → List Char → Prop) (r : List Char) (a : α)
    (s : List Char) : Prop :=
  ∃ t, D r a t ∧ Blanks t s

theorem IsToken.bytes_lt (h : IsToken c r s) : bytes s < bytes r := by
  obtain ⟨t, rfl, rfl⟩ := h
  have := c.utf8Size_pos
  have := (blanks_skipBlanks t).bytes_le
  rw [bytes_cons]
  omega

/-- A token is a structural character, also together with white space in front. -/
theorem IsToken.structural (h : IsToken c r s) (hbefore : Blanks t r) : Structural c t s := by
  obtain ⟨t', rfl, rfl⟩ := h
  exact ⟨hbefore, blanks_skipBlanks t'⟩

/-- The steps behind a first item make a list, with the white space behind it. -/
theorem withBlanks_of_steps {α : Type} {item : List Char → α → List Char → Prop}
    {list : List Char → List α → List Char → Prop} {a : α} {as : List α}
    (h : Steps (WithBlanks item) (IsToken ',') s as u) (ha : WithBlanks item r a s)
    (hone : ∀ {r a s}, item r a s → list r [a] s)
    (hcons : ∀ {r a s t as u}, item r a s → Structural ',' s t → list t as u →
      list r (a :: as) u) : WithBlanks list r (a :: as) u := by
  induction h generalizing r a with
  | nil =>
    obtain ⟨t, ha, hblanks⟩ := ha
    exact ⟨t, hone ha, hblanks⟩
  | cons hsep hitem _ _ ih =>
    obtain ⟨t, ha, hblanks⟩ := ha
    obtain ⟨t', hrest, hblanks'⟩ := ih hitem
    exact ⟨t', hcons ha (hsep.structural hblanks) hrest, hblanks'⟩

/-! ## Values -/

section Finds

variable {env : Env Char fun _ : Unit => Json} {n m b : Nat}

/-- Items between brackets, of parsers that are known on what is shorter than the whole. -/
theorem brackets_find {α : Type} {p : Grammar α} {opening closing : Char}
    {item : List Char → α → List Char → Prop} (hn : 3 < n) (hb : b ≤ n) (hr : bytes r ≤ b)
    (hm : n + 1 < m)
    (hp : ∀ r, bytes r < b → p.Finds env n r (item r))
    (hforward : ∀ r a s, item r a s → bytes s ≤ bytes r) :
    ((Parser.sepBy p (token ',') {}).between (token opening) (token closing)).Finds env m r
      fun as u => ∃ s t, IsToken opening r s ∧ IsToken closing t u ∧
        (as = [] ∧ t = s ∨
          ∃ a as' s', as = a :: as' ∧ item s a s' ∧ Steps item (IsToken ',') s' as' t) := by
  have hcomma (r : List Char) (_ : bytes r < b) : (token ',').Finds env n r
      fun _ s => IsToken ',' r s ∧ bytes s ≤ bytes r :=
    (token_finds hn).finds_mono fun _ s h => ⟨h, Nat.le_of_lt h.bytes_lt⟩
  refine .between_finds (n := n + 1) hm ((token_finds (by omega)).finds_mono fun _ s hopen => ?_)
  have hs : bytes s < b := Nat.lt_of_lt_of_le hopen.bytes_lt hr
  refine .finds_mono (.sepBy_finds (Nat.lt_succ_self n) hb hs hp hcomma hforward) fun as t h => ?_
  exact (token_finds (by omega)).finds_mono fun _ u hclose => ⟨s, t, hopen, hclose, h⟩

/-- Of the parser of values one knows that it finds values. -/
abbrev ValueFound (env : Env Char fun _ : Unit => Json) (n : Nat) (r : List Char) : Prop :=
  valueRef.Finds env n r (WithBlanks (ValueText Replaced) r)

theorem array_finds (hn : 3 < n) (hb : b ≤ n) (hr : bytes r ≤ b) (hm : n + 2 < m)
    (hvalue : ∀ r, bytes r < b → ValueFound env n r) :
    arrayValue.Finds env m r (WithBlanks (ValueText Replaced) r) := by
  have hforward (r : List Char) (v : Json) (s : List Char)
      (h : WithBlanks (ValueText Replaced) r v s) : bytes s ≤ bytes r := by
    obtain ⟨t, hv, hblanks⟩ := h
    exact Nat.le_trans hblanks.bytes_le (Nat.le_of_lt hv.shorter.lt)
  refine .map_finds (n := m - 1) (by omega) ?_
  refine (brackets_find hn hb hr (by omega) hvalue hforward).finds_mono fun vs u h => ?_
  obtain ⟨s, t, hopen, hclose, ⟨rfl, rfl⟩ | ⟨v, vs, s', rfl, hv, hsteps⟩⟩ := h
  · exact ⟨_, .emptyArray (hopen.structural .nil) (hclose.structural .nil), .nil⟩
  · have hlist : WithBlanks (Elements Replaced) s (v :: vs) t :=
      withBlanks_of_steps hsteps hv .one .cons
    obtain ⟨t', helements, hblanks⟩ := hlist
    exact ⟨_, .array (hopen.structural .nil) helements (hclose.structural hblanks), .nil⟩

theorem member_finds (hn : 3 < n) (hr : bytes r < b) (hb : b + 4 ≤ n) (hm : n + 1 < m)
    (hvalue : ∀ r, bytes r < b → ValueFound env n r) :
    member.Finds env m r (WithBlanks (MemberText Replaced) r) := by
  refine .andMap_finds (n := m - 1) (by omega) (skip_blank_finds (by omega) ?_)
  refine (string_finds (by omega)).finds_mono fun key s hkey => ?_
  refine .andMap_finds (n := n) (by omega) ((token_finds hn).finds_mono fun _ t hcolon => ?_)
  have ht : bytes t < b := by
    have := hcolon.bytes_lt
    have := (blanks_skipBlanks s).bytes_le
    have := hkey.shorter.lt
    omega
  refine (hvalue t ht).finds_mono fun v u h => ?_
  obtain ⟨u', hv, hblanks⟩ := h
  exact ⟨u', ⟨hkey, hcolon.structural (blanks_skipBlanks s), hv⟩, hblanks⟩

theorem object_finds (hn : 3 < n) (hb : b + 4 ≤ n) (hr : bytes r ≤ b) (hm : n + 4 < m)
    (hvalue : ∀ r, bytes r < b → ValueFound env n r) :
    objectValue.Finds env m r (WithBlanks (ValueText Replaced) r) := by
  have hforward (r : List Char) (x : String × Json) (s : List Char)
      (h : WithBlanks (MemberText Replaced) r x s) : bytes s ≤ bytes r := by
    obtain ⟨t, hx, hblanks⟩ := h
    exact Nat.le_trans hblanks.bytes_le (Nat.le_of_lt hx.shorter.lt)
  have hmember (r : List Char) (hr : bytes r < b) :
      member.Finds env (n + 2) r (WithBlanks (MemberText Replaced) r) :=
    member_finds hn hr hb (by omega) hvalue
  refine .map_finds (n := m - 1) (by omega) ?_
  refine (brackets_find (by omega) (by omega) hr (by omega) hmember hforward).finds_mono
    fun xs u h => ?_
  obtain ⟨s, t, hopen, hclose, ⟨rfl, rfl⟩ | ⟨x, xs, s', rfl, hx, hsteps⟩⟩ := h
  · exact ⟨_, .emptyObject (hopen.structural .nil) (hclose.structural .nil), .nil⟩
  · have hlist : WithBlanks (Members Replaced) s (x :: xs) t :=
      withBlanks_of_steps hsteps hx .one .cons
    obtain ⟨t', hmembers, hblanks⟩ := hlist
    exact ⟨_, .object (hopen.structural .nil) hmembers (hclose.structural hblanks), .nil⟩

/-- The parser of values returns, and finds only values. The induction is on the bound. -/
theorem value_finds (hrules : env.rules () = some value) (hr : bytes r < b) :
    value.Finds env (32 * b) r (WithBlanks (ValueText Replaced) r) := by
  induction b generalizing r with
  | zero => omega
  | succ b ih =>
    have hvalue (r : List Char) (hr : bytes r < b) : ValueFound env (32 * b + 8) r :=
      .rule hrules (by omega) (ih hr)
    have hname {name : String} {v : Json} (hv : ∀ s, ValueText Replaced (name.toList ++ s) v s) :
        ((Parser.literal (.string name)).withValue v : Grammar Json).Finds env (32 * (b + 1) - 2) r
          (WithBlanks (ValueText Replaced) r) := by
      refine (name_finds (by omega)).finds_mono fun v' s h => ?_
      obtain ⟨rfl, rfl⟩ := h
      exact ⟨s, hv s, .nil⟩
    have hkinds : ∀ p ∈ kinds.toList,
        p.Finds env (32 * (b + 1) - 2) r (WithBlanks (ValueText Replaced) r) := by
      intro p hp
      rw [kinds, Parsers.toList_ofList] at hp
      simp only [List.mem_cons, List.not_mem_nil, or_false] at hp
      rcases hp with rfl | rfl | rfl | rfl | rfl | rfl | rfl
      · exact hname fun _ => .null
      · exact hname fun _ => .true
      · exact hname fun _ => .false
      · refine (number_finds (by omega)).finds_mono fun v s h => ?_
        obtain ⟨w, x, rfl, hw, hvalue, rfl⟩ := h
        exact ⟨s, .number hw hvalue, .nil⟩
      · refine .map_finds (n := 32 * b + 28) (by omega) ?_
        exact (string_finds (by omega)).finds_mono fun x s h => ⟨s, .string h, .nil⟩
      · exact array_finds (by omega) (by omega) (by omega) (by omega) hvalue
      · exact object_finds (by omega) (by omega) (by omega) (by omega) hvalue
    refine value_of_kinds (by omega) fun p hp => (hkinds p hp).finds_mono fun v s h => ?_
    obtain ⟨t, hv, hblanks⟩ := h
    exact ⟨t, hv, hblanks.trans (blanks_skipBlanks _)⟩

end Finds

end Json

end Backtrack
