import Backtrack.Proofs.Rest
import Backtrack.Script

/-!
# Lexemes of the scripting language

What the parsers of white space, identifiers and keywords do on the rest of a text. A word begins
with a character of the alphabet that starts words or with an underscore, and goes on with
characters that continue them. An identifier is a whole word: the parser takes all characters that
continue it (`ident_takes`). A keyword is only its characters: it is taken wherever the text begins
with them, whatever comes behind (`keyword_takes`).

Of the alphabet, what is asked is what Unicode promises of its properties (`Alphabet.Lawful`).
-/

namespace Backtrack

open Unicode (Row Trait)

namespace Script

/-! ## Keywords, numbers and strings -/

section Plain

variable {env : Env Char Rule.Value} {m : Nat} {r s : List Char}

theorem bracket_refuses {α β : Type} {p : Grammar α} {post : Grammar β} {x : Char} (hm : 1 < m)
    (hr : x ∉ r.head?) : (p.between (.el x) post).Refuses env m r :=
  .between_refuses (n := m - 1) (by omega) (.el_refuses (by omega) hr)

theorem keyword_takes {α : Type} {word : String} {a : α} (hm : 1 < m) :
    ((Parser.literal (.string word)).withValue a : Grammar α).Takes env m (word.toList ++ s) a s :=
  .map_takes (n := m - 1) (by omega) (.literal_takes (by omega))

theorem keyword_refuses {α : Type} {word : String} {a : α} (hm : 1 < m)
    (hr : ¬ word.toList <+: r) :
    ((Parser.literal (.string word)).withValue a : Grammar α).Refuses env m r :=
  .map_refuses (n := m - 1) (by omega) (.literal_refuses (by omega) hr)

theorem boolean_takes_true (hm : 3 < m) :
    boolean.Takes env m ("true".toList ++ s) (.bool true) s :=
  .map_takes (n := m - 1) (by omega) (.either (n := m - 2) (by omega)
    ((keyword_takes (by omega)).of_eq rfl))

theorem boolean_takes_false (hm : 3 < m) :
    boolean.Takes env m ("false".toList ++ s) (.bool false) s := by
  have htrue : ¬ "true".toList <+: "false".toList ++ s := by simp
  refine .map_takes (n := m - 1) (by omega) (.either (n := m - 2) (by omega) ?_)
  exact (keyword_refuses (by omega) htrue).of_eq ((keyword_takes (by omega)).of_eq rfl)

theorem boolean_refuses (hm : 3 < m) (htrue : ¬ "true".toList <+: r)
    (hfalse : ¬ "false".toList <+: r) : boolean.Refuses env m r := by
  refine .map_refuses (n := m - 1) (by omega) (.either_refuses (n := m - 2) (by omega) ?_ ?_)
  · exact keyword_refuses (by omega) htrue
  · exact keyword_refuses (by omega) hfalse

theorem number_refuses (hm : bytes r + 4 < m)
    (hr : ∀ x ∈ r.head?, x ∉ "0123456789+-".toList) : number.Refuses env m r := by
  have hdigit (x : Char) (hx : x ∈ r.head?) : x ∉ "0123456789".toList := fun h =>
    hr x hx (List.mem_append_left "+-".toList h)
  have hsign (x : Char) (hx : x ∈ r.head?) : x ∉ "+-".toList := fun h =>
    hr x hx (List.mem_append_right "0123456789".toList h)
  have hdigits : digits.Refuses env (m - 3) r := by
    let none (count : Nat) (s : List Char) : Prop := count = 0 ∧ s = r
    refine .manyAccum (n := m - 4) (I := none) (J := none) (by omega) (by omega)
      (fun count s _ hs => ?_) ⟨rfl, rfl⟩ (fun count s b hs hle => ?_) fun _ _ _ _ => rfl
    · obtain ⟨rfl, rfl⟩ := hs
      exact (Parser.OnRest.oneOf_refuses (by omega) hdigit).of_eq ⟨rfl, rfl⟩
    · rw [hs.1] at hle
      cases hle
  refine .label (n := m - 1) (by omega) (.andMap_refuses_next (n := m - 2) (s := r)
    (a := '+') (by omega) ?_ ?_)
  · refine .option (n := m - 3) (by omega) ?_
    exact (Parser.OnRest.oneOf_refuses (by omega) hsign).of_eq rfl
  · exact .andMap_refuses (n := m - 3) (by omega) hdigits

theorem string_refuses (hm : 2 < m) (hr : '"' ∉ r.head?) : string.Refuses env m r :=
  .map_refuses (n := m - 1) (by omega) (bracket_refuses (by omega) hr)

end Plain

/-! ## Characters -/

/-- What holds of white space and of the characters of words: what starts a word may also continue
one, and words are kept apart from white space, punctuation and numbers. -/
class Alphabet.Lawful (A : Alphabet) : Prop where
  continues_of_starts : ∀ c, A.isStart c = true → A.isContinue c = true
  not_blank_of_continues : ∀ c, A.isContinue c = true → A.isBlank c = false
  starts_letter : ∀ c : Char, c.isLower = true → A.isStart c = true
  continues_underscore : A.isContinue '_' = true
  continues_punctuation : ∀ c ∈ "\"(){}.,;=".toList, A.isContinue c = false
  starts_number : ∀ c ∈ "0123456789+-".toList, A.isStart c = false
  not_blank_semicolon : A.isBlank ';' = false

/-- What starts words continues them, and no white space does. -/
theorem Alphabet.unicode_traits (c : Char) :
    (Trait.xidStart.holds c = true → Trait.xidContinue.holds c = true) ∧
      (Trait.xidContinue.holds c = true → Trait.whiteSpace.holds c = false) := by
  unfold Trait.holds
  exact Row.of_induction (Q := fun row =>
      (row.traits.contains .xidStart = true → row.traits.contains .xidContinue = true) ∧
      (row.traits.contains .xidContinue = true → row.traits.contains .whiteSpace = false))
    (by decide +kernel) (fun n => by simp [Row.unassigned]) c

/-- The small letters are the code points from 97 to 122. -/
theorem Alphabet.unicode_letters (c : Char) (hc : c.isLower = true) :
    Trait.xidStart.holds c = true := by
  have hall : ∀ n : Fin 26, Trait.xidStart.holds (Char.ofNat (97 + n)) = true := by decide +kernel
  have hbounds : 97 ≤ c.toNat ∧ c.toNat ≤ 122 :=
    (Bool.and_eq_true_iff.mp hc).imp of_decide_eq_true of_decide_eq_true
  have hletter := hall ⟨c.toNat - 97, by omega⟩
  rwa [Nat.add_sub_cancel' hbounds.1, Char.ofNat_toNat] at hletter

theorem forall_mem_of_all_not {p : Char → Bool} {cs : List Char}
    (h : (cs.all fun c => !p c) = true) : ∀ c ∈ cs, p c = false := by
  simpa using h

instance : Alphabet.unicode.Lawful where
  continues_of_starts c := (Alphabet.unicode_traits c).1
  not_blank_of_continues c := (Alphabet.unicode_traits c).2
  starts_letter := Alphabet.unicode_letters
  continues_underscore := by decide +kernel
  continues_punctuation := forall_mem_of_all_not (by decide +kernel)
  starts_number := forall_mem_of_all_not (by decide +kernel)
  not_blank_semicolon := by decide +kernel

variable [A : Alphabet]

/-- A word may begin with the character. -/
def begins (c : Char) : Bool := Alphabet.isStart c || c == '_'

/-- A word may go on with the character. -/
def continues (c : Char) : Bool := Alphabet.isContinue c

/-- A word of the syntax of identifiers. -/
def isWord : List Char → Bool
  | [] => false
  | c :: cs => begins c && cs.all continues

/-- The characters of white space. -/
def isBlank (c : Char) : Bool := Alphabet.isBlank c

theorem isWord_cons {c : Char} {cs : List Char} :
    isWord (c :: cs) = true ↔ begins c = true ∧ ∀ x ∈ cs, continues x = true := by
  rw [isWord, Bool.and_eq_true, List.all_eq_true]

section Lawful

variable [A.Lawful] {c : Char}

theorem continues_of_begins (h : begins c = true) : continues c = true := by
  rw [begins, Bool.or_eq_true, beq_iff_eq] at h
  obtain h | rfl := h
  · exact Alphabet.Lawful.continues_of_starts c h
  · exact Alphabet.Lawful.continues_underscore

theorem not_blank_of_continues (h : continues c = true) : isBlank c = false :=
  Alphabet.Lawful.not_blank_of_continues c h

theorem begins_letter (h : c.isLower = true) : begins c = true := by
  rw [begins, Alphabet.Lawful.starts_letter c h, Bool.true_or]

/-- Punctuation is not a part of words. -/
theorem continues_punctuation : ∀ c ∈ "\"(){}.,;=".toList, continues c = false :=
  Alphabet.Lawful.continues_punctuation

/-- A word does not begin as a number does. -/
theorem begins_number : ∀ c ∈ "0123456789+-".toList, begins c = false := by
  intro c hc
  have hne : c ≠ '_' := by
    rintro rfl
    exact absurd hc (by decide)
  rw [begins, Alphabet.Lawful.starts_number c hc, Bool.false_or]
  exact beq_eq_false_iff_ne.mpr hne

end Lawful

/-- Nothing in front of the rest goes on with an expression, and there is no white space. -/
def Inert (r : List Char) : Prop := ∀ x ∈ r.head?, isBlank x = false ∧ x ≠ '(' ∧ x ≠ '.'

theorem Inert.append [A.Lawful] {w s : List Char} (hw : ∀ x ∈ w, continues x = true)
    (hs : Inert s) : Inert (w ++ s) := by
  cases w with
  | nil => exact hs
  | cons c cs =>
    rintro x ⟨⟩
    have hc := hw c List.mem_cons_self
    refine ⟨not_blank_of_continues hc, ?_, ?_⟩
    · rintro rfl
      rw [continues_punctuation _ (by decide)] at hc
      cases hc
    · rintro rfl
      rw [continues_punctuation _ (by decide)] at hc
      cases hc

/-- What a word does not begin with, the word does not begin with where something else follows. -/
theorem prefix_of_append {k w s : List Char} (hk : ∀ x ∈ k, continues x = true)
    (hs : ∀ x ∈ s.head?, continues x = false) (h : k <+: w ++ s) : k <+: w := by
  induction w generalizing k with
  | nil =>
    cases k with
    | nil => exact List.nil_prefix
    | cons x k =>
      obtain ⟨t, rfl⟩ := h
      have hx := hk x List.mem_cons_self
      rw [hs x rfl] at hx
      cases hx
  | cons c w ih =>
    cases k with
    | nil => exact List.nil_prefix
    | cons x k =>
      rw [List.cons_append, List.cons_prefix_cons] at h
      rw [List.cons_prefix_cons]
      exact ⟨h.1, ih (fun y hy => hk y (List.mem_cons_of_mem x hy)) h.2⟩

/-! ## White space -/

section Parsers

variable {env : Env Char Rule.Value} {m : Nat} {r s : List Char}

theorem dropWhile_blank (hr : ∀ x ∈ r.head?, isBlank x = false) : r.dropWhile isBlank = r := by
  cases r with
  | nil => rfl
  | cons c r =>
    rw [List.dropWhile_cons_of_neg]
    rw [hr c rfl]
    exact Bool.false_ne_true

/-- All white space is taken. -/
theorem blank_takes (hm : bytes r + 1 < m) : blank.Takes env m r () (r.dropWhile isBlank) := by
  let waits (_ : Nat) (s : List Char) : Prop := s.dropWhile isBlank = r.dropWhile isBlank
  let ends (_ : Nat) (s : List Char) : Prop := s = r.dropWhile isBlank
  have hn : bytes r < m - 1 := by omega
  refine .manyAccum (n := m - 1) (I := waits) (J := ends) (by omega) hn (fun count s _ hs => ?_)
    rfl (fun count s b hs _ => ?_) fun count s _ hlt => absurd hlt (Nat.not_lt_zero _)
  · refine .satisfy (by omega) (fun c t ht hc => ?_) fun hno => ?_
    · subst ht
      have hskip : (c :: t).dropWhile isBlank = t.dropWhile isBlank := List.dropWhile_cons_of_pos hc
      exact ⟨hskip.symm.trans hs, bytes_lt_cons c t⟩
    · exact (dropWhile_blank hno).symm.trans hs
  · rw [hs]

theorem blank_stays (hm : bytes r + 1 < m) (hr : ∀ x ∈ r.head?, isBlank x = false) :
    blank.Takes env m r () r := by
  have h : blank.Takes env m r () (r.dropWhile isBlank) := blank_takes hm
  rwa [dropWhile_blank hr] at h

/-! ## Identifiers -/

theorem steps_continues {cs : List Char} (hm : 0 < m) (hcs : ∀ x ∈ cs, continues x = true) :
    Steps ((Parser.charWith continues : Grammar Char).Takes env m) (fun r s => r = s) (cs ++ s)
      cs s := by
  induction cs with
  | nil => exact .nil
  | cons c cs ih =>
    have hc := hcs c List.mem_cons_self
    refine .cons rfl (.charWith hm (fun x t ht _ => ?_) fun hno => ?_) (bytes_lt_cons c _)
      (ih fun x hx => hcs x (List.mem_cons_of_mem c hx))
    · cases ht
      rfl
    · rw [hno c rfl] at hc
      cases hc

/-- A word is taken as a whole. -/
theorem ident_takes {w : List Char} (hm : bytes (w ++ s) + 3 < m) (hw : isWord w = true)
    (hs : ∀ x ∈ s.head?, continues x = false) :
    ident.Takes env m (w ++ s) (.ofList w) s := by
  cases w with
  | nil => cases hw
  | cons c cs =>
    obtain ⟨hc, hcs⟩ := isWord_cons.mp hw
    have hlt := bytes_lt_cons c (cs ++ s)
    refine .label (n := m - 1) (by omega) (.andMap_takes (n := m - 2) (s := cs ++ s)
      (by omega) ?_ ?_)
    · refine .either (n := m - 3) (by omega)
        (.charWith (by omega) (fun x t ht _ => ?_) fun hno => ?_)
      · cases ht
        rfl
      · refine .el (by omega) (fun t ht => ?_) fun hne => ?_
        · cases ht
          rfl
        · rw [begins, hno c rfl, Bool.false_or, beq_iff_eq] at hc
          exact absurd (congrArg (· :: (cs ++ s)) hc) (hne _)
    · have hlt' : bytes (cs ++ s) < m - 3 := by
        rw [List.cons_append] at hm
        omega
      refine .many_takes (n := m - 3) (by omega) hlt' (steps_continues (by omega) hcs) ?_
      exact .charWith_refuses (by omega) hs

theorem ident_refuses (hm : 3 < m) (hr : ∀ x ∈ r.head?, begins x = false) :
    ident.Refuses env m r := by
  have hstart (x : Char) (hx : x ∈ r.head?) : A.isStart x = false ∧ x ≠ '_' := by
    have h := hr x hx
    rw [begins, Bool.or_eq_false_iff] at h
    exact ⟨h.1, by simpa using h.2⟩
  refine .label (n := m - 1) (by omega) (.andMap_refuses (n := m - 2) (by omega) ?_)
  refine .either_refuses (n := m - 3) (by omega) ?_ (.el_refuses (by omega) fun h => ?_)
  · exact .charWith_refuses (by omega) fun x hx => (hstart x hx).1
  · exact (hstart _ h).2 rfl

/-- A keyword that goes before a bracket, with white space between them, is taken back where there
is no bracket. -/
theorem guard_refuses {α β γ δ : Type} {word : String} {x : Char} {p : Grammar α} {post : Grammar β}
    {f : Pattern Char → Unit → γ} {g : γ → α → δ} (hm : bytes r + 3 < m)
    (hr : ∀ t, r = word.toList ++ t → x ∉ (t.dropWhile isBlank).head?) :
    (((Parser.literal (.string word)).andMap blank f).andMap (p.between (.el x) post) g).Refuses
      env m r := by
  by_cases hword : word.toList <+: r
  · obtain ⟨t, rfl⟩ := hword
    rw [bytes_append] at hm
    refine .andMap_refuses_next (n := m - 1) (by omega) (.andMap_takes (n := m - 2) (by omega)
      (.literal_takes (by omega)) (blank_takes (by omega))) ?_
    exact bracket_refuses (by omega) (hr t rfl)
  · exact .andMap_refuses (n := m - 1) (by omega) (.andMap_refuses (n := m - 2) (by omega)
      (.literal_refuses (by omega) hword))

/-! ## What follows an expression -/

theorem tail_takes (head : Expr) (hm : bytes r + 7 < m) (hr : Inert r) :
    (tail head).Takes env m r head r := by
  have hcall : '(' ∉ r.head? := fun h => (hr _ h).2.1 rfl
  have hproperty : '.' ∉ r.head? := fun h => (hr _ h).2.2 rfl
  refine .map_takes (n := m - 1) (by omega) (.many_takes (n := m - 2) (by omega) (by omega) .nil ?_)
  refine .andMap_refuses (n := m - 3) (by omega) (.either_refuses (n := m - 4) (by omega) ?_ ?_)
  · exact .map_refuses (n := m - 5) (by omega) (bracket_refuses (by omega) hcall)
  · refine .map_refuses (n := m - 5) (by omega) (.andMap_refuses (n := m - 6) (by omega) ?_)
    exact .andMap_refuses (n := m - 7) (by omega) (.el_refuses (by omega) hproperty)

end Parsers

end Script

end Backtrack
