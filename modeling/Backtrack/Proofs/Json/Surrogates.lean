import Backtrack.Proofs.Json.Exact

/-!
# Characters that are escaped as two surrogates

RFC 8259 escapes a character from U+10000 on as the two surrogates that UTF-16 makes of it, with an
escape for each of them. The parser decodes every escape by itself, and a surrogate alone is no
character: each of the two becomes U+FFFD. All other spellings are read as the characters that they
spell, so that a literal is read as what it spells if and only if it has no such pair of escapes
(`Json.literal_read`).
-/

namespace Backtrack

namespace Json

/-! ## Spelling -/

/-- The escape of a number of 16 bits, behind the backslash. -/
inductive CodeUnit : List Char → Nat → Prop where
  | mk {a b c d : Char} {i j k l : Nat} (ha : HexDigit a i) (hb : HexDigit b j) (hc : HexDigit c k)
    (hd : HexDigit d l) : CodeUnit ['u', a, b, c, d] (16 * (16 * (16 * i + j) + k) + l)

/-- The escapes of the two surrogates of a character that has more than 16 bits. -/
structure SurrogatePair (x : Char) (high low : List Char) : Prop where
  large : 0x10000 ≤ x.toNat
  high : CodeUnit high (0xd800 + (x.toNat - 0x10000) / 0x400)
  low : CodeUnit low (0xdc00 + (x.toNat - 0x10000) % 0x400)

/-- The text of the first list spells the characters of the second one, each as itself, as an
escape, or as a pair of escapes. Decoded one by one, the escapes give the third list. -/
inductive Spells : List Char → List Char → List Char → Prop where
  | nil : Spells [] [] []
  | plain {c : Char} {r xs ys : List Char} (hc : IsPlain c) (h : Spells r xs ys) :
    Spells (c :: r) (c :: xs) (c :: ys)
  | escape {code : List Char} {x : Char} {r xs ys : List Char}
    (hcode : Escape (fun _ => False) code x) (h : Spells r xs ys) :
    Spells ('\\' :: (code ++ r)) (x :: xs) (x :: ys)
  | pair {x : Char} {high low r xs ys : List Char} (hpair : SurrogatePair x high low)
    (h : Spells r xs ys) :
    Spells ('\\' :: (high ++ '\\' :: (low ++ r))) (x :: xs) ('\ufffd' :: '\ufffd' :: ys)

/-- The text of a string. -/
def quoted (r : List Char) : List Char := '"' :: (r ++ ['"'])

/-! ## Decoding -/

variable {r xs ys s code : List Char}

/-- The escape of a surrogate is replaced. -/
theorem CodeUnit.replaced {n : Nat} (h : CodeUnit code n) (hfirst : 0xd800 ≤ n)
    (hlast : n ≤ 0xdfff) : Escape Replaced code '\ufffd' := by
  obtain ⟨ha, hb, hc, hd⟩ := h
  exact .surrogate ha hb hc hd hfirst hlast rfl

/-- Both escapes of a pair are those of surrogates. -/
theorem SurrogatePair.replaced {x : Char} {high low : List Char} (h : SurrogatePair x high low) :
    Escape Replaced high '\ufffd' ∧ Escape Replaced low '\ufffd' := by
  have hlarge := h.large
  have hvalid : x.toNat.isValidChar := x.valid
  have hlt : x.toNat < 0x110000 := by
    rw [Nat.isValidChar] at hvalid
    omega
  -- There are less than 2 ^ 20 characters from U+10000 on, so the quotient is less than 2 ^ 10.
  exact ⟨h.high.replaced (by omega) (by omega), h.low.replaced (by omega) (by omega)⟩

theorem exists_replaced : ∃ x, Replaced x := ⟨_, rfl⟩

theorem Spells.characters (h : Spells r xs ys) (s : List Char) :
    Characters Replaced (r ++ s) ys s := by
  induction h with
  | nil => exact .nil
  | plain hc _ ih => exact .plain hc ih
  | @escape code x r xs ys hcode _ ih =>
    obtain ⟨x', hcode', heq⟩ := hcode.relax exists_replaced
    rw [heq fun _ => False.elim] at hcode'
    rw [List.cons_append, List.append_assoc]
    exact .escape hcode' ih
  | @pair x high low r xs ys hpair _ ih =>
    obtain ⟨hhigh, hlow⟩ := hpair.replaced
    rw [List.cons_append, List.append_assoc, List.cons_append, List.append_assoc]
    exact .escape hhigh (.escape hlow ih)

/-- A literal is a document, with the characters that its escapes give one by one. -/
theorem Spells.parse?_eq (h : Spells r xs ys) :
    parse? (quoted r) = some (.success (bytes (quoted r)) (.string (.ofList ys))) := by
  have hstring : StringText Replaced (quoted r) (.ofList ys) [] := ⟨h.characters ['"']⟩
  exact parse?_of_document ⟨.nil, .string hstring, .nil⟩

/-! ## Pairs -/

/-- A pair gives two characters for one. -/
theorem Spells.length_le (h : Spells r xs ys) : xs.length ≤ ys.length := by
  induction h with
  | nil => exact Nat.le_refl 0
  | plain _ _ ih => exact Nat.succ_le_succ ih
  | escape _ _ ih => exact Nat.succ_le_succ ih
  | pair _ _ ih => exact Nat.le_succ_of_le (Nat.succ_le_succ ih)

/-- The escapes give what the text spells if none of them is that of a surrogate. -/
theorem Spells.eq_iff (h : Spells r xs ys) :
    ys = xs ↔ Characters (fun _ => False) r xs [] := by
  constructor
  · intro heq
    induction h with
    | nil => exact .nil
    | plain hc _ ih => exact .plain hc (ih (List.cons.inj heq).2)
    | escape hcode _ ih => exact .escape hcode (ih (List.cons.inj heq).2)
    | pair _ h _ =>
      have hle := h.length_le
      have hlength := congrArg List.length heq
      simp only [List.length_cons] at hlength
      omega
  · intro hspelled
    have hstuck : Stuck [] := ⟨nofun, fun _ _ _ _ => nofun⟩
    obtain ⟨xs', hread, heq⟩ := hspelled.relax exists_replaced
    rw [heq fun _ => False.elim] at hread
    have hchars := h.characters []
    rw [List.append_nil] at hchars
    exact (hchars.unique hstuck hread hstuck).1

/-- A literal is read to its end as the characters that it spells, except that U+FFFD stands twice
where a character is escaped as two surrogates. So it is read as what it spells if and only if it
has no escape of a surrogate. -/
theorem literal_read (h : Spells r xs ys) :
    parse? (quoted r) = some (.success (bytes (quoted r)) (.string (.ofList ys))) ∧
      (parse? (quoted r) = some (.success (bytes (quoted r)) (.string (.ofList xs))) ↔
        Characters (fun _ => False) r xs []) := by
  have hinj : String.ofList ys = String.ofList xs ↔ ys = xs := by
    rw [← String.toList_inj, String.toList_ofList, String.toList_ofList]
  refine ⟨h.parse?_eq, ?_⟩
  rw [h.parse?_eq, ← h.eq_iff, ← hinj]
  simp

/-- The surrogates of U+1F600 are `\uD83D` and `\uDE00`. -/
theorem spells_face :
    Spells ['\\', 'u', 'D', '8', '3', 'D', '\\', 'u', 'D', 'E', '0', '0'] ['😀']
      ['\ufffd', '\ufffd'] := by
  have hhigh : CodeUnit ['u', 'D', '8', '3', 'D'] 0xd83d :=
    .mk (i := 13) (j := 8) (k := 3) (l := 13) (.inr rfl) (.inr rfl) (.inr rfl) (.inr rfl)
  have hlow : CodeUnit ['u', 'D', 'E', '0', '0'] 0xde00 :=
    .mk (i := 13) (j := 14) (k := 0) (l := 0) (.inr rfl) (.inr rfl) (.inr rfl) (.inr rfl)
  have hface : ('😀').toNat = 0x1f600 := by decide
  have hpair : SurrogatePair '😀' ['u', 'D', '8', '3', 'D'] ['u', 'D', 'E', '0', '0'] := by
    refine ⟨?_, ?_, ?_⟩ <;> rw [hface]
    · decide
    · exact hhigh
    · exact hlow
  exact .pair (r := []) hpair .nil

/-- A pair is read to its end, as something else than what it spells. -/
theorem literal_read_face :
    parse? (quoted ['\\', 'u', 'D', '8', '3', 'D', '\\', 'u', 'D', 'E', '0', '0']) =
      some (.success 14 (.string "\ufffd\ufffd")) :=
  (literal_read spells_face).1

/-- Pairs of surrogates are not decoded to one character. -/
theorem pairs_not_decoded :
    ¬ ∀ r xs ys, Spells r xs ys →
      parse? (quoted r) = some (.success (bytes (quoted r)) (.string (.ofList xs))) := by
  intro h
  have hread := h _ _ _ spells_face
  rw [spells_face.parse?_eq] at hread
  simp at hread

end Json

end Backtrack
