import Backtrack.Proofs.Json.Lexemes

/-!
# Strings of JSON

A string is read by a block that alternates chunks of plain characters and escapes. One pass of it
reads characters of the grammar, and where no pass succeeds the grammar has no character either
(`stringPass_yields`). So the passes together read all characters that there are
(`passLoop_yields`), of which there is only one way to read them (`Characters.unique`).
-/

namespace Backtrack

namespace Json

open Regex Regex.Node
open Regex.CharSet hiding none

/-! ## Plain characters -/

theorem contains_plain {c : Char} :
    (CharSet.compl (ofList [.char '"', .char '\\', range '\x00' '\x1f'])).contains c = true ↔
      IsPlain c := by
  have hout : (ofList [.char '"', .char '\\', range '\x00' '\x1f']).contains c = true ↔
      c = '"' ∨ c = '\\' ∨ c.toNat ≤ 0x1f := by
    simp [contains_ofList, contains_char, contains_range]
  have hquote : c = '"' ↔ c.toNat = 0x22 := by rw [← Char.toNat_inj]; rfl
  have hbackslash : c = '\\' ↔ c.toNat = 0x5c := by rw [← Char.toNat_inj]; rfl
  rw [contains, Bool.not_eq_true', ← Bool.not_eq_true, hout, hquote, hbackslash, IsPlain]
  omega

instance : DecidablePred IsPlain := fun _ => inferInstanceAs (Decidable (_ ∨ _ ∨ _))

/-- A chunk is found where there is a plain character. -/
theorem plainText_match {c : Char} {r : List Char} (hc : IsPlain c) :
    (plainText.match? (c :: r)).isSome = true := by
  have hrun : (plainText.node.run { rest := c :: r } some).isSome = true :=
    Option.isSome_of_eq_some (run_set rfl (contains_plain.mpr hc) (run_star_takeWhile rfl))
  simpa [Program.match?] using hrun

/-! ## Escapes -/

instance (c : Char) (d : Nat) : Decidable (HexDigit c d) := inferInstanceAs (Decidable (_ ∨ _))

theorem HexDigit.lt {c : Char} {d : Nat} (h : HexDigit c d) : d < 16 := by
  rcases h with h | h <;> exact (List.getElem?_eq_some_iff.mp h).1

theorem HexDigit.value {c : Char} {d : Nat} (h : HexDigit c d) :
    Reader.hexDigit? c = some d := by
  have hall : ∀ d : Fin 16, Reader.hexDigit? ("0123456789abcdef".toList[d]) = some d.val ∧
      Reader.hexDigit? ("0123456789ABCDEF".toList[d]) = some d.val := by decide +kernel
  have hd := hall ⟨d, h.lt⟩
  rcases h with h | h
  · obtain ⟨_, rfl⟩ := List.getElem?_eq_some_iff.mp h
    exact hd.1
  · obtain ⟨_, rfl⟩ := List.getElem?_eq_some_iff.mp h
    exact hd.2

/-- The set of hexadecimal digits. -/
def hexSet : CharSet := ofList [range '0' '9', range 'a' 'f', range 'A' 'F']

theorem contains_hexDigit {c : Char} : hexSet.contains c = true ↔ ∃ d, HexDigit c d := by
  constructor
  · have hall : ∀ n : Fin 128, hexSet.contains (Char.ofNat n) = true →
        ∃ d : Fin 16, HexDigit (Char.ofNat n) d := by decide +kernel
    intro h
    have hlt : c.toNat < 128 := by
      obtain ⟨s, hs, hc⟩ := contains_ofList.mp h
      simp only [List.mem_cons, List.not_mem_nil, or_false] at hs
      rcases hs with rfl | rfl | rfl <;>
        exact Nat.lt_of_le_of_lt (contains_range.mp hc).2 (by decide)
    obtain ⟨d, hd⟩ := hall ⟨c.toNat, hlt⟩ (by simpa using h)
    exact ⟨d, by simpa using hd⟩
  · have hall : ∀ d : Fin 16, hexSet.contains ("0123456789abcdef".toList[d]) = true ∧
        hexSet.contains ("0123456789ABCDEF".toList[d]) = true := by decide +kernel
    rintro ⟨d, hd⟩
    have hcontains := hall ⟨d, hd.lt⟩
    rcases hd with h | h
    · obtain ⟨_, rfl⟩ := List.getElem?_eq_some_iff.mp h
      exact hcontains.1
    · obtain ⟨_, rfl⟩ := List.getElem?_eq_some_iff.mp h
      exact hcontains.2

/-- What stands for a number that is no character. -/
abbrev Replaced (x : Char) : Prop := x = '\ufffd'

/-- An escape stands for the character that it is read as. -/
theorem Escape.unescape_eq {code : List Char} {x : Char} (h : Escape Replaced code x) :
    unescape code = x := by
  cases h with
  | short h =>
    simp only [shortEscapes, List.mem_cons, Prod.mk.injEq, List.not_mem_nil, or_false] at h
    rcases h with ⟨rfl, rfl⟩ | ⟨rfl, rfl⟩ | ⟨rfl, rfl⟩ | ⟨rfl, rfl⟩ | ⟨rfl, rfl⟩ | ⟨rfl, rfl⟩ |
      ⟨rfl, rfl⟩ | ⟨rfl, rfl⟩ <;> rfl
  | unicode ha hb hc hd hx =>
    simp only [unescape, hexValue, List.foldl, ha.value, hb.value, hc.value, hd.value,
      Option.getD_some]
    have hvalid : x.toNat.isValidChar := x.valid
    rw [Nat.mul_zero, Nat.zero_add, ← hx, Reader.scalar?, if_pos hvalid, Char.ofNat_toNat]
    rfl
  | surrogate ha hb hc hd hfirst hlast hx =>
    simp only [unescape, hexValue, List.foldl, ha.value, hb.value, hc.value, hd.value,
      Option.getD_some]
    rw [Nat.mul_zero, Nat.zero_add, Reader.scalar?, if_neg, hx]
    · rfl
    · rw [Nat.isValidChar]
      omega

/-- Four hexadecimal digits make an escape. -/
theorem exists_escape {a b c d : Char} {i j k l : Nat} (ha : HexDigit a i) (hb : HexDigit b j)
    (hc : HexDigit c k) (hd : HexDigit d l) : ∃ x, Escape Replaced ['u', a, b, c, d] x := by
  have := ha.lt
  have := hb.lt
  have := hc.lt
  have := hd.lt
  by_cases h : (16 * (16 * (16 * i + j) + k) + l).isValidChar
  · refine ⟨Char.ofNatAux _ h, .unicode ha hb hc hd rfl⟩
  · rw [Nat.isValidChar] at h
    exact ⟨'\ufffd', .surrogate ha hb hc hd (by omega) (by omega) rfl⟩

/-- The letters of the escapes of one letter. -/
def shortSet : CharSet := ofString "\"\\/bfnrt"

theorem contains_short {c : Char} : shortSet.contains c = true ↔ ∃ x, (c, x) ∈ shortEscapes := by
  have hletters : "\"\\/bfnrt".toList = shortEscapes.map Prod.fst := rfl
  rw [shortSet, contains_ofString, hletters]
  simp

/-- How the escapes of the grammar are spelled. -/
theorem Escape.spelling {code : List Char} {x : Char} (h : Escape Replaced code x) :
    (∃ c, code = [c] ∧ shortSet.contains c = true) ∨
      ∃ a b c d, code = ['u', a, b, c, d] ∧ hexSet.contains a = true ∧ hexSet.contains b = true ∧
        hexSet.contains c = true ∧ hexSet.contains d = true := by
  cases h with
  | short h => exact .inl ⟨_, rfl, contains_short.mpr ⟨_, h⟩⟩
  | unicode ha hb hc hd _ =>
    exact .inr ⟨_, _, _, _, rfl, contains_hexDigit.mpr ⟨_, ha⟩, contains_hexDigit.mpr ⟨_, hb⟩,
      contains_hexDigit.mpr ⟨_, hc⟩, contains_hexDigit.mpr ⟨_, hd⟩⟩
  | surrogate ha hb hc hd _ _ _ =>
    exact .inr ⟨_, _, _, _, rfl, contains_hexDigit.mpr ⟨_, ha⟩, contains_hexDigit.mpr ⟨_, hb⟩,
      contains_hexDigit.mpr ⟨_, hc⟩, contains_hexDigit.mpr ⟨_, hd⟩⟩

/-- What is found as an escape is one. -/
theorem escape_of_matches {w : List Char} (h : escapeText.node.Matches w) :
    ∃ code x, w = '\\' :: code ∧ Escape Replaced code x := by
  obtain ⟨_, code, ⟨y, hy, rfl⟩, hcode, rfl⟩ := h
  rw [contains_char.mp hy]
  rcases hcode with ⟨x, hx, rfl⟩ | ⟨_, _, ⟨u, hu, rfl⟩, ⟨_, _, ⟨a, ha, rfl⟩, ⟨_, _, ⟨b, hb, rfl⟩,
    ⟨_, _, ⟨c, hc, rfl⟩, ⟨_, _, ⟨d, hd, rfl⟩, rfl, rfl⟩, rfl⟩, rfl⟩, rfl⟩, rfl⟩
  · obtain ⟨y, hxy⟩ := contains_short.mp hx
    exact ⟨[x], y, rfl, .short hxy⟩
  · rw [contains_char.mp hu]
    obtain ⟨i, ha⟩ := contains_hexDigit.mp ha
    obtain ⟨j, hb⟩ := contains_hexDigit.mp hb
    obtain ⟨k, hc⟩ := contains_hexDigit.mp hc
    obtain ⟨l, hd⟩ := contains_hexDigit.mp hd
    obtain ⟨x, hx⟩ := exists_escape ha hb hc hd
    exact ⟨_, x, rfl, hx⟩

/-- An escape is found as a whole, with what follows the backslash as the first group. -/
theorem escapeText_match {code s : List Char} {x : Char} (h : Escape Replaced code x) :
    escapeText.match? ('\\' :: (code ++ s)) =
      some ⟨1 + bytes code, [(1, 1, 1 + bytes code)]⟩ := by
  let start : Cursor := { rest := '\\' :: (code ++ s) }
  have hrest : (start.past ['\\']).rest = code ++ s := rfl
  have hcode : (alt none (.set (ofString "\"\\/bfnrt"))
      (concat [.set (.char 'u'), hexDigit, hexDigit, hexDigit, hexDigit, .empty])).run
        (start.past ['\\']) (fun d => some (d.capture 1 1)) =
      some (((start.past ['\\']).past code).capture 1 1) := by
    rcases h.spelling with ⟨c, rfl, hc⟩ | ⟨a, b, c, d, rfl, ha, hb, hc, hd⟩
    · exact run_alt_left (run_set hrest hc rfl)
    · refine run_alt_right (run_set_none ?_) ?_
      · rintro x ⟨⟩
        decide
      · refine run_set hrest (contains_char.mpr rfl) ?_
        exact run_set rfl ha (run_set rfl hb (run_set rfl hc (run_set rfl hd rfl)))
  have hrun : escapeText.node.run start some =
      some (((start.past ['\\']).past code).capture 1 1) :=
    run_set rfl (contains_char.mpr rfl) hcode
  rw [Program.match?, hrun]
  have hwidth : ('\\').utf8Size = 1 := rfl
  simp [start, Cursor.capture, hwidth]

/-! ## Characters -/

/-- No character of a string stands in front. -/
def Stuck (r : List Char) : Prop :=
  (∀ c ∈ r.head?, ¬ IsPlain c) ∧
    ∀ code x s, Escape Replaced code x → r ≠ '\\' :: (code ++ s)

theorem stuck_quote (s : List Char) : Stuck ('"' :: s) := by
  refine ⟨?_, fun _ _ _ _ => nofun⟩
  rintro c ⟨⟩
  decide

theorem Characters.trans {lone : Char → Prop} {r xs s ys t : List Char}
    (h : Characters lone r xs s) (h' : Characters lone s ys t) :
    Characters lone r (xs ++ ys) t := by
  induction h with
  | nil => exact h'
  | plain hc _ ih => exact .plain hc (ih h')
  | escape hcode _ ih => exact .escape hcode (ih h')

theorem Characters.of_plain {lone : Char → Prop} {w : List Char} (hw : ∀ c ∈ w, IsPlain c)
    (s : List Char) : Characters lone (w ++ s) w s := by
  induction w with
  | nil => exact .nil
  | cons c w ih =>
    rw [List.forall_mem_cons] at hw
    exact .plain hw.1 (ih hw.2)

/-- An escape is not the start of a longer one. -/
theorem Escape.unique {code code' s s' : List Char} {x x' : Char} (h : Escape Replaced code x)
    (h' : Escape Replaced code' x') (heq : code ++ s = code' ++ s') :
    code = code' ∧ x = x' ∧ s = s' := by
  have hlength : code.length = code'.length := by
    have hu : shortSet.contains 'u' = false := by decide
    rcases h.spelling with ⟨y, rfl, hy⟩ | ⟨_, _, _, _, rfl, -⟩ <;>
      rcases h'.spelling with ⟨y', rfl, hy'⟩ | ⟨_, _, _, _, rfl, -⟩
    · rfl
    · cases heq
      rw [hu] at hy
      cases hy
    · cases heq
      rw [hu] at hy'
      cases hy'
    · rfl
  obtain ⟨rfl, rfl⟩ := List.append_inj heq hlength
  exact ⟨rfl, h.unescape_eq.symm.trans h'.unescape_eq, rfl⟩

/-- There is one way to read all characters that there are. -/
theorem Characters.unique {r xs s xs' s' : List Char} (h : Characters Replaced r xs s)
    (hs : Stuck s) (h' : Characters Replaced r xs' s') (hs' : Stuck s') : xs = xs' ∧ s = s' := by
  have hbackslash : ¬ IsPlain '\\' := by decide
  induction h generalizing xs' with
  | nil =>
    cases h' with
    | nil => exact ⟨rfl, rfl⟩
    | plain hc => exact (hs.1 _ rfl hc).elim
    | escape hcode => exact (hs.2 _ _ _ hcode rfl).elim
  | plain hc _ ih =>
    cases h' with
    | nil => exact (hs'.1 _ rfl hc).elim
    | plain _ h' =>
      obtain ⟨rfl, rfl⟩ := ih hs h'
      exact ⟨rfl, rfl⟩
    | escape => exact (hbackslash hc).elim
  | @escape code x r xs s hcode h ih =>
    generalize hr : '\\' :: (code ++ r) = r' at h'
    cases h' with
    | nil => exact (hs'.2 _ _ _ hcode hr.symm).elim
    | plain hc =>
      cases hr
      exact (hbackslash hc).elim
    | escape hcode' h' =>
      obtain ⟨-, rfl, rfl⟩ := hcode.unique hcode' (List.cons.inj hr).2
      obtain ⟨rfl, rfl⟩ := ih hs h'
      exact ⟨rfl, rfl⟩

/-! ## The block -/

/-- A pass of the block. -/
def stringPass : Block Char (fun _ : Unit => Json) String Unit := do
  match ← Block.option (.regex plainText.regex) with
  | some chunk => Block.modify (· ++ chunk)
  | none =>
    let code ← Block.step (.regexGroup escapeText.regex 1) false
    Block.modify fun text => text.push (unescape (code.getD "").toList)

section Passes

variable {env : Env Char fun _ : Unit => Json} {n k pos : Nat} {r : List Char}

theorem plainText_run (hn : 1 < n) :
    (Parser.regex plainText.regex : Grammar String).OnRest env n r fun
      | some (a, s) => a.toList ≠ [] ∧ (∀ c ∈ a.toList, IsPlain c) ∧ r = a.toList ++ s
      | none => ∀ c ∈ r.head?, ¬ IsPlain c := by
  refine .map hn (.regexGroup Nat.one_pos (fun found w s hfound happend hstop => ?_) ?_)
  · obtain ⟨hne, hw⟩ := matches_plus.mp (Program.match?_matches (happend ▸ hfound) hstop)
    have htext := Source.slice?_append [] w s
    simp only [bytes_nil, List.nil_append, Nat.zero_add, ← happend, ← hstop] at htext
    have hvalue : found.text? r 0 = some (String.ofList w) := by
      simp [Match.text?, Match.group?, htext]
    simp only [Option.map_some, hvalue, Option.getD_some, String.toList_ofList]
    exact ⟨hne, fun c hc => contains_plain.mp (hw c hc), happend⟩
  · intro hnone c hc hplain
    obtain ⟨r, rfl⟩ := List.head?_eq_some_iff.mp hc
    have hsome := plainText_match (r := r) hplain
    rw [← Program.match?_regex, hnone] at hsome
    cases hsome

theorem escapeText_run (hn : 0 < n) :
    (Parser.regexGroup escapeText.regex 1 : Grammar (Option String)).OnRest env n r fun
      | some (a, s) => ∃ code x, Escape Replaced code x ∧ r = '\\' :: (code ++ s) ∧
          a = some (String.ofList code)
      | none => ∀ code x s, Escape Replaced code x → r ≠ '\\' :: (code ++ s) := by
  refine .regexGroup hn (fun found w s hfound happend hstop => ?_) ?_
  · obtain ⟨code, x, rfl, hcode⟩ :=
      escape_of_matches (Program.match?_matches (happend ▸ hfound) hstop)
    refine ⟨code, x, hcode, happend, ?_⟩
    rw [happend, List.cons_append, Program.match?_regex, escapeText_match hcode] at hfound
    cases hfound
    have htext : (Source.text ('\\' :: (code ++ s))).slice? 1 (1 + bytes code) = some code :=
      Source.slice?_append ['\\'] code s
    rw [happend]
    simp [Match.text?, Match.group?, htext]
  · rintro hnone code x s hcode rfl
    rw [Program.match?_regex, escapeText_match hcode] at hnone
    cases hnone

/-- A pass reads characters, or there are none. -/
theorem stringPass_yields (hpos : env.source.textFrom? pos = some r) (hn : 1 < n) (v : String) :
    (stringPass.exec (fun p q => p.run env n q) env.source env.config k pos v).Yields
      fun (result, q, w) =>
        (∃ xs s, result = .ok () ∧ env.source.textFrom? q = some s ∧
          Characters Replaced r xs s ∧ bytes s < bytes r ∧ w = v ++ String.ofList xs) ∨
        (result = .error ⟨pos, false⟩ ∧ w = v ∧ Stuck r) := by
  rw [stringPass, Block.bind_eq, Block.exec_bind, Block.option, Block.exec, bind_assoc]
  refine (plainText_run hn).bind hpos (Nat.le_refl n) (fun q chunk s hs h => ?_) fun q hplain => ?_
  · obtain ⟨hne, hw, rfl⟩ := h
    refine .pure (.inl ⟨chunk.toList, s, rfl, hs, .of_plain hw s, ?_, ?_⟩)
    · have hpositive := mt bytes_eq_zero.mp hne
      rw [bytes_append]
      omega
    · rw [String.ofList_toList]
  · change (Block.exec _ _ _ _ (Block.bind _ _) _ _).Yields _
    rw [Block.exec_bind, Block.step, Block.exec, bind_assoc]
    refine (escapeText_run (by omega)).bind hpos (Nat.le_refl n) (fun q a s hs h => ?_)
      fun q hescape => .pure (.inr ⟨rfl, rfl, hplain, hescape⟩)
    obtain ⟨code, x, hcode, rfl, rfl⟩ := h
    refine .pure (.inl ⟨[x], s, rfl, hs, .escape hcode .nil, ?_, ?_⟩)
    · have := ('\\').utf8Size_pos
      rw [bytes_cons, bytes_append]
      omega
    · rw [← String.toList_inj]
      simp [hcode.unescape_eq]

/-- The passes read all characters that there are. -/
theorem passLoop_yields (hpos : env.source.textFrom? pos = some r) (hn : 1 < n)
    (hk : bytes r < k) (v : String) :
    (passLoop (fun q w => stringPass.exec (fun p q => p.run env n q) env.source env.config n q w) k
      pos v).Yields fun (q, w) => ∃ xs s, env.source.textFrom? q = some s ∧
        Characters Replaced r xs s ∧ Stuck s ∧ w = v ++ String.ofList xs := by
  induction k generalizing pos r v with
  | zero => omega
  | succ k ih =>
    rw [passLoop]
    refine (stringPass_yields hpos hn v).bind fun x h => ?_
    obtain ⟨result, q, w⟩ := x
    rcases h with ⟨xs, s, rfl, hs, hread, hlt, rfl⟩ | ⟨rfl, rfl, hstuck⟩
    · dsimp only
      rw [if_pos ((Source.lt_of_textFrom? hpos hs).mpr hlt)]
      refine (ih hs (by omega) _).imp fun x h => ?_
      obtain ⟨ys, t, ht, hrest, hstuck, hw⟩ := h
      refine ⟨xs ++ ys, t, ht, hread.trans hrest, hstuck, ?_⟩
      rw [hw, String.ofList_append, String.append_assoc]
    · exact .pure ⟨[], r, hpos, .nil, hstuck, by simp⟩

/-- The parser of strings finds what the grammar says, and nothing else. -/
theorem stringLiteral_run (hn : bytes r + 3 ≤ n) : stringLiteral.OnRest env n r
    fun y => ∀ x s, y = some (x, s) ↔ StringText Replaced r x s := by
  refine .label (n := n - 1) (by omega) (.block (n := bytes r + 1) (by omega) ?_)
  intro pos hpos k hk
  have hquote {r : List Char} : (Parser.el '"' : Grammar Char).OnRest env k r fun
      | some (_, s) => r = '"' :: s
      | none => ∀ s, r ≠ '"' :: s :=
    .el (by omega) (fun s hs => hs) fun hr => hr
  rw [Block.observe_step_bind]
  refine hquote.bind hpos (Nat.le_refl k) (fun q _ s hs hopen => ?_) fun q hopen => ?_
  · subst hopen
    have hwidth := ('"').utf8Size_pos
    rw [bytes_cons] at hk
    dsimp only
    rw [Block.observe_passes_bind]
    refine (passLoop_yields hs (by omega) (by omega) "").bind fun x h => ?_
    obtain ⟨q, w⟩ := x
    obtain ⟨xs, t, ht, hread, hstuck, rfl⟩ := h
    dsimp only
    rw [Block.observe_step_bind]
    refine hquote.bind ht (Nat.le_refl k) (fun q' _ u hu hclose => ?_) fun q' hclose => ?_
    · subst hclose
      refine .pure ⟨u, hu, fun x s' => ⟨?_, fun ⟨h⟩ => ?_⟩⟩
      · rintro ⟨⟩
        rw [String.empty_append]
        exact ⟨hread⟩
      · obtain ⟨rfl, hrest⟩ := hread.unique hstuck h (stuck_quote s')
        rw [String.empty_append, (List.cons.inj hrest).2]
    · refine .pure fun x s' => ⟨nofun, fun ⟨h⟩ => ?_⟩
      exact (hclose s' (hread.unique hstuck h (stuck_quote s')).2).elim
  · refine .pure fun x s => ⟨nofun, fun ⟨h⟩ => ?_⟩
    exact (hopen _ rfl).elim

end Passes

end Json

end Backtrack
