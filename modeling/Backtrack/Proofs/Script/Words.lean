import Backtrack.Proofs.Script.Lexemes
import Backtrack.Proofs.Termination.Grammars

/-!
# Words and keywords of the scripting language

A keyword is a plain literal: it is taken wherever the text begins with its characters, also where
they are the first of a longer word. The alternatives of an expression and of a statement are tried
in order, and the first that succeeds is taken for good. So what becomes of a word depends on the
keyword that it begins with (`words_split`).

- `true` and `false` are alternatives before the identifier: a word that begins with one of them is
  split. As a statement it fails, since no semicolon follows the truth value.
- `return` may stand alone, and what follows may be any expression: `returned;` returns `ed`.
- `break` stands alone, and no semicolon follows it where it is part of a word.
- `let`, `fn`, `if` and `while` want more than a word behind them. Where it is missing they are
  taken back, and the word is an identifier. `else` is tried only behind a conditional.

That words are split so depends on no alphabet: it is shown for all of them in which small letters
make words and words are apart from what is no word (`Alphabet.Lawful`).
-/

namespace Backtrack

namespace Script

/-- The words with a meaning of their own. -/
def keywords : List String :=
  ["true", "false", "if", "else", "let", "fn", "return", "while", "break"]

/-- The keywords behind which a statement cannot go on with a word. -/
def splitters : List String := ["true", "false", "break"]

/-- A word that begins with a keyword and is none goes on behind it. -/
theorem ne_nil_behind {k : String} {v : List Char} (hk : k ∈ keywords)
    (hkey : String.ofList (k.toList ++ v) ∉ keywords) : v ≠ [] := by
  rintro rfl
  rw [List.append_nil, String.ofList_toList] at hkey
  exact hkey hk

theorem depth_suffices (text : List Char) : 31 * (bytes text + 2) + 33 < depth text := by
  have hlen : (Source.text text).len = bytes text := rfl
  rw [depth, hlen]
  omega

section Alphabet

variable [A : Alphabet]

/-- What an expression may begin with, in the order in which it is tried. -/
def heads : List (Grammar Expr) :=
  [boolean, number, string, tupleItems.map .tuple, block, ifExpr, ident.map .ident]

/-- What a statement may be, in the order in which it is tried. -/
def kinds : List (Grammar Stat) :=
  [letStat, fnStat, returnStat, whileStat, breakStat, exprRef.map .expr]

theorem expr_eq : expr = ((Parser.choiceOf heads).between blank blank).flatMap tail := rfl

theorem stat_eq : stat = ((Parser.choiceOf kinds).skip (.el ';')).between blank blank := rfl

/-! ## Whole expressions and statements -/

section Whole

variable {env : Env Char Rule.Value} {m : Nat} {r s : List Char}

/-- An expression of which nothing but the head is there. -/
theorem expr_takes {e : Expr} (hm : bytes r + 8 < m) (hle : bytes s ≤ bytes r)
    (hr : ∀ x ∈ r.head?, isBlank x = false)
    (h : (Parser.choiceOf heads).Takes env (m - 2) r e s) (hs : Inert s) :
    expr.Takes env m r e s := by
  have hblank : blank.Takes env (m - 2) s () s := blank_stays (by omega) fun x hx => (hs x hx).1
  have hhead : ((Parser.choiceOf heads).between blank blank).Takes env (m - 1) r e s :=
    .between_takes (n := m - 2) (by omega) (blank_stays (by omega) hr) h hblank
  rw [expr_eq]
  exact .flatMap (n := m - 1) (by omega) (hhead.of_eq (tail_takes e (by omega) hs))

theorem returnStat_refuses (hm : 3 < m) (hr : ¬ "return".toList <+: r) :
    returnStat.Refuses env m r := by
  have hkeyword : (Parser.literal (.string "return") : Grammar _).Refuses env (m - 3) r :=
    .literal_refuses (by omega) hr
  exact .map_refuses (n := m - 1) (by omega) (.andMap_refuses (n := m - 2) (by omega)
    (.andMap_refuses (n := m - 3) (by omega) hkeyword))

/-- The keyword and an expression, with no space needed between them. -/
theorem returnStat_takes {e : Expr} (hm : bytes s + 3 < m) (hs : Inert s)
    (he : exprRef.Takes env (m - 4) r e s) :
    returnStat.Takes env m ("return".toList ++ r) (.ret (some e)) s := by
  have hkeyword : (Parser.literal (.string "return") : Grammar _).Takes env (m - 3)
      ("return".toList ++ r) (.string "return") r := .literal_takes (by omega)
  have hvalue : (Parser.opt exprRef).Takes env (m - 3) r (some e) s :=
    .opt (n := m - 4) (by omega) (he.of_eq rfl)
  have hblank : blank.Takes env (m - 2) s () s := blank_stays (by omega) fun x hx => (hs x hx).1
  exact .map_takes (n := m - 1) (by omega) (.andMap_takes (n := m - 2) (by omega)
    (.andMap_takes (n := m - 3) (by omega) hkeyword hvalue) hblank)

/-- Whatever is behind the keyword, with or without an expression there. -/
theorem returnStat_succeeds (hm : bytes r + 4 < m)
    (he : exprRef.Finds env (m - 4) r fun _ s => bytes s ≤ bytes r) :
    returnStat.OnRest env m ("return".toList ++ r) fun x => ∃ e s, x = some (.ret e, s) := by
  have hkeyword : (Parser.literal (.string "return") : Grammar _).Takes env (m - 3)
      ("return".toList ++ r) (.string "return") r := .literal_takes (by omega)
  have hvalue : (Parser.opt exprRef).OnRest env (m - 3) r
      fun x => ∃ e s, x = some (e, s) ∧ bytes s ≤ bytes r :=
    .opt (n := m - 4) (by omega) (he.of_finds ⟨none, r, rfl, Nat.le_refl _⟩
      fun e s hle => ⟨some e, s, rfl, hle⟩)
  have hboth : ((Parser.literal (.string "return")).andThen (.opt exprRef)).OnRest env (m - 2)
      ("return".toList ++ r) fun x => ∃ e s, x = some (e, s) ∧ bytes s ≤ bytes r :=
    .andThen (n := m - 3) (by omega) (hkeyword.of_eq hvalue)
  refine .map (n := m - 1) (by omega) (.andMap (n := m - 2) (by omega) (hboth.imp ?_))
  rintro _ ⟨e, s, rfl, hle⟩
  exact (blank_takes (by omega)).of_eq ⟨e, _, rfl⟩

theorem breakStat_refuses (hm : 2 < m) (hr : ¬ "break".toList <+: r) :
    breakStat.Refuses env m r :=
  .andMap_refuses (n := m - 1) (by omega) (keyword_refuses (by omega) hr)

theorem breakStat_takes (hm : bytes r + 2 < m) (hr : Inert r) :
    breakStat.Takes env m ("break".toList ++ r) .breakLoop r :=
  .andMap_takes (n := m - 1) (by omega) (keyword_takes (by omega))
    (blank_stays (by omega) fun x hx => (hr x hx).1)

/-- A statement is followed by a semicolon. -/
theorem stat_takes {a : Stat} (hm : bytes r + 3 < m) (hr : ∀ x ∈ r.head?, isBlank x = false)
    (h : (Parser.choiceOf kinds).Takes env (m - 2) r a [';']) : stat.Takes env m r a [] := by
  have hsemicolon : (Parser.el ';' : Grammar Char).Takes env (m - 2) [';'] ';' [] :=
    .el (by omega) (fun s hs => by cases hs; rfl) fun hne => (hne [] rfl).elim
  rw [stat_eq]
  refine .between_takes (n := m - 1) (by omega) (blank_stays (by omega) hr)
    (.andMap_takes (n := m - 2) (by omega) h hsemicolon) (blank_stays ?_ nofun)
  rw [bytes_nil]
  omega

theorem stat_refuses {a : Stat} (hm : bytes r + 3 < m) (hr : ∀ x ∈ r.head?, isBlank x = false)
    (h : (Parser.choiceOf kinds).Takes env (m - 2) r a s) (hs : ';' ∉ s.head?) :
    stat.Refuses env m r := by
  have hbefore : blank.Takes env (m - 1) r () r := blank_stays (by omega) hr
  have hbody : ((Parser.choiceOf kinds).skip (.el ';')).Refuses env (m - 1) r :=
    .andMap_refuses_next (n := m - 2) (by omega) h (.el_refuses (by omega) hs)
  rw [stat_eq]
  exact .between (n := m - 1) (by omega) (hbefore.of_eq (hbody.of_eq rfl))

end Whole

/-- Whatever there is, a parser returns within a part of the bound for the text. -/
theorem finds_some {α : Type} {p : Grammar α} {text r : List Char} {m k : Nat}
    (hp : p.Shallow (fun _ => True) k)
    (hm : 31 * (bytes text + 2) + k ≤ m) : p.Finds (env text) m r fun _ s => bytes s ≤ bytes r := by
  have hreturns := (env_descends text).returns (bodies_shallow text) hp
  have hlen : (env text).source.len = bytes text := rfl
  exact (Parser.OnRest.of_returns (env_built text) hp.built hreturns).mono (by omega)

/-! ## Words and what follows them -/

/-- What follows a word goes on neither with the word nor with an expression. -/
structure Ends (s : List Char) : Prop where
  apart : ∀ x ∈ s.head?, continues x = false
  inert : Inert s

theorem Ends.nil : Ends [] := ⟨nofun, nofun⟩

/-- What an expression reads of a word: a truth value that the word begins with, or all of it. -/
inductive Reads : List Char → Expr → List Char → Prop where
  | yes {v : List Char} : Reads ("true".toList ++ v) (.bool true) v
  | no {v : List Char} : Reads ("false".toList ++ v) (.bool false) v
  | word {w : List Char} (hw : isWord w = true) (htrue : ¬ "true".toList <+: w)
    (hfalse : ¬ "false".toList <+: w) : Reads w (.ident (.ofList w)) []

theorem Reads.suffix {w v : List Char} {e : Expr} (h : Reads w e v) : v <:+ w := by
  cases h with
  | yes => exact List.suffix_append _ v
  | no => exact List.suffix_append _ v
  | word => exact List.nil_suffix

theorem Reads.bytes_le {w v s : List Char} {e : Expr} (h : Reads w e v) :
    bytes (v ++ s) ≤ bytes (w ++ s) := by
  obtain ⟨u, rfl⟩ := h.suffix
  rw [List.append_assoc, bytes_append u]
  exact Nat.le_add_left _ _

variable [A.Lawful]

theorem Ends.semicolon : Ends [';'] where
  apart := by
    rintro x ⟨⟩
    exact continues_punctuation ';' (by decide)
  inert := by
    rintro x ⟨⟩
    exact ⟨Alphabet.Lawful.not_blank_semicolon, by decide, by decide⟩

/-- Keywords are made of small letters. -/
theorem keywords_continue : ∀ k ∈ keywords, ∀ x ∈ k.toList, continues x = true := by
  have hall : ∀ k ∈ keywords, k.toList.all Char.isLower = true := by decide
  exact fun k hk x hx => continues_of_begins (begins_letter (List.all_eq_true.mp (hall k hk) x hx))

section Words

variable {k : String} {c : Char} {s t v w : List Char}

theorem continues_of_isWord (hw : isWord w = true) : ∀ x ∈ w, continues x = true := by
  cases w with
  | nil => nofun
  | cons c cs =>
    obtain ⟨hc, hcs⟩ := isWord_cons.mp hw
    exact List.forall_mem_cons.mpr ⟨continues_of_begins hc, hcs⟩

omit [A.Lawful] in
theorem begins_head (hw : isWord w = true) : ∀ x ∈ (w ++ s).head?, begins x = true := by
  cases w with
  | nil => cases hw
  | cons c cs =>
    rintro x ⟨⟩
    exact (isWord_cons.mp hw).1

theorem not_mem_head (hw : isWord w = true) (hc : continues c = false) : c ∉ (w ++ s).head? := by
  intro h
  rw [continues_of_begins (begins_head hw c h)] at hc
  cases hc

/-- Where a word starts with a keyword, the rest of the word follows behind the keyword. -/
theorem split_keyword (hk : k ∈ keywords) (hs : Ends s) (h : w ++ s = k.toList ++ t) :
    ∃ v, w = k.toList ++ v ∧ t = v ++ s := by
  obtain ⟨v, rfl⟩ := prefix_of_append (keywords_continue k hk) hs.apart ⟨t, h.symm⟩
  rw [List.append_assoc] at h
  exact ⟨v, rfl, (List.append_cancel_left h).symm⟩

theorem not_prefix_append (hk : k ∈ keywords) (hs : Ends s) (h : ¬ k.toList <+: w) :
    ¬ k.toList <+: w ++ s :=
  fun hprefix => h (prefix_of_append (keywords_continue k hk) hs.apart hprefix)

/-- Behind the keyword, nothing goes on with an expression. -/
theorem inert_behind (hw : ∀ x ∈ w, continues x = true) (hk : k ∈ keywords) (hs : Ends s)
    (h : w ++ s = k.toList ++ t) : Inert t := by
  obtain ⟨v, rfl, rfl⟩ := split_keyword hk hs h
  exact .append (fun x hx => hw x (List.mem_append_right _ hx)) hs.inert

/-- Characters of words that are no word begin none, with what follows them. -/
theorem no_begin (hv : ∀ x ∈ v, continues x = true) (hs : Ends s) (hword : isWord v ≠ true) :
    ∀ x ∈ (v ++ s).head?, begins x = false := by
  intro x hx
  refine Bool.eq_false_iff.mpr fun hbegins => ?_
  cases v with
  | nil =>
    have hx := hs.apart x hx
    rw [continues_of_begins hbegins] at hx
    cases hx
  | cons c cs =>
    cases hx
    exact hword (isWord_cons.mpr ⟨hbegins, fun y hy => hv y (List.mem_cons_of_mem _ hy)⟩)

end Words

section Runs

variable {env : Env Char Rule.Value} {m : Nat} {r s v w : List Char}

/-! ## Expressions -/

/-- A keyword with a condition behind it wants a bracket, and a word goes on with none. -/
theorem condition_refuses {α β γ δ : Type} {k : String} {p : Grammar α} {post : Grammar β}
    {f : Pattern Char → Unit → γ} {g : γ → α → δ} (hm : bytes (w ++ s) + 3 < m)
    (hk : k ∈ keywords) (hw : ∀ x ∈ w, continues x = true) (hs : Ends s) :
    (((Parser.literal (.string k)).andMap blank f).andMap (p.between (.el '(') post) g).Refuses
      env m (w ++ s) := by
  refine guard_refuses hm fun t ht => ?_
  have hinert : Inert t := inert_behind hw hk hs ht
  rw [dropWhile_blank fun x hx => (hinert x hx).1]
  exact fun h => (hinert _ h).2.1 rfl

theorem ifExpr_refuses (hm : bytes (w ++ s) + 4 < m) (hw : ∀ x ∈ w, continues x = true)
    (hs : Ends s) : ifExpr.Refuses env m (w ++ s) :=
  .andMap_refuses (n := m - 1) (by omega) (condition_refuses (by omega) (by decide) hw hs)

/-- A word that begins with no truth value is an identifier. -/
theorem heads_take_word (hm : bytes (w ++ s) + 5 < m) (hw : isWord w = true) (hs : Ends s)
    (htrue : ¬ "true".toList <+: w) (hfalse : ¬ "false".toList <+: w) :
    (Parser.choiceOf heads).Takes env m (w ++ s) (.ident (.ofList w)) s := by
  have hopen (c : Char) (hc : c ∈ "\"(){}.,;=".toList) : c ∉ (w ++ s).head? :=
    not_mem_head hw (continues_punctuation c hc)
  have hboolean : boolean.Refuses env (m - 1) (w ++ s) := boolean_refuses (by omega)
    (not_prefix_append (by decide) hs htrue) (not_prefix_append (by decide) hs hfalse)
  have hnumber : number.Refuses env (m - 1) (w ++ s) := by
    refine number_refuses (by omega) fun x hx hmem => ?_
    have hx := begins_head hw x hx
    rw [begins_number x hmem] at hx
    cases hx
  have hstring : string.Refuses env (m - 1) (w ++ s) :=
    string_refuses (by omega) (hopen _ (by decide))
  have htuple : (tupleItems.map Expr.tuple).Refuses env (m - 1) (w ++ s) :=
    .map_refuses (n := m - 2) (by omega) (bracket_refuses (by omega) (hopen _ (by decide)))
  have hblock : block.Refuses env (m - 1) (w ++ s) :=
    bracket_refuses (by omega) (hopen _ (by decide))
  have hif : ifExpr.Refuses env (m - 1) (w ++ s) :=
    ifExpr_refuses (by omega) (continues_of_isWord hw) hs
  have hident : (ident.map Expr.ident).Takes env (m - 1) (w ++ s) (.ident (.ofList w)) s :=
    .map_takes (n := m - 2) (by omega) (ident_takes (by omega) hw hs.apart)
  exact .choice (n := m - 1) (by omega) (.skip hboolean (.skip hnumber (.skip hstring
    (.skip htuple (.skip hblock (.skip hif (.take hident)))))))

theorem Reads.heads_take {e : Expr} (h : Reads w e v) (hm : bytes (w ++ s) + 5 < m)
    (hs : Ends s) : (Parser.choiceOf heads).Takes env m (w ++ s) e (v ++ s) := by
  cases h with
  | yes =>
    rw [List.append_assoc]
    exact .choice (n := m - 1) (by omega) (.take (boolean_takes_true (by omega)))
  | no =>
    rw [List.append_assoc]
    exact .choice (n := m - 1) (by omega) (.take (boolean_takes_false (by omega)))
  | word hw htrue hfalse => exact heads_take_word hm hw hs htrue hfalse

/-- An expression where a word is left. -/
theorem Reads.takes {e : Expr} (h : Reads w e v) (hm : bytes (w ++ s) + 8 < m)
    (hw : ∀ x ∈ w, continues x = true) (hs : Ends s) : expr.Takes env m (w ++ s) e (v ++ s) := by
  have hinert : Inert (w ++ s) := .append hw hs.inert
  have hbehind : Inert (v ++ s) := .append (fun x hx => hw x (h.suffix.mem hx)) hs.inert
  exact expr_takes hm h.bytes_le (fun x hx => (hinert x hx).1) (h.heads_take (by omega) hs) hbehind

/-! ## Statements -/

/-- A name goes on to the end of the word, where there is a name. -/
theorem name_finds (hm : bytes (v ++ s) + 4 < m) (hv : ∀ x ∈ v, continues x = true)
    (hs : Ends s) : name.Finds env m (v ++ s) fun _ t => t = s := by
  have hinert : Inert (v ++ s) := .append hv hs.inert
  have hbefore : blank.Takes env (m - 1) (v ++ s) () (v ++ s) :=
    blank_stays (by omega) fun x hx => (hinert x hx).1
  refine .between_finds (n := m - 1) (by omega) (hbefore.of_eq ?_)
  rintro _ _ ⟨⟩
  by_cases hword : isWord v = true
  · refine (ident_takes (by omega) hword hs.apart).of_eq ?_
    rintro _ _ ⟨⟩
    rw [bytes_append] at hm
    refine (blank_stays (by omega) fun x hx => (hs.inert x hx).1).of_eq ?_
    rintro _ _ ⟨⟩
    rfl
  · refine (ident_refuses (by omega) ?_).of_eq nofun
    exact no_begin hv hs hword

theorem keyword_name_finds {k : String} (hm : bytes (w ++ s) + 5 < m) (hk : k ∈ keywords)
    (hw : ∀ x ∈ w, continues x = true) (hs : Ends s) :
    ((Parser.literal (.string k)).andThen name).Finds env m (w ++ s) fun _ t => t = s := by
  by_cases hprefix : k.toList <+: w ++ s
  · obtain ⟨t, ht⟩ := hprefix
    obtain ⟨v, rfl, rfl⟩ := split_keyword hk hs ht.symm
    rw [List.append_assoc] at hm ⊢
    rw [bytes_append] at hm
    have hkeyword : (Parser.literal (.string k) : Grammar _).Takes env (m - 1)
        (k.toList ++ (v ++ s)) (.string k) (v ++ s) := .literal_takes (by omega)
    refine .andMap_finds (n := m - 1) (by omega) (hkeyword.of_eq ?_)
    rintro _ _ ⟨⟩
    exact name_finds (by omega) (fun x hx => hw x (List.mem_append_right _ hx)) hs
  · have hkeyword : (Parser.literal (.string k) : Grammar _).Refuses env (m - 1) (w ++ s) :=
      .literal_refuses (by omega) hprefix
    exact (Parser.OnRest.andMap_refuses (n := m - 1) (by omega) hkeyword).of_eq nofun

/-- A variable wants an equals sign. -/
theorem letStat_refuses (hm : bytes (w ++ [';']) + 7 < m) (hw : ∀ x ∈ w, continues x = true) :
    letStat.Refuses env m (w ++ [';']) := by
  have hname : ((Parser.literal (.string "let")).andThen name).Finds env (m - 2) (w ++ [';'])
      fun _ t => t = [';'] := keyword_name_finds (by omega) (by decide) hw .semicolon
  have hequals : (Parser.el '=' : Grammar Char).Refuses env (m - 2) [';'] :=
    .el_refuses (by omega) (by decide)
  exact .andMap_refuses (n := m - 1) (by omega)
    (.andMap_refuses_at (n := m - 2) (by omega) hname hequals)

/-- A function wants its parameters. -/
theorem fnStat_refuses (hm : bytes (w ++ [';']) + 6 < m) (hw : ∀ x ∈ w, continues x = true) :
    fnStat.Refuses env m (w ++ [';']) := by
  have hname : ((Parser.literal (.string "fn")).andThen name).Finds env (m - 1) (w ++ [';'])
      fun _ t => t = [';'] := keyword_name_finds (by omega) (by decide) hw .semicolon
  refine .andMap_refuses_at (n := m - 1) (by omega) hname ?_
  exact .andMap_refuses (n := m - 2) (by omega) (bracket_refuses (by omega) (by decide))

theorem whileStat_refuses (hm : bytes (w ++ s) + 4 < m) (hw : ∀ x ∈ w, continues x = true)
    (hs : Ends s) : whileStat.Refuses env m (w ++ s) :=
  .andMap_refuses (n := m - 1) (by omega) (condition_refuses (by omega) (by decide) hw hs)

/-- A statement that is one word and a semicolon declares nothing. -/
theorem kinds_onRest {Q : Option (Stat × List Char) → Prop} (hm : bytes (w ++ [';']) + 8 < m)
    (hw : ∀ x ∈ w, continues x = true)
    (h : (Parsers.ofList [returnStat, whileStat, breakStat, exprRef.map .expr]).OnRest env (m - 1)
      (w ++ [';']) Q) : (Parser.choiceOf kinds).OnRest env m (w ++ [';']) Q := by
  have hlet : letStat.Refuses env (m - 1) (w ++ [';']) := letStat_refuses (by omega) hw
  have hfn : fnStat.Refuses env (m - 1) (w ++ [';']) := fnStat_refuses (by omega) hw
  exact .choice (n := m - 1) (by omega) (.skip hlet (.skip hfn h))

theorem kinds_take_expr {e : Expr} (hrules : env.rules .expr = some expr)
    (hm : bytes (w ++ [';']) + 11 < m) (hw : ∀ x ∈ w, continues x = true)
    (hreturn : ¬ "return".toList <+: w) (hbreak : ¬ "break".toList <+: w) (h : Reads w e v) :
    (Parser.choiceOf kinds).Takes env m (w ++ [';']) (.expr e) (v ++ [';']) := by
  have hexpr : exprRef.Takes env (m - 2) (w ++ [';']) e (v ++ [';']) :=
    .rule hrules (by omega) (h.takes (m := m - 3) (by omega) hw .semicolon)
  have hreturn : returnStat.Refuses env (m - 1) (w ++ [';']) :=
    returnStat_refuses (by omega) (not_prefix_append (by decide) .semicolon hreturn)
  have hwhile : whileStat.Refuses env (m - 1) (w ++ [';']) :=
    whileStat_refuses (by omega) hw .semicolon
  have hbreak : breakStat.Refuses env (m - 1) (w ++ [';']) :=
    breakStat_refuses (by omega) (not_prefix_append (by decide) .semicolon hbreak)
  have hlast : (exprRef.map Stat.expr).Takes env (m - 1) (w ++ [';']) (.expr e) (v ++ [';']) :=
    .map_takes (n := m - 2) (by omega) hexpr
  exact kinds_onRest (by omega) hw (.skip hreturn (.skip hwhile (.skip hbreak (.take hlast))))

theorem kinds_take_break (hm : bytes ("break".toList ++ v ++ [';']) + 8 < m)
    (hv : ∀ x ∈ "break".toList ++ v, continues x = true) :
    (Parser.choiceOf kinds).Takes env m ("break".toList ++ v ++ [';']) .breakLoop
      (v ++ [';']) := by
  have hrest : Inert (v ++ [';']) :=
    .append (fun x hx => hv x (List.mem_append_right _ hx)) Ends.semicolon.inert
  have hreturn : returnStat.Refuses env (m - 1) ("break".toList ++ v ++ [';']) :=
    returnStat_refuses (by omega) (by simp)
  have hwhile : whileStat.Refuses env (m - 1) ("break".toList ++ v ++ [';']) :=
    whileStat_refuses (by omega) hv .semicolon
  have hbreak : breakStat.Takes env (m - 1) ("break".toList ++ v ++ [';']) .breakLoop
      (v ++ [';']) := by
    rw [List.append_assoc] at hm ⊢
    rw [bytes_append] at hm
    exact breakStat_takes (by omega) hrest
  exact kinds_onRest (by omega) hv (.skip hreturn (.skip hwhile (.take hbreak)))

/-- Behind `return`, a word is read as an expression. -/
theorem kinds_take_return {e : Expr} (hrules : env.rules .expr = some expr)
    (hm : bytes ("return".toList ++ w ++ [';']) + 14 < m)
    (hw : ∀ x ∈ "return".toList ++ w, continues x = true) (h : Reads w e v) :
    (Parser.choiceOf kinds).Takes env m ("return".toList ++ w ++ [';']) (.ret (some e))
      (v ++ [';']) := by
  have hword (x : Char) (hx : x ∈ w) : continues x = true := hw x (List.mem_append_right _ hx)
  have hrest : Inert (v ++ [';']) :=
    .append (fun x hx => hword x (h.suffix.mem hx)) Ends.semicolon.inert
  have hreturn : returnStat.Takes env (m - 1) ("return".toList ++ w ++ [';']) (.ret (some e))
      (v ++ [';']) := by
    have hle : bytes (v ++ [';']) ≤ bytes (w ++ [';']) := h.bytes_le
    rw [List.append_assoc] at hm ⊢
    rw [bytes_append] at hm
    have hexpr : expr.Takes env (m - 6) (w ++ [';']) e (v ++ [';']) :=
      h.takes (by omega) hword .semicolon
    exact returnStat_takes (by omega) hrest (.rule hrules (by omega) hexpr)
  exact kinds_onRest (by omega) hw (.take hreturn)

end Runs

/-! ## Parsing words -/

section Parse

variable {text r w v : List Char} {m : Nat}

/-- A word as an expression. -/
theorem Reads.parse?_expr {e : Expr} (h : Reads w e v) (hw : isWord w = true) :
    parse? expr w = some (.success (bytes w - bytes v) e) := by
  have hdepth := depth_suffices w
  have htakes : expr.Takes (env w) (depth w) (w ++ []) e (v ++ []) :=
    h.takes (by rw [List.append_nil]; omega) (continues_of_isWord hw) .nil
  rw [List.append_nil, List.append_nil] at htakes
  exact htakes.parse?_takes rfl

theorem not_blank_head (hw : ∀ x ∈ w, continues x = true) :
    ∀ x ∈ (w ++ [';']).head?, isBlank x = false := by
  have hinert : Inert (w ++ [';']) := .append hw Ends.semicolon.inert
  exact fun x hx => (hinert x hx).1

/-- A statement that is complete before the semicolon. -/
theorem parse?_stat_complete {a : Stat} (hw : ∀ x ∈ w, continues x = true)
    (h : (Parser.choiceOf kinds).Takes (env (w ++ [';'])) (depth (w ++ [';']) - 2) (w ++ [';']) a
      [';']) : parse? stat (w ++ [';']) = some (.success (bytes w + 1) a) := by
  have hdepth := depth_suffices (w ++ [';'])
  have htakes : stat.Takes (env (w ++ [';'])) (depth (w ++ [';'])) (w ++ [';']) a [] :=
    stat_takes (by omega) (not_blank_head hw) h
  have hlen : bytes (w ++ [';']) - bytes [] = bytes w + 1 := by rw [bytes_append]; rfl
  rw [← hlen]
  exact htakes.parse?_takes rfl

/-- A statement behind which the word goes on. -/
theorem parse?_stat_split {a : Stat} (hw : ∀ x ∈ w, continues x = true)
    (h : (Parser.choiceOf kinds).Takes (env (w ++ [';'])) (depth (w ++ [';']) - 2) (w ++ [';']) a
      (v ++ [';'])) (hv : v <:+ w) (hne : v ≠ []) :
    ∃ i es, parse? stat (w ++ [';']) = some (.failure i es) := by
  have hdepth := depth_suffices (w ++ [';'])
  have hsemicolon : ';' ∉ (v ++ [';']).head? := by
    cases v with
    | nil => exact (hne rfl).elim
    | cons c cs =>
      rintro ⟨⟩
      have hc := hw ';' (hv.mem List.mem_cons_self)
      rw [continues_punctuation ';' (by decide)] at hc
      cases hc
  have hrefuses : stat.Refuses (env (w ++ [';'])) (depth (w ++ [';'])) (w ++ [';']) :=
    stat_refuses (by omega) (not_blank_head hw) h hsemicolon
  exact hrefuses.parse?_refuses rfl

/-- Whatever `return` goes on with, the end of a function is found. -/
theorem kinds_find_return (hle : bytes ("return".toList ++ v ++ [';']) ≤ bytes text)
    (hm : 31 * (bytes text + 2) + 6 ≤ m) (hv : ∀ x ∈ "return".toList ++ v, continues x = true) :
    (Parser.choiceOf kinds).OnRest (env text) m ("return".toList ++ v ++ [';'])
      fun x => ∃ e s, x = some (.ret e, s) := by
  have hexpr : exprRef.Finds (env text) (m - 5) (v ++ [';'])
      fun _ s => bytes s ≤ bytes (v ++ [';']) :=
    finds_some (k := 1) trivial (by omega)
  have hreturn : returnStat.OnRest (env text) (m - 1) ("return".toList ++ v ++ [';'])
      fun x => ∃ e s, x = some (.ret e, s) := by
    rw [List.append_assoc] at hle ⊢
    rw [bytes_append] at hle
    exact returnStat_succeeds (by omega) hexpr
  refine kinds_onRest (by omega) hv (.cons (hreturn.imp ?_))
  rintro _ ⟨e, s, rfl⟩
  exact ⟨e, s, rfl⟩

theorem stat_finds_return (hle : bytes ("return".toList ++ v ++ [';']) ≤ bytes text)
    (hm : 31 * (bytes text + 2) + 8 ≤ m) (hv : ∀ x ∈ "return".toList ++ v, continues x = true) :
    stat.Finds (env text) m ("return".toList ++ v ++ [';']) fun a _ => ∃ e, a = .ret e := by
  have hblank : blank.Shallow (fun _ => True) 2 := blank_shallow
  rw [stat_eq]
  refine .between_finds (n := m - 1) (by omega)
    ((blank_stays (by omega) (not_blank_head hv)).of_eq ?_)
  rintro _ _ ⟨⟩
  refine .andMap_finds (n := m - 2) (by omega) ((kinds_find_return hle (by omega) hv).imp ?_)
  rintro _ ⟨e, s, rfl⟩ _ _ ⟨⟩
  refine .el (by omega) (fun t _ => ?_) fun _ => nofun
  rintro _ _ ⟨⟩
  exact (finds_some hblank (by omega)).finds_mono fun _ _ _ => ⟨e, rfl⟩

theorem parse?_stat_return (hv : ∀ x ∈ "return".toList ++ v, continues x = true) :
    ∃ result, parse? stat ("return".toList ++ v ++ [';']) = some result ∧
      ∀ i a, result = .success i a → ∃ e, a = .ret e := by
  have hdepth := depth_suffices ("return".toList ++ v ++ [';'])
  have hstat := stat_finds_return (m := depth ("return".toList ++ v ++ [';'])) (Nat.le_refl _)
    (by omega) hv
  obtain ⟨result, hparse, hresult⟩ := hstat.parse?_finds rfl
  exact ⟨result, hparse, fun i a h => (hresult i a h).elim fun _ he => he⟩

theorem parse?_stat_word (hw : isWord w = true)
    (h : ∀ k ∈ "return" :: splitters, ¬ k.toList <+: w) :
    parse? stat (w ++ [';']) = some (.success (bytes w + 1) (.expr (.ident (.ofList w)))) := by
  have hdepth := depth_suffices (w ++ [';'])
  have hcontinue := continues_of_isWord hw
  have hreads : Reads w (.ident (.ofList w)) [] :=
    .word hw (h "true" (by decide)) (h "false" (by decide))
  exact parse?_stat_complete hcontinue (kinds_take_expr rfl (by omega) hcontinue
    (h "return" (by decide)) (h "break" (by decide)) hreads)

/-- A word that begins with such a keyword is no statement. -/
theorem parse?_stat_fails (hw : isWord w = true) (hkey : String.ofList w ∉ keywords)
    (h : ∃ k ∈ splitters, k.toList <+: w) :
    ∃ i es, parse? stat (w ++ [';']) = some (.failure i es) := by
  have hdepth := depth_suffices (w ++ [';'])
  have hcontinue := continues_of_isWord hw
  obtain ⟨k, hk, v, rfl⟩ := h
  have hkeyword : k ∈ keywords := by
    have hsubset : ∀ k ∈ splitters, k ∈ keywords := by decide
    exact hsubset k hk
  have hne : v ≠ [] := ne_nil_behind hkeyword hkey
  have hsuffix : v <:+ k.toList ++ v := List.suffix_append _ v
  simp only [splitters, List.mem_cons, List.not_mem_nil, or_false] at hk
  obtain rfl | rfl | rfl := hk
  · exact parse?_stat_split hcontinue (kinds_take_expr rfl (by omega) hcontinue (by simp) (by simp)
      .yes) hsuffix hne
  · exact parse?_stat_split hcontinue (kinds_take_expr rfl (by omega) hcontinue (by simp) (by simp)
      .no) hsuffix hne
  · exact parse?_stat_split hcontinue (kinds_take_break (by omega) hcontinue) hsuffix hne

/-- Behind `return`, a word without a truth value in front is the value. -/
theorem parse?_stat_return_word (hw : isWord ("return".toList ++ v) = true) (hv : isWord v = true)
    (htrue : ¬ "true".toList <+: v) (hfalse : ¬ "false".toList <+: v) :
    parse? stat ("return".toList ++ v ++ [';']) =
      some (.success (bytes ("return".toList ++ v) + 1) (.ret (some (.ident (.ofList v))))) := by
  have hdepth := depth_suffices ("return".toList ++ v ++ [';'])
  have hcontinue := continues_of_isWord hw
  exact parse?_stat_complete hcontinue (kinds_take_return rfl (by omega) hcontinue
    (.word hv htrue hfalse))

end Parse

/-- A word that is no keyword as an expression and, with a semicolon behind it, as a statement. An
expression takes a truth value that the word begins with, and else the whole word. The statement is
the word for all words that begin with none of `true`, `false`, `return` and `break`. It fails for
those that begin with one of them, except that `return` is taken with what follows as its value,
where that can be read up to the semicolon. -/
theorem words_split (w : List Char) (hw : isWord w = true) (hkey : String.ofList w ∉ keywords) :
    parse? expr w = some (
      if "true".toList <+: w then .success 4 (.bool true)
      else if "false".toList <+: w then .success 5 (.bool false)
      else .success (bytes w) (.ident (.ofList w))) ∧
    ∃ result, parse? stat (w ++ [';']) = some result ∧
      ((∀ k ∈ "return" :: splitters, ¬ k.toList <+: w) →
        result = .success (bytes w + 1) (.expr (.ident (.ofList w)))) ∧
      ((∃ k ∈ splitters, k.toList <+: w) → result.isSuccess = false) ∧
      ∀ v, w = "return".toList ++ v →
        (∀ i a, result = .success i a → ∃ e, a = .ret e) ∧
        (isWord v = true → ¬ "true".toList <+: v → ¬ "false".toList <+: v →
          result = .success (bytes w + 1) (.ret (some (.ident (.ofList v))))) := by
  refine ⟨?_, ?_⟩
  · split
    next htrue =>
      obtain ⟨v, rfl⟩ := htrue
      rw [Reads.yes.parse?_expr hw, bytes_append, Nat.add_sub_cancel]
      rfl
    next htrue =>
      split
      next hfalse =>
        obtain ⟨v, rfl⟩ := hfalse
        rw [Reads.no.parse?_expr hw, bytes_append, Nat.add_sub_cancel]
        rfl
      next hfalse => exact (Reads.word hw htrue hfalse).parse?_expr hw
  · by_cases hreturn : "return".toList <+: w
    · obtain ⟨v, rfl⟩ := hreturn
      obtain ⟨result, hparse, hresult⟩ := parse?_stat_return (continues_of_isWord hw)
      refine ⟨result, hparse, fun h => ?_, fun h => ?_, fun u hu => ⟨hresult, fun hv ht hf => ?_⟩⟩
      · exact (h "return" (by decide) (List.prefix_append _ v)).elim
      · simp [splitters] at h
      · obtain rfl := List.append_cancel_left hu
        rw [parse?_stat_return_word hw hv ht hf] at hparse
        exact (Option.some.inj hparse).symm
    · by_cases hsplit : ∃ k ∈ splitters, k.toList <+: w
      · obtain ⟨i, es, hparse⟩ := parse?_stat_fails hw hkey hsplit
        refine ⟨_, hparse, fun h => ?_, fun _ => rfl, fun v hv => (hreturn ⟨v, hv.symm⟩).elim⟩
        obtain ⟨k, hk, hprefix⟩ := hsplit
        exact (h k (List.mem_cons_of_mem _ hk) hprefix).elim
      · have hword : ∀ k ∈ "return" :: splitters, ¬ k.toList <+: w :=
          List.forall_mem_cons.mpr ⟨hreturn, fun k hk hprefix => hsplit ⟨k, hk, hprefix⟩⟩
        exact ⟨_, parse?_stat_word hw hword, fun _ => rfl, fun h => (hsplit h).elim,
          fun v hv => (hreturn ⟨v, hv.symm⟩).elim⟩

end Alphabet

/-- A word that begins with a truth value, and one that begins with `return`. -/
theorem words_split_trueish :
    (Alphabet.unicode.Lawful ∧ isWord "trueish".toList = true ∧ "trueish" ∉ keywords ∧
      isWord "returned".toList = true ∧ "returned" ∉ keywords) ∧
      parse? expr "trueish".toList = some (.success 4 (.bool true)) ∧
      parse? stat "returned;".toList = some (.success 9 (.ret (some (.ident "ed")))) := by
  have hword : isWord "trueish".toList = true := by decide +kernel
  have hkey : String.ofList "trueish".toList ∉ keywords := by decide
  have hword' : isWord "returned".toList = true := by decide +kernel
  have hkey' : String.ofList "returned".toList ∉ keywords := by decide
  refine ⟨⟨inferInstance, hword, hkey, hword', hkey'⟩, ?_, ?_⟩
  · rw [(words_split _ hword hkey).1, if_pos (by decide)]
  · obtain ⟨result, hparse, -, -, hreturn⟩ := (words_split _ hword' hkey').2
    obtain ⟨-, hvalue⟩ := hreturn "ed".toList rfl
    have hresult := hvalue (by decide +kernel) (by decide) (by decide)
    rw [hresult] at hparse
    exact hparse

/-- In no alphabet is every word that is no keyword an identifier. -/
theorem words_not_kept : ¬ ∃ A : Alphabet, A.Lawful ∧
    ∀ w, isWord w = true → String.ofList w ∉ keywords →
      parse? expr w = some (.success (bytes w) (.ident (.ofList w))) ∧
        parse? stat (w ++ [';']) = some (.success (bytes w + 1) (.expr (.ident (.ofList w)))) := by
  rintro ⟨A, hA, h⟩
  have hword : isWord "trueish".toList = true := by
    refine isWord_cons.mpr ⟨begins_letter rfl, fun x hx => ?_⟩
    have hlower : "rueish".toList.all Char.isLower = true := by decide
    exact continues_of_begins (begins_letter (List.all_eq_true.mp hlower x hx))
  have hsplit : parse? expr "trueish".toList = _ :=
    Reads.parse?_expr (v := "ish".toList) .yes hword
  rw [(h _ hword (by decide)).1] at hsplit
  cases hsplit

end Script

end Backtrack
