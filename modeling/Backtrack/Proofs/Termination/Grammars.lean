import Backtrack.Json
import Backtrack.Proofs.Termination.Descent
import Backtrack.Script

/-!
# Recursive grammars that terminate

In the scripting language, expressions and statements nest. A bracket, a brace or a keyword is read
before a rule is called; the one exception is a statement that is an expression. So a statement may
call the rule of expressions where it starts itself, and any other call is made behind the start of
the call around it. A JSON value calls the rule of values behind an opening bracket or brace.

Hence both grammars return on every text, and the bounds on the depth of a run with which they are
parsed are large enough (`grammars_terminate`).
-/

namespace Backtrack

open Relation

theorem Parser.Shallow.choiceOf {σ ι α : Type} {τ : ι → Type} {rules : ι → Prop} {n : Nat}
    {ps : List (Parser σ τ α)} (h : ∀ p ∈ ps, p.Shallow rules n) :
    (Parser.choiceOf ps).Shallow rules (n + 1) := by
  intro p hp
  rw [Parsers.toList_ofList] at hp
  exact h p hp

theorem Parser.Shallow.map {σ ι α β : Type} {τ : ι → Type} {rules : ι → Prop} {n : Nat}
    {p : Parser σ τ α} (h : p.Shallow rules n) (f : α → β) : (p.map f).Shallow rules (n + 1) := h

/-! ## The scripting language -/

namespace Script

/-- Expressions below statements. -/
def Rule.rank : Rule → Nat
  | expr => 0
  | stat => 1

theorem Rule.rank_lt {i j : Rule} (h : j.rank < i.rank) : i = stat ∧ j = expr := by
  cases i <;> cases j <;> simp_all [rank]

/-! ### Levels -/

section Shallow

variable {rules : Rule → Prop} {n : Nat}

theorem boolean_shallow : boolean.Shallow rules (n + 4) := ⟨trivial, trivial⟩

theorem digits_shallow : digits.Shallow rules (n + 2) := trivial

theorem number_shallow : number.Shallow rules (n + 7) :=
  ⟨trivial, digits_shallow, trivial, digits_shallow⟩

theorem string_shallow : string.Shallow rules (n + 6) :=
  ⟨⟨trivial, trivial, trivial⟩, trivial, trivial⟩

variable [Alphabet]

theorem blank_shallow : blank.Shallow rules (n + 2) := trivial

theorem ident_shallow : ident.Shallow rules (n + 4) := ⟨⟨trivial, trivial⟩, trivial⟩

theorem name_shallow : name.Shallow rules (n + 5) := ⟨ident_shallow, blank_shallow, blank_shallow⟩

variable (hexpr : rules .expr) (hstat : rules .stat)

include hexpr

theorem tupleItems_shallow : tupleItems.Shallow rules (n + 4) := by
  have hitems : (sepByTrailing exprRef (.el ',')).Shallow rules (n + 2) := by
    have hitem : exprRef.Shallow rules (n + 1) := hexpr
    have hcomma : (Parser.el ',' : Grammar Char).Shallow rules (n + 1) := trivial
    refine .bind (.passes (.bind (.step hitem.built hitem _) fun item => ?_)) fun _ => .vars
    refine .bind (.modify _) fun _ => .bind (.step hcomma.built hcomma _) fun _ => ?_
    exact ⟨trivial, trivial⟩
  exact ⟨⟨hitems, blank_shallow⟩, trivial, trivial⟩

theorem tail_shallow (head : Expr) : (tail head).Shallow rules (n + 10) :=
  ⟨⟨tupleItems_shallow hexpr, ⟨trivial, blank_shallow⟩, ident_shallow⟩, blank_shallow⟩

theorem ifExpr_shallow : ifExpr.Shallow rules (n + 5) :=
  ⟨⟨⟨trivial, blank_shallow⟩, hexpr, trivial, trivial⟩, hexpr, trivial, hexpr⟩

theorem letStat_shallow : letStat.Shallow rules (n + 8) :=
  ⟨⟨⟨trivial, name_shallow⟩, trivial⟩, hexpr⟩

theorem fnStat_shallow : fnStat.Shallow rules (n + 11) :=
  ⟨⟨trivial, name_shallow⟩, ⟨⟨⟨name_shallow, trivial, name_shallow⟩, blank_shallow⟩,
    trivial, trivial⟩, hexpr⟩

theorem returnStat_shallow : returnStat.Shallow rules (n + 5) :=
  ⟨⟨trivial, hexpr⟩, blank_shallow⟩

theorem whileStat_shallow : whileStat.Shallow rules (n + 5) :=
  ⟨⟨⟨trivial, blank_shallow⟩, hexpr, trivial, trivial⟩, hexpr⟩

omit hexpr in
theorem breakStat_shallow : breakStat.Shallow rules (n + 3) := ⟨trivial, blank_shallow⟩

theorem stat_shallow : stat.Shallow rules (n + 14) := by
  refine ⟨⟨Parser.Shallow.choiceOf ?_, trivial⟩, blank_shallow, blank_shallow⟩
  simp only [List.forall_mem_cons]
  exact ⟨letStat_shallow hexpr, fnStat_shallow hexpr, returnStat_shallow hexpr,
    whileStat_shallow hexpr, breakStat_shallow, hexpr, by simp⟩

include hstat

theorem block_shallow : block.Shallow rules (n + 5) :=
  ⟨⟨⟨hstat, hexpr⟩, blank_shallow⟩, trivial, trivial⟩

theorem expr_shallow : expr.Shallow rules (n + 11) := by
  refine ⟨⟨Parser.Shallow.choiceOf ?_, blank_shallow, blank_shallow⟩, tail_shallow hexpr⟩
  simp only [List.forall_mem_cons]
  exact ⟨boolean_shallow, number_shallow, string_shallow,
    (tupleItems_shallow hexpr).map _, block_shallow hexpr hstat, ifExpr_shallow hexpr,
    ident_shallow.map _, by simp⟩

end Shallow

variable [Alphabet]

theorem bodies_shallow (text : List Char) (i : Rule) (p : Grammar i.Value)
    (h : (env text).rules i = some p) : p.Shallow (fun _ => True) 14 := by
  cases i with
  | expr =>
    cases h
    exact expr_shallow trivial trivial
  | stat =>
    cases h
    exact stat_shallow trivial

theorem env_built (text : List Char) : (env text).LibraryBuilt :=
  fun i p h => (bodies_shallow text i p h).built

/-! ### Descent -/

section Descends

open Parser.Descends (of_parts of_shallow)

variable (text : List Char) {zero : Rule → Prop}

theorem keyword_leads {word : String} (hword : word.toList ≠ []) :
    (Parser.literal (.string word) : Grammar _).Leads (env text) :=
  .literal (env_built text) hword

theorem blank_descends : blank.Descends (env text) zero :=
  have hshallow : blank.Shallow (fun _ : Rule => False) 2 := blank_shallow
  of_shallow (env_built text) hshallow

theorem tupleItems_descends : tupleItems.Descends (env text) zero := by
  have hshallow : tupleItems.Shallow (fun _ => True) 4 := tupleItems_shallow trivial
  obtain ⟨hitems, -, hclosing⟩ := hshallow.built
  have henv := env_built text
  exact .between henv (.el henv '(') hitems hclosing

theorem block_descends : block.Descends (env text) zero := by
  have hshallow : block.Shallow (fun _ => True) 5 := block_shallow trivial trivial
  obtain ⟨hstats, -, hclosing⟩ := hshallow.built
  have henv := env_built text
  exact .between henv (.el henv '\x7b') hstats hclosing

theorem ifExpr_leads : ifExpr.Leads (env text) := by
  have hshallow : ifExpr.Shallow (fun _ => True) 5 := ifExpr_shallow trivial
  obtain ⟨⟨⟨-, hblank⟩, htest⟩, hbranches⟩ := hshallow.built
  have henv := env_built text
  have hkeyword := keyword_leads text (by decide : "if".toList ≠ [])
  unfold ifExpr
  exact .andMap henv (.andMap henv (.andMap henv hkeyword hblank _) htest _) hbranches _

/-- Every access or call that follows an expression begins with a point or a bracket. -/
theorem tail_descends (head : Expr) : (tail head).Descends (env text) zero := by
  have hproperty : ((((Parser.el '.').andThen blank).andThen ident).map Postfix.property).Shallow
      (fun _ : Rule => False) 6 := ⟨⟨trivial, blank_shallow⟩, ident_shallow⟩
  have henv := env_built text
  have hcall : (tupleItems.map Postfix.call).Descends (env text) zero :=
    of_parts henv (tupleItems_descends text)
  unfold tail
  refine of_parts henv (of_parts henv (of_parts henv ⟨of_parts henv ⟨hcall, ?_⟩, ?_⟩))
  · exact of_shallow henv hproperty
  · exact blank_descends text

theorem expr_descends : expr.Descends (env text) zero := by
  have henv := env_built text
  have hboolean : boolean.Shallow (fun _ : Rule => False) 4 := boolean_shallow
  have hnumber : number.Shallow (fun _ : Rule => False) 7 := number_shallow
  have hstring : string.Shallow (fun _ : Rule => False) 6 := string_shallow
  have hident : (ident.map Expr.ident).Shallow (fun _ : Rule => False) 5 := ident_shallow.map _
  unfold expr
  refine of_parts henv ⟨of_parts henv ⟨.choiceOf henv ?_, ?_, ?_⟩, tail_descends text⟩
  · simp only [List.forall_mem_cons]
    exact ⟨of_shallow henv hboolean, of_shallow henv hnumber, of_shallow henv hstring,
      of_parts henv (tupleItems_descends text), block_descends text, (ifExpr_leads text).descends,
      of_shallow henv hident, by simp⟩
  · exact blank_descends text
  · exact blank_descends text

theorem letStat_leads : letStat.Leads (env text) := by
  have hshallow : letStat.Shallow (fun _ => True) 8 := letStat_shallow trivial
  obtain ⟨⟨⟨-, hname⟩, hequals⟩, hinit⟩ := hshallow.built
  have henv := env_built text
  have hkeyword := keyword_leads text (by decide : "let".toList ≠ [])
  unfold letStat
  exact .andMap henv (.andMap henv (.andMap henv hkeyword hname _) hequals _) hinit _

theorem fnStat_leads : fnStat.Leads (env text) := by
  have hshallow : fnStat.Shallow (fun _ => True) 11 := fnStat_shallow trivial
  obtain ⟨⟨-, hname⟩, hrest⟩ := hshallow.built
  have henv := env_built text
  have hkeyword := keyword_leads text (by decide : "fn".toList ≠ [])
  unfold fnStat
  exact .andMap henv (.andMap henv hkeyword hname _) hrest _

theorem returnStat_leads : returnStat.Leads (env text) := by
  have hshallow : returnStat.Shallow (fun _ => True) 5 := returnStat_shallow trivial
  obtain ⟨⟨-, hvalue⟩, hblank⟩ := hshallow.built
  have henv := env_built text
  have hkeyword := keyword_leads text (by decide : "return".toList ≠ [])
  unfold returnStat
  exact .map (.andMap henv (.andMap henv hkeyword hvalue _) hblank _) _

theorem whileStat_leads : whileStat.Leads (env text) := by
  have hshallow : whileStat.Shallow (fun _ => True) 5 := whileStat_shallow trivial
  obtain ⟨⟨⟨-, hblank⟩, htest⟩, hbody⟩ := hshallow.built
  have henv := env_built text
  have hkeyword := keyword_leads text (by decide : "while".toList ≠ [])
  unfold whileStat
  exact .andMap henv (.andMap henv (.andMap henv hkeyword hblank _) htest _) hbody _

/-- A statement may be an expression, without a keyword in front. -/
theorem stat_descends (hzero : zero .expr) : stat.Descends (env text) zero := by
  have henv := env_built text
  have hbreak : breakStat.Shallow (fun _ : Rule => False) 3 := breakStat_shallow
  have hsemicolon : (Parser.el ';' : Grammar Char).Shallow (fun _ : Rule => False) 1 := trivial
  have hexpr : exprRef.Descends (env text) zero := of_parts henv hzero
  unfold stat
  refine of_parts henv ⟨of_parts henv ⟨.choiceOf henv ?_, of_shallow henv hsemicolon⟩, ?_, ?_⟩
  · simp only [List.forall_mem_cons]
    exact ⟨(letStat_leads text).descends, (fnStat_leads text).descends,
      (returnStat_leads text).descends, (whileStat_leads text).descends, of_shallow henv hbreak,
      of_parts henv hexpr, by simp⟩
  · exact blank_descends text
  · exact blank_descends text

end Descends

theorem env_descends (text : List Char) : (env text).Descends Rule.rank 1 where
  rank_le i := by cases i <;> decide
  body i p h := by
    cases i with
    | expr =>
      cases h
      exact expr_descends text
    | stat =>
      cases h
      exact stat_descends text (by decide)

end Script

/-! ## JSON -/

namespace Json

section Shallow

variable {rules : Unit → Prop} {n : Nat}

theorem blank_shallow : blank.Shallow rules (n + 2) := trivial

theorem token_shallow (c : Char) : (token c).Shallow rules (n + 4) := ⟨trivial, blank_shallow⟩

theorem stringLiteral_shallow : stringLiteral.Shallow rules (n + 4) := by
  have hquote : (Parser.el '"' : Grammar Char).Shallow rules (n + 2) := trivial
  have hplain : (Parser.regex plainText.regex : Grammar String).Shallow rules (n + 2) := trivial
  have hescape : (Parser.regexGroup escapeText.regex 1 : Grammar _).Shallow rules (n + 2) := trivial
  refine .bind (.step hquote.built hquote _) fun _ => .bind (.passes ?_) fun _ => ?_
  · refine .bind (.option hplain.built hplain) fun chunk => ?_
    cases chunk with
    | some chunk => exact .modify _
    | none => exact .bind (.step hescape.built hescape _) fun _ => .modify _
  · exact .bind (.step hquote.built hquote _) fun _ => .vars

theorem numberValue_shallow : numberValue.Shallow rules (n + 4) := trivial

variable (hvalue : rules ())

include hvalue

theorem arrayValue_shallow : arrayValue.Shallow rules (n + 8) :=
  ⟨⟨hvalue, token_shallow ',', hvalue⟩, token_shallow '[', token_shallow ']'⟩

theorem member_shallow : member.Shallow rules (n + 6) :=
  ⟨⟨stringLiteral_shallow, blank_shallow⟩, token_shallow ':', hvalue⟩

theorem objectValue_shallow : objectValue.Shallow rules (n + 10) :=
  ⟨⟨member_shallow hvalue, token_shallow ',', member_shallow hvalue⟩, token_shallow '\x7b',
    token_shallow '\x7d'⟩

theorem value_shallow : value.Shallow rules (n + 12) := by
  refine ⟨.choiceOf ?_, blank_shallow⟩
  simp only [List.forall_mem_cons]
  exact ⟨trivial, trivial, trivial, numberValue_shallow, stringLiteral_shallow.map _,
    arrayValue_shallow hvalue, objectValue_shallow hvalue, by simp⟩

end Shallow

theorem bodies_shallow (text : List Char) (i : Unit) (p : Grammar Json)
    (h : (env text).rules i = some p) : p.Shallow (fun _ => True) 12 := by
  cases h
  exact value_shallow trivial

theorem env_built (text : List Char) : (env text).LibraryBuilt :=
  fun i p h => (bodies_shallow text i p h).built

section Descends

open Parser.Descends (of_parts of_shallow)

variable (text : List Char) {zero : Unit → Prop}

theorem token_leads (c : Char) : (token c).Leads (env text) := by
  have henv := env_built text
  have hblank : blank.Shallow (fun _ => True) 2 := blank_shallow
  exact .map (.andMap henv (.el henv c) hblank.built _) _

theorem arrayValue_descends : arrayValue.Descends (env text) zero := by
  have henv := env_built text
  have hshallow : arrayValue.Shallow (fun _ => True) 8 := arrayValue_shallow trivial
  obtain ⟨hitems, -, hclosing⟩ := hshallow.built
  exact of_parts henv (.between henv (token_leads text '[') hitems hclosing)

theorem objectValue_descends : objectValue.Descends (env text) zero := by
  have henv := env_built text
  have hshallow : objectValue.Shallow (fun _ => True) 10 := objectValue_shallow trivial
  obtain ⟨hmembers, -, hclosing⟩ := hshallow.built
  exact of_parts henv (.between henv (token_leads text '\x7b') hmembers hclosing)

theorem value_descends : value.Descends (env text) zero := by
  have henv := env_built text
  have hword (word : String) (v : Json) :
      ((Parser.literal (.string word)).withValue v : Grammar Json).Shallow (fun _ => False) 2 :=
    trivial
  have hnumber : numberValue.Shallow (fun _ => False) 4 := numberValue_shallow
  have hstring : (stringLiteral.map Json.string).Shallow (fun _ => False) 5 :=
    stringLiteral_shallow.map _
  have hblank : blank.Shallow (fun _ => False) 2 := blank_shallow
  unfold value
  refine of_parts henv ⟨.choiceOf henv ?_, of_shallow henv hblank⟩
  simp only [List.forall_mem_cons]
  exact ⟨of_shallow henv (hword _ _), of_shallow henv (hword _ _), of_shallow henv (hword _ _),
    of_shallow henv hnumber, of_shallow henv hstring, arrayValue_descends text,
    objectValue_descends text, by simp⟩

end Descends

theorem env_descends (text : List Char) : (env text).Descends (fun _ => 0) 0 where
  rank_le _ := Nat.le_refl 0
  body i p h := by
    cases h
    exact value_descends text

end Json

/-! ## Both grammars -/

theorem Parser.parse?_of_run {σ ι α : Type} {τ : ι → Type} [BEq σ] [Describe σ]
    {env : Env σ τ} {p : Parser σ τ α} {n fuel : Nat} (hle : n ≤ fuel)
    (h : ∃ x, p.run env n 0 {} = some x) : ∃ result, p.parse? fuel env = some result := by
  obtain ⟨⟨r, s⟩, hrun⟩ := h
  have hrun := run_of_le hle hrun
  exact ⟨.ofOutcome s.sink r, by simp [parse?, parseFrom?, hrun]⟩

/-- The two grammars terminate on every text, whatever the alphabet of the scripting language is. A
call that is made inside another one, however deep, starts behind the start of that one; only from a
statement to the expression that it is may a call stay where it is. So the calls that are inside
each other are at most twice as many as the positions to the end, with one more, or as many. Every
run that is made inside a call returns, of whatever parser it is, and so every repetition ends. And
parsing returns a result. -/
theorem grammars_terminate [Script.Alphabet] (text : List Char) :
    ((∀ c d : RuleCall Script.Rule, TransGen (RuleCall.Calls (Script.env text)) c d →
        c.position < d.position ∨
          (d.position = c.position ∧ c.rule = .stat ∧ d.rule = .expr)) ∧
      (∀ (c : RuleCall Script.Rule) (cs : List (RuleCall Script.Rule)),
        (c :: cs).IsChain (RuleCall.Calls (Script.env text)) →
          (c :: cs).length ≤ 2 * ((Source.text text).len - c.position + 1)) ∧
      (∀ (i : Script.Rule) (pos : Nat) (s : State) {α : Type} (q : Script.Grammar α) (e : Nat)
        (u : State), (Parser.rule i).Runs (Script.env text) pos s q e u →
          ∃ r t, q.ComesTo (Script.env text) e u r t) ∧
      ∃ result, Script.parse? Script.program text = some result) ∧
    ((∀ c d : RuleCall Unit, TransGen (RuleCall.Calls (Json.env text)) c d →
        c.position < d.position) ∧
      (∀ (c : RuleCall Unit) (cs : List (RuleCall Unit)),
        (c :: cs).IsChain (RuleCall.Calls (Json.env text)) →
          (c :: cs).length ≤ (Source.text text).len - c.position + 1) ∧
      (∀ (pos : Nat) (s : State) {α : Type} (q : Json.Grammar α) (e : Nat) (u : State),
        (Parser.rule ()).Runs (Json.env text) pos s q e u →
          ∃ r t, q.ComesTo (Json.env text) e u r t) ∧
      ∃ result, Json.parse? text = some result) := by
  have hscript := Script.env_descends text
  have hjson := Json.env_descends text
  refine ⟨⟨fun c d h => ?_, fun c cs h => RuleCall.length_le hscript h, ?_, ?_⟩,
    fun c d h => ?_, fun c cs h => ?_, ?_, ?_⟩
  · obtain hlt | ⟨hpos, hrank⟩ := RuleCall.nested_descends hscript h
    · exact .inl hlt
    · exact .inr ⟨hpos, Script.Rule.rank_lt hrank⟩
  · intro i pos s α q e u h
    have hrule : (Parser.rule i : Script.Grammar _).Shallow (fun _ => True) 1 := trivial
    exact hscript.inner_returns (Script.bodies_shallow text) hrule h
  · have hprogram : Script.program.Shallow (fun _ => True) 3 := ⟨trivial, trivial⟩
    refine Parser.parse?_of_run ?_ (hscript.returns (Script.bodies_shallow text) hprogram 0 {})
    have hlen : (Script.env text).source.len = (Source.text text).len := rfl
    rw [Script.depth]
    omega
  · obtain hlt | ⟨-, hrank⟩ := RuleCall.nested_descends hjson h
    · exact hlt
    · exact absurd hrank (Nat.lt_irrefl 0)
  · have hlength := RuleCall.length_le hjson h
    rwa [Nat.zero_add, Nat.one_mul] at hlength
  · intro pos s α q e u h
    have hrule : (Parser.rule () : Json.Grammar _).Shallow (fun _ => True) 1 := trivial
    exact hjson.inner_returns (Json.bodies_shallow text) hrule h
  · have hdocument : Json.document.Shallow (fun _ => True) 4 := ⟨⟨trivial, trivial⟩, trivial⟩
    refine Parser.parse?_of_run ?_ (hjson.returns (Json.bodies_shallow text) hdocument 0 {})
    have hlen : (Json.env text).source.len = (Source.text text).len := rfl
    rw [Json.depth]
    omega

/-- A statement does call the rule of expressions where it starts. -/
example : ∃ u, RuleCall.Calls (Script.env []) ⟨.stat, 0, {}⟩ ⟨.expr, 0, u⟩ := by
  let keywords : List (Script.Grammar Script.Stat) :=
    [Script.letStat, Script.fnStat, Script.returnStat, Script.whileStat, Script.breakStat]
  have hblank : ∃ t, Script.blank.ComesTo (Script.env []) 0 {} (.ok 0 ()) t := ⟨_, 3, rfl⟩
  obtain ⟨t, hblank⟩ := hblank
  have htries : ∃ u, Parser.Tries (Script.env []) 0 t keywords (.fail 0) u :=
    ⟨_, .next ⟨9, rfl⟩ (.next ⟨9, rfl⟩ (.next ⟨9, rfl⟩ (.next ⟨9, rfl⟩ (.next ⟨9, rfl⟩ .none))))⟩
  obtain ⟨u, htries⟩ := htries
  exact ⟨u, Script.stat, rfl, .part (.between hblank) (.part .andMap (.part (.choice rfl htries)
    (.part .map .rule)))⟩

end Backtrack
