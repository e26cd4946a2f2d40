import Backtrack.Proofs.Json.Sound

/-!
# JSON is accepted, and read as what it denotes

On a value of the grammar, with something behind it that cannot go on with a number, the parser of
values finds that value and skips the white space behind it (`ValueText.takes`). The induction is on
the derivation. With what is known of any text (`value_finds`) this says exactly what parsing a
document does.
-/

namespace Backtrack

namespace Json

variable {c : Char} {r s t u : List Char}

/-! ## What may stand behind a number -/

theorem Blanks.numberEnds (h : Blanks r s) (hs : NumberEnds s) : NumberEnds r := by
  cases h with
  | nil => exact hs
  | cons hc =>
    rintro x ⟨⟩
    rcases hc with rfl | rfl | rfl | rfl <;> decide

theorem Structural.numberEnds (hc : c = ',' ∨ c = ']' ∨ c = '\x7d') (h : Structural c r t) :
    NumberEnds r := by
  obtain ⟨hbefore, -⟩ := h
  refine hbefore.numberEnds ?_
  rintro x ⟨⟩
  rcases hc with rfl | rfl | rfl <;> decide

section Takes

variable {env : Env Char fun _ : Unit => Json} {n m : Nat}

/-! ## Brackets -/

/-- The token of a structural character. -/
theorem Structural.takes (hn : 3 < n) (hc : ¬ IsBlank c) (h : Structural c r t) :
    (token c).Takes env n (skipBlanks r) () (skipBlanks t) := by
  obtain ⟨s, hr, ht, -⟩ := h.skipBlanks_eq hc
  rw [hr, ht]
  exact token_takes hn

/-- The token of another structural character fails. -/
theorem Structural.refuses {d : Char} (hn : 3 < n) (hc : ¬ IsBlank c) (hcd : c ≠ d)
    (h : Structural c r t) : (token d).Refuses env n (skipBlanks r) := by
  obtain ⟨s, hr, -, -⟩ := h.skipBlanks_eq hc
  rw [hr]
  exact token_refuses hn fun t ht => hcd (List.cons.inj ht).1

section Brackets

variable {α : Type} {p : Grammar α} {opening closing : Char} {a : α} {as : List α}

/-- A first item and further ones that parsers take, up to what is left behind them. -/
def ItemsTaken (env : Env Char fun _ : Unit => Json) (n : Nat) (p : Grammar α)
    (r : List Char) (as : List α) (s : List Char) : Prop :=
  ∃ a as' t, as = a :: as' ∧ p.Takes env n (skipBlanks r) a t ∧ bytes t ≤ bytes (skipBlanks r) ∧
    Steps (p.Takes env n) (fun r s => ∃ b, (token ',').Takes env n r b s) t as' (skipBlanks s)

theorem ItemsTaken.one (hrs : Shorter s r)
    (h : p.Takes env n (skipBlanks r) a (skipBlanks s)) : ItemsTaken env n p r [a] s :=
  ⟨a, [], _, rfl, h, Nat.le_of_lt hrs.blanks, .nil⟩

theorem ItemsTaken.cons (hn : 3 < n) (hrs : Shorter s r)
    (h : p.Takes env n (skipBlanks r) a (skipBlanks s)) (hcomma : Structural ',' s t)
    (hrest : ItemsTaken env n p t as u) : ItemsTaken env n p r (a :: as) u := by
  obtain ⟨b, bs, t', rfl, hitem, hle, hsteps⟩ := hrest
  have hst := (hcomma.shorter (by decide)).blanks
  refine ⟨a, b :: bs, _, rfl, h, Nat.le_of_lt hrs.blanks, ?_⟩
  exact .cons ⟨(), hcomma.takes hn (by decide)⟩ hitem (by omega) hsteps

theorem brackets_refuse (hn : 4 < n) (hc : c ≠ opening) :
    ((Parser.sepBy p (token ',') {}).between (token opening) (token closing)).Refuses env n
      (c :: s) := by
  refine .between (n := n - 1) (by omega) ((token_refuses (by omega) fun t ht => ?_).of_eq rfl)
  exact hc (List.cons.inj ht).1

theorem brackets_take (hn : 3 < n) (hm : n + 1 < m)
    (hopening : ¬ IsBlank opening) (hclosing : ¬ IsBlank closing) (hcomma : closing ≠ ',')
    (hopen : Structural opening r s) (hclose : Structural closing t u)
    (h : ItemsTaken env n p s as t) (hs : bytes (skipBlanks s) < n) :
    ((Parser.sepBy p (token ',') {}).between (token opening) (token closing)).Takes env m
      (skipBlanks r) as (skipBlanks u) := by
  obtain ⟨a, as', s', rfl, hitem, hle, hsteps⟩ := h
  have hitems := Parser.OnRest.sepBy_takes (Nat.lt_succ_self n) (by omega) hitem hsteps
    (hclose.refuses hn hclosing hcomma)
  refine .between (n := n + 1) hm ((hopen.takes (by omega) hopening).of_eq (hitems.of_eq ?_))
  exact (hclose.takes (by omega) hclosing).of_eq rfl

theorem brackets_take_none (hn : 3 < n) (hm : n + 1 < m) (hopening : ¬ IsBlank opening)
    (hclosing : ¬ IsBlank closing) (hopen : Structural opening r s)
    (hclose : Structural closing s t) (hp : p.Refuses env n (skipBlanks s)) :
    ((Parser.sepBy p (token ',') {}).between (token opening) (token closing)).Takes env m
      (skipBlanks r) [] (skipBlanks t) := by
  have hitems : (Parser.sepBy p (token ',') {}).Takes env (n + 1) (skipBlanks s) []
      (skipBlanks s) := .sepBy_refuses (Nat.lt_succ_self n) hp
  refine .between (n := n + 1) hm ((hopen.takes (by omega) hopening).of_eq (hitems.of_eq ?_))
  exact (hclose.takes (by omega) hclosing).of_eq rfl

end Brackets

/-- No value starts with a closing bracket. -/
theorem valueRef_refuses (hrules : env.rules () = some value) (h : Structural ']' r t)
    (hn : bytes (skipBlanks r) + 16 ≤ n) : valueRef.Refuses env n (skipBlanks r) := by
  obtain ⟨s, hs, -, -⟩ := h.skipBlanks_eq (by decide)
  rw [hs] at hn ⊢
  refine .rule hrules (n := n - 1) (by omega) (value_run (by omega) ?_)
  refine skip_scalars (by omega) (by decide) (by decide) (by decide) ?_
  refine .skip (.map_refuses (n := n - 4) (by omega) (brackets_refuse (by omega) (by decide))) ?_
  refine .skip (.map_refuses (n := n - 4) (by omega) (brackets_refuse (by omega) (by decide))) ?_
  exact .nil rfl

/-- No member starts with a closing brace. -/
theorem member_refuses (h : Structural '\x7d' r t) (hn : bytes (skipBlanks r) + 8 ≤ n) :
    member.Refuses env n (skipBlanks r) := by
  obtain ⟨s, hs, -, -⟩ := h.skipBlanks_eq (by decide)
  rw [hs] at hn ⊢
  refine .andMap (n := n - 1) (by omega) (skip_blank (by omega) ?_)
  exact (string_refuses (by omega) (by decide)).of_eq rfl

/-! ## Values -/

theorem kinds_number {v : Json} (hn : 1 < n) (hc : c = '-' ∨ c.isDigit = true)
    (h : numberValue.Takes env n (c :: s) v t) : kinds.OnRest env n (c :: s) (· = some (v, t)) := by
  refine skip_names hn ?_ (.take h)
  refine ⟨?_, ?_, ?_⟩ <;> rintro rfl <;> revert hc <;> decide

theorem kinds_string {x : String} (hn : bytes r + 4 ≤ n) (h : StringText Replaced r x s) :
    kinds.OnRest env n r (· = some (.string x, s)) := by
  have htakes : stringLiteral.Takes env (n - 1) r x s := string_takes (by omega) h
  obtain ⟨h⟩ := h
  refine skip_names (by omega) (by decide) (.skip (number_refuses (by omega) (by decide)) ?_)
  exact .take (.map_takes (n := n - 1) (by omega) htakes)

theorem kinds_array {v : Json} (hn : bytes ('[' :: s) + 4 ≤ n)
    (h : arrayValue.Takes env n ('[' :: s) v t) :
    kinds.OnRest env n ('[' :: s) (· = some (v, t)) :=
  skip_scalars hn (by decide) (by decide) (by decide) (.take h)

theorem kinds_object {v : Json} (hn : bytes ('\x7b' :: s) + 6 ≤ n)
    (h : objectValue.Takes env n ('\x7b' :: s) v t) :
    kinds.OnRest env n ('\x7b' :: s) (· = some (v, t)) := by
  refine skip_scalars (by omega) (by decide) (by decide) (by decide) ?_
  refine .skip (.map_refuses (n := n - 1) (by omega) (brackets_refuse (by omega) (by decide))) ?_
  exact .take h

/-- Where an array is read, so is a value. Both leave the white space behind the bracket. -/
theorem value_of_array {v : Json} (hn : bytes (skipBlanks r) + 6 ≤ n) (hopen : Structural '[' r s)
    (h : arrayValue.Takes env (n - 2) (skipBlanks r) v (skipBlanks t)) :
    value.Takes env n (skipBlanks r) v (skipBlanks t) := by
  obtain ⟨s', hs', -, -⟩ := hopen.skipBlanks_eq (by decide)
  rw [hs'] at hn h ⊢
  rw [← skipBlanks_skipBlanks t]
  exact value_takes (by omega) (kinds_array (by omega) h)

theorem value_of_object {v : Json} (hn : bytes (skipBlanks r) + 8 ≤ n)
    (hopen : Structural '\x7b' r s)
    (h : objectValue.Takes env (n - 2) (skipBlanks r) v (skipBlanks t)) :
    value.Takes env n (skipBlanks r) v (skipBlanks t) := by
  obtain ⟨s', hs', -, -⟩ := hopen.skipBlanks_eq (by decide)
  rw [hs'] at hn h ⊢
  rw [← skipBlanks_skipBlanks t]
  exact value_takes (by omega) (kinds_object (by omega) h)

mutual

/-- The parser of values finds a value. -/
theorem ValueText.takes (hrules : env.rules () = some value) :
    ∀ {r : List Char} {v : Json} {s : List Char}, ValueText Replaced r v s → NumberEnds s →
      value.Takes env (32 * (bytes (skipBlanks r) + 1)) (skipBlanks r) v (skipBlanks s)
  | _, _, _, .null, _ => value_takes (by omega) (.take (name_takes (by omega)))
  | _, _, _, .true, _ => by
    refine value_takes (by omega) (.skip ?_ (.take (name_takes (by omega))))
    exact name_refuses (by omega) (by decide) (by decide)
  | _, _, _, .false, _ => by
    refine value_takes (by omega) (.skip ?_ (.skip ?_ (.take (name_takes (by omega))))) <;>
      exact name_refuses (by omega) (by decide) (by decide)
  | _, _, s, .number h hx, hs => by
    rw [h.skipBlanks_eq]
    obtain ⟨c, cs, rfl, hc⟩ := h.head
    exact value_takes (by omega) (kinds_number (by omega) hc (number_takes (by omega) h hx hs))
  | _, _, _, .string h, _ => by
    rw [h.skipBlanks_eq]
    exact value_takes (by omega) (kinds_string (by omega) h)
  | r, _, _, .emptyArray (s := s) hopen hclose, _ => by
    let n := 32 * (bytes (skipBlanks r) + 1)
    have hs := (hopen.shorter (by decide)).blanks
    have hnone := valueRef_refuses hrules hclose (n := n - 5) (by omega)
    refine value_of_array (by omega) hopen (.map_takes (n := n - 3) (by omega) ?_)
    exact brackets_take_none (by omega) (by omega) (by decide) (by decide) hopen hclose hnone
  | r, _, _, .array hopen helements hclose, _ => by
    let n := 32 * (bytes (skipBlanks r) + 1)
    have hs := (hopen.shorter (by decide)).blanks
    have hitems := helements.takes hrules (hclose.numberEnds (by simp)) (n - 5) (by omega)
    refine value_of_array (by omega) hopen (.map_takes (n := n - 3) (by omega) ?_)
    exact brackets_take (by omega) (by omega) (by decide) (by decide) (by decide) hopen hclose
      hitems (by omega)
  | r, _, _, .emptyObject hopen hclose, _ => by
    let n := 32 * (bytes (skipBlanks r) + 1)
    have hs := (hopen.shorter (by decide)).blanks
    have hnone : member.Refuses env (n - 5) (skipBlanks _) :=
      member_refuses hclose (by omega)
    refine value_of_object (by omega) hopen (.map_takes (n := n - 3) (by omega) ?_)
    exact brackets_take_none (by omega) (by omega) (by decide) (by decide) hopen hclose hnone
  | r, _, _, .object hopen hmembers hclose, _ => by
    let n := 32 * (bytes (skipBlanks r) + 1)
    have hs := (hopen.shorter (by decide)).blanks
    have hitems := hmembers.takes hrules (hclose.numberEnds (by simp)) (n - 5) (by omega)
    refine value_of_object (by omega) hopen (.map_takes (n := n - 3) (by omega) ?_)
    exact brackets_take (by omega) (by omega) (by decide) (by decide) (by decide) hopen hclose
      hitems (by omega)

theorem Elements.takes (hrules : env.rules () = some value) : ∀ {r : List Char} {vs : List Json}
    {s : List Char}, Elements Replaced r vs s → NumberEnds s →
      ∀ n > 32 * (bytes (skipBlanks r) + 1), ItemsTaken env n valueRef r vs s
  | _, _, _, .one h, hs, n, hn =>
    .one h.shorter (.rule hrules hn (h.takes hrules hs))
  | r, _, u, .cons (s := s) (t := t) h hcomma hrest, hu, n, hn => by
    have hrs := h.shorter
    have htr := (hrs.trans (hcomma.shorter (by decide))).blanks
    exact .cons (by omega) hrs (.rule hrules hn (h.takes hrules (hcomma.numberEnds (.inl rfl))))
      hcomma (hrest.takes hrules hu n (by omega))

theorem MemberText.takes (hrules : env.rules () = some value) : ∀ {r : List Char}
    {m : String × Json} {s : List Char}, MemberText Replaced r m s → NumberEnds s →
      ∀ n > 32 * (bytes (skipBlanks r) + 1), member.Takes env n (skipBlanks r) m (skipBlanks s)
  | r, _, u, .mk (s := s) (t := t) hkey hcolon hvalue, hu, n, hn => by
    have htr := (hkey.shorter.trans (hcolon.shorter (by decide))).blanks
    refine .andMap_takes (n := n - 1) (s := skipBlanks s) (by omega) ?_ ?_
    · rw [hkey.skipBlanks_eq] at hn ⊢
      exact skip_blank (by omega) ((string_takes (by omega) hkey).of_eq rfl)
    refine .andMap_takes (n := n - 2) (by omega) (hcolon.takes (by omega) (by decide)) ?_
    exact .rule hrules (by omega) (hvalue.takes hrules hu)

theorem Members.takes (hrules : env.rules () = some value) : ∀ {r : List Char}
    {ms : List (String × Json)} {s : List Char}, Members Replaced r ms s → NumberEnds s →
      ∀ n > 32 * (bytes (skipBlanks r) + 1), ItemsTaken env n member r ms s
  | _, _, _, .one h, hs, n, hn => .one h.shorter (h.takes hrules hs n hn)
  | r, _, u, .cons (s := s) (t := t) h hcomma hrest, hu, n, hn => by
    have hrs := h.shorter
    have htr := (hrs.trans (hcomma.shorter (by decide))).blanks
    exact .cons (by omega) hrs (h.takes hrules (hcomma.numberEnds (.inl rfl)) n hn)
      hcomma (hrest.takes hrules hu n (by omega))

end

/-! ## Documents -/

/-- The parser of documents finds a document. -/
theorem DocumentText.takes {v : Json} (hrules : env.rules () = some value)
    (h : DocumentText Replaced r v) (hn : 32 * (bytes r + 1) + 3 < n) :
    document.Takes env n r v [] := by
  obtain ⟨hbefore, hvalue, hbehind⟩ := h
  have hr := hbefore.skipBlanks_eq
  have hvalue := hvalue.takes hrules (hbehind.numberEnds nofun)
  rw [← hr, hbehind.skipBlanks_eq] at hvalue
  have hle := (blanks_skipBlanks r).bytes_le
  obtain ⟨w, hblank⟩ : ∃ w, blank.Takes env (n - 2) r w (skipBlanks r) := blank_run (by omega)
  have heoi : (Parser.eoi : Grammar Unit).Takes env (n - 1) [] () [] :=
    .eoi (by omega) (fun _ => rfl) fun hne => (hne rfl).elim
  refine .andMap_takes (n := n - 1) (by omega) ?_ heoi
  exact .andMap_takes (n := n - 2) (by omega) hblank (.rule hrules (by omega) hvalue)

/-- The parser of documents returns, and finds only documents, up to their end. -/
theorem document_finds (hrules : env.rules () = some value) (hn : 32 * (bytes r + 1) + 3 < n) :
    document.Finds env n r fun v s => s = [] ∧ DocumentText Replaced r v := by
  have hle := (blanks_skipBlanks r).bytes_le
  obtain ⟨w, hblank⟩ : ∃ w, blank.Takes env (n - 2) r w (skipBlanks r) := blank_run (by omega)
  have hvalue : valueRef.Finds env (n - 2) (skipBlanks r) (WithBlanks (ValueText Replaced) _) :=
    .rule hrules (by omega) (value_finds hrules (Nat.lt_succ_of_le hle))
  refine .andMap_finds (n := n - 1) (by omega) ?_
  refine .andMap_finds (n := n - 2) (by omega) (hblank.of_eq ?_)
  rintro _ _ ⟨⟩
  refine hvalue.finds_mono fun v s h => ?_
  obtain ⟨t, hvalue, hbehind⟩ := h
  refine .eoi (by omega) (fun hnil u s hx => ?_) fun _ => nofun
  cases hx
  rw [hnil] at hbehind
  exact ⟨rfl, blanks_skipBlanks r, hvalue, hbehind⟩

end Takes

section Parse

variable {text : List Char} {v : Json}

theorem depth_suffices (text : List Char) : 32 * (bytes text + 1) + 3 < depth text := by
  have hlen : (Source.text text).len = bytes text := rfl
  rw [depth, hlen]
  omega

/-- Parsing a document gives what it denotes. -/
theorem parse?_of_document (h : DocumentText Replaced text v) :
    parse? text = some (.success (Source.text text).len v) := by
  have htakes : document.Takes (env text) (depth text) text v [] :=
    h.takes rfl (depth_suffices text)
  exact htakes.parse?_takes rfl

/-- Parsing returns, with success for documents only. -/
theorem parse?_settles (text : List Char) : ∃ result, parse? text = some result ∧
    (result.isSuccess = true → ∃ v, DocumentText Replaced text v) := by
  have hdocument : document.Finds (env text) (depth text) text _ :=
    document_finds rfl (depth_suffices text)
  obtain ⟨result, hparse, hfinds⟩ := hdocument.parse?_finds rfl
  refine ⟨result, hparse, fun hsuccess => ?_⟩
  cases result with
  | success i v =>
    obtain ⟨-, -, htext⟩ := hfinds i v rfl
    exact ⟨v, htext⟩
  | failure i es => cases hsuccess

end Parse

/-- A text is accepted if and only if it is a document of the grammar, and then up to its end. A
document without escapes of surrogates is read as what it denotes. -/
theorem parse?_exact (text : List Char) : ∃ result, parse? text = some result ∧
    (result.isSuccess = true ↔ ∃ v, DocumentText (fun _ => True) text v) ∧
    (∀ i v, result = .success i v → i = (Source.text text).len) ∧
    ∀ v, DocumentText (fun _ => False) text v →
      result = .success (Source.text text).len v := by
  obtain ⟨result, hparse, hsettles⟩ := parse?_settles text
  have hreplaced : ∃ x, Replaced x := ⟨_, rfl⟩
  have hany : ∃ x : Char, (fun _ => True) x := ⟨'a', trivial⟩
  have hread {v : Json} (h : DocumentText Replaced text v) :
      result = .success (Source.text text).len v := by
    rw [parse?_of_document h] at hparse
    exact (Option.some.inj hparse).symm
  refine ⟨result, hparse, ⟨fun hsuccess => ?_, fun ⟨v, h⟩ => ?_⟩, fun i v hresult => ?_,
    fun v h => ?_⟩
  · obtain ⟨v, h⟩ := hsettles hsuccess
    obtain ⟨v', h', -⟩ := h.relax hany
    exact ⟨v', h'⟩
  · obtain ⟨v', h', -⟩ := h.relax hreplaced
    rw [hread h']
    rfl
  · obtain ⟨v', h⟩ := hsettles (by rw [hresult]; rfl)
    rw [hread h] at hresult
    cases hresult
    rfl
  · obtain ⟨v', h', heq⟩ := h.relax hreplaced
    rw [hread h', heq fun _ => False.elim]

/-- A document with a nested value and white space. -/
theorem parse?_exact_nested :
    parse? "[true, \"a\\n\"]".toList = some (.success 13 (.array [.bool true, .string "a\n"])) := by
  have htext : DocumentText (fun _ => False) "[true, \"a\\n\"]".toList
      (.array [.bool true, .string "a\n"]) := by
    have hnewline : Escape (fun _ => False) ['n'] '\n' := .short (by decide)
    have hstring : StringText (fun _ => False) "\"a\\n\"]".toList "a\n" "]".toList :=
      ⟨.plain (by decide) (.escape hnewline .nil)⟩
    refine ⟨.nil, .array ⟨.nil, .nil⟩ (.cons .true ⟨.nil, .cons (.inl rfl) .nil⟩ ?_) ⟨.nil, .nil⟩,
      .nil⟩
    exact .one (.string hstring)
  obtain ⟨result, hparse, -, -, hread⟩ := parse?_exact "[true, \"a\\n\"]".toList
  rw [hparse, hread _ htext]
  rfl

end Json

end Backtrack
