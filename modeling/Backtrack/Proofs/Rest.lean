import Backtrack.ParseResult
import Backtrack.Proofs.Boundary
import Backtrack.Proofs.Monotone
import Backtrack.Proofs.Regex.Ways
import Backtrack.Proofs.Returns

/-!
# Parsers on the rest of a text

In a text, a position between two characters can be given by the characters that are left there.
`p.OnRest env n r Q` says so of a run: where `r` is left, and with a bound of `n` or more, `p`
returns, from every state. It fails or succeeds with a value and something left, and `Q` holds of
that. It `Takes` a value that is known, `Finds` only values of which something is known, or
`Refuses` what is there. There is a rule for each kind of parser, which says what must hold of the
parts.

Repetition with separators is described by `Steps`, one separator and one item at a time.
-/

namespace Backtrack

variable {ι : Type} {τ : ι → Type} {α β γ : Type}

open Act

/-! ## What is left of a text -/

namespace Source

variable {src : Source Char} {pos : Nat} {r front back : List Char}

theorem textFrom?_zero (cs : List Char) : (text cs).textFrom? 0 = some cs := by
  cases cs <;> rfl

theorem rest?_of_textFrom? (h : src.textFrom? pos = some r) : src.rest? pos = some r := by
  cases src with
  | text cs => exact h
  | items cs => cases h

theorem len_of_textFrom? (h : src.textFrom? pos = some r) : src.len = pos + bytes r := by
  cases src with
  | text cs =>
    obtain ⟨front, rfl, rfl⟩ := dropWidth?_eq_some h
    exact bytes_append front r
  | items cs => cases h

theorem textFrom?_move (h : src.textFrom? pos = some (front ++ back)) :
    src.textFrom? (pos + bytes front) = some back := by
  cases src with
  | text cs =>
    obtain ⟨before, rfl, rfl⟩ := dropWidth?_eq_some h
    have hdrop := dropWidth?_append Char.utf8Size_pos (before ++ front) back
    rw [List.append_assoc, extent_append] at hdrop
    exact hdrop
  | items cs => cases h

theorem isBoundary_of_textFrom? (h : src.textFrom? pos = some r) : src.IsBoundary pos := by
  rw [isBoundary_iff_rest?, rest?_of_textFrom? h]
  rfl

/-- In a text, something is left at every boundary. -/
theorem exists_textFrom? {q : Nat} (hpos : src.textFrom? pos = some r) (hq : src.IsBoundary q) :
    ∃ s, src.textFrom? q = some s := by
  cases src with
  | text cs => exact Option.isSome_iff_exists.mp (isBoundary_iff_rest?.mp hq)
  | items cs => cases hpos

theorem textFrom?_cons {x : Char} (h : src.textFrom? pos = some (x :: r)) :
    src.textFrom? (pos + x.utf8Size) = some r := by
  have hmove : src.textFrom? (pos + bytes [x]) = some r := textFrom?_move h
  rwa [bytes_cons, bytes_nil, Nat.add_zero] at hmove

theorem symbolAt?_cons {x : Char} (h : src.textFrom? pos = some (x :: r)) :
    src.symbolAt? pos = some (x, x.utf8Size) := by
  rw [symbolAt?, rest?_of_textFrom? h]
  cases src with
  | text cs => rfl
  | items cs => cases h

theorem symbolAt?_nil (h : src.textFrom? pos = some []) : src.symbolAt? pos = none := by
  rw [symbolAt?, rest?_of_textFrom? h]

/-- The symbols of a pattern are there if they are the first that are left. -/
theorem matchSymbols?_of_textFrom? (xs : List Char) (h : src.textFrom? pos = some r) :
    (∀ s, r = xs ++ s → src.matchSymbols? xs pos = some (pos + bytes xs)) ∧
      ((∀ s, r ≠ xs ++ s) → src.matchSymbols? xs pos = none) := by
  cases src with
  | items cs => cases h
  | text cs =>
    obtain ⟨before, hcs, rfl⟩ := dropWidth?_eq_some h
    have hsymbols : (text cs).symbols = before ++ r := hcs
    constructor
    · rintro s rfl
      exact (matchSymbols?_prefix_iff hsymbols).mpr ⟨List.prefix_append xs s, rfl⟩
    · intro hno
      refine Option.eq_none_iff_forall_ne_some.mpr fun q hq => ?_
      obtain ⟨⟨s, hs⟩, -⟩ := (matchSymbols?_prefix_iff hsymbols).mp hq
      exact hno s hs.symm

/-- The text between two of its characters. -/
theorem slice?_append (front middle back : List Char) :
    (text (front ++ (middle ++ back))).slice? (bytes front) (bytes front + bytes middle) =
      some middle := by
  have hrest : (text (front ++ (middle ++ back))).rest? (bytes front) = some (middle ++ back) :=
    dropWidth?_append Char.utf8Size_pos front (middle ++ back)
  rw [slice?, if_pos (Nat.le_add_right _ _), hrest, Nat.add_sub_cancel_left]
  exact takeWidth?_append Char.utf8Size_pos middle back

/-- The text up to where less is left of it. -/
theorem textBetween?_of_textFrom? {q : Nat} (hpos : src.textFrom? pos = some (front ++ back))
    (hq : src.textFrom? q = some back) : src.textBetween? pos q = some front := by
  have hlen := len_of_textFrom? hpos
  have hlen' := len_of_textFrom? hq
  rw [bytes_append] at hlen
  obtain rfl : q = pos + bytes front := by omega
  cases src with
  | text cs =>
    obtain ⟨before, rfl, rfl⟩ := dropWidth?_eq_some hpos
    exact slice?_append before front back
  | items cs => cases hpos

/-- The outcome with, in place of a position, what is left of the text there. -/
inductive Leaves (src : Source Char) : Outcome α → Option (α × List Char) → Prop where
  | ok {q : Nat} {a : α} {r : List Char} (h : src.textFrom? q = some r) :
    Leaves src (.ok q a) (some (a, r))
  | fail {q : Nat} : Leaves src (.fail q) none

end Source

/-- The text of the whole match. -/
theorem Regex.Match.text?_zero {m : Match} {front : List Char} (h : m.stop = bytes front)
    (back : List Char) : m.text? (front ++ back) 0 = some (.ofList front) := by
  have htext := Source.slice?_append [] front back
  simp only [bytes_nil, List.nil_append, Nat.zero_add] at htext
  simp [text?, group?, h, htext]

/-! ## Runs -/

section Runs

variable {env : Env Char τ}

/-- Where `r` is left, and with a bound of `n` or more, the parser returns, and `Q` holds of the
value and of what is left then, or of a failure. -/
def Parser.OnRest (env : Env Char τ) (n : Nat) (p : Parser Char τ α) (r : List Char)
    (Q : Option (α × List Char) → Prop) : Prop :=
  ∀ pos, env.source.textFrom? pos = some r → ∀ m ≥ n,
    (p.run env m pos).Yields fun o => ∃ x, env.source.Leaves o x ∧ Q x

/-- The parser finds a value where `r` is left, and leaves `s`. -/
abbrev Parser.Takes (env : Env Char τ) (n : Nat) (p : Parser Char τ α) (r : List Char) (a : α)
    (s : List Char) : Prop :=
  p.OnRest env n r (· = some (a, s))

/-- Of a value that the parser finds where `r` is left, and of what is left then, `D` holds. -/
abbrev Parser.Finds (env : Env Char τ) (n : Nat) (p : Parser Char τ α) (r : List Char)
    (D : α → List Char → Prop) : Prop :=
  p.OnRest env n r fun x => ∀ a s, x = some (a, s) → D a s

/-- The parser finds nothing where `r` is left. -/
abbrev Parser.Refuses (env : Env Char τ) (n : Nat) (p : Parser Char τ α) (r : List Char) : Prop :=
  p.OnRest env n r (· = none)

/-- What `Parser.OnRest` says of a parser, for the alternatives of a choice. -/
def Parsers.OnRest (env : Env Char τ) (n : Nat) (ps : Parsers Char τ α) (r : List Char)
    (Q : Option (α × List Char) → Prop) : Prop :=
  ∀ pos, env.source.textFrom? pos = some r → ∀ m ≥ n,
    (ps.firstOf (fun p q => p.run env m q) pos).Yields fun o => ∃ x, env.source.Leaves o x ∧ Q x

namespace Parser.OnRest

variable {n m : Nat} {p : Parser Char τ α} {q : Parser Char τ β} {r : List Char}
  {Q Q' : Option (α × List Char) → Prop} {P : Option (β × List Char) → Prop}
  {D D' : α → List Char → Prop}

theorem imp (h : p.OnRest env n r Q) (hQ : ∀ x, Q x → Q' x) : p.OnRest env n r Q' := by
  intro pos hpos k hk
  exact (h pos hpos k hk).imp fun o ⟨x, ho, hx⟩ => ⟨x, ho, hQ x hx⟩

theorem mono (h : p.OnRest env n r Q) (hnm : n ≤ m) : p.OnRest env m r Q :=
  fun pos hpos k hk => h pos hpos k (hnm.trans hk)

/-- The rule for a run of which one knows what it comes to. -/
theorem of_eq {x : Option (α × List Char)} (h : p.OnRest env n r (· = x)) (hQ : Q x) :
    p.OnRest env n r Q :=
  h.imp fun _ hy => hy ▸ hQ

/-- A run that is followed by something else. -/
theorem bind {pos k : Nat} (h : p.OnRest env n r Q) (hpos : env.source.textFrom? pos = some r)
    (hk : n ≤ k) {f : Outcome α → Act γ} {R : γ → Prop}
    (hok : ∀ e a s, env.source.textFrom? e = some s → Q (some (a, s)) → (f (.ok e a)).Yields R)
    (hfail : ∀ e, Q none → (f (.fail e)).Yields R) : (p.run env k pos >>= f).Yields R := by
  refine (h pos hpos k hk).bind fun o ⟨x, ho, hx⟩ => ?_
  cases ho with
  | ok hs => exact hok _ _ _ hs hx
  | fail => exact hfail _ hx

/-- The rule for a run of which one knows what it finds. -/
theorem of_finds (h : p.Finds env n r D) (hnone : Q none)
    (hsome : ∀ a s, D a s → Q (some (a, s))) : p.OnRest env n r Q := by
  refine h.imp fun x hx => ?_
  cases x with
  | none => exact hnone
  | some x => exact hsome x.1 x.2 (hx x.1 x.2 rfl)

theorem finds_mono (h : p.Finds env n r D) (hD : ∀ a s, D a s → D' a s) : p.Finds env n r D' :=
  h.imp fun _ hx a s hxs => hD a s (hx a s hxs)

/-- A parser that cannot succeed fails. -/
theorem refuses (h : p.Finds env n r fun _ _ => False) : p.Refuses env n r :=
  h.of_finds rfl fun _ _ => False.elim

/-- What holds of a parser for a bound of one less in its parts. -/
theorem of_run (hnm : n < m) (h : ∀ pos, env.source.textFrom? pos = some r → ∀ k ≥ n,
    (p.run env (k + 1) pos).Yields fun o => ∃ x, env.source.Leaves o x ∧ Q x) :
    p.OnRest env m r Q := by
  intro pos hpos k hk
  obtain ⟨k, rfl⟩ : ∃ k', k = k' + 1 := Nat.exists_eq_add_of_le' (by omega)
  exact h pos hpos k (by omega)

/-- The rule for a run that is known to succeed. -/
theorem bind_takes {pos k : Nat} {a : α} {s : List Char} (h : p.Takes env n r a s)
    (hpos : env.source.textFrom? pos = some r) (hk : n ≤ k) {f : Outcome α → Act γ}
    {R : γ → Prop} (hf : ∀ e, env.source.textFrom? e = some s → (f (.ok e a)).Yields R) :
    (p.run env k pos >>= f).Yields R := by
  refine h.bind hpos hk (fun e a' s' hs hx => ?_) fun e hx => ?_
  · cases hx
    exact hf e hs
  · cases hx

/-- The rule for a run that is known to fail. -/
theorem bind_refuses {pos k : Nat} (h : p.Refuses env n r)
    (hpos : env.source.textFrom? pos = some r) (hk : n ≤ k) {f : Outcome α → Act γ}
    {R : γ → Prop} (hf : ∀ e, (f (.fail e)).Yields R) : (p.run env k pos >>= f).Yields R := by
  refine h.bind hpos hk (fun e a s _ hx => ?_) fun e _ => hf e
  cases hx

/-- The rule for a parser of which no more is known than that it returns: it goes forward, up to
some character. -/
theorem of_returns (henv : env.LibraryBuilt) (hp : p.LibraryBuilt)
    (h : ∀ pos s, ∃ x, p.run env n pos s = some x) :
    p.Finds env n r fun _ s => bytes s ≤ bytes r := by
  intro pos hpos k hk t
  obtain ⟨⟨o, u⟩, hrun⟩ := h pos t
  have hrun := run_of_le hk hrun
  refine ⟨o, u, hrun, ?_⟩
  cases o with
  | fail q => exact ⟨none, .fail, nofun⟩
  | ok q a =>
    have hstart : env.source.IsBoundary pos := Source.isBoundary_of_textFrom? hpos
    have hlands := run_lands False (env.source.readsWithin_boundary pos) henv nofun k p hp
      ⟨Nat.le_refl pos, hstart⟩
    obtain ⟨hle, hq⟩ := (hlands t _ u hrun).2.2
    obtain ⟨s, hs⟩ := Source.exists_textFrom? hpos hq
    refine ⟨some (a, s), .ok hs, ?_⟩
    rintro _ _ ⟨⟩
    have hlen := Source.len_of_textFrom? hpos
    have hlen' := Source.len_of_textFrom? hs
    omega

/-! ### Leaves -/

theorem failed {a : Act (Outcome α)} (ha : a.Yields (·.state? = none)) (hQ : Q none) :
    a.Yields fun o => ∃ x, env.source.Leaves o x ∧ Q x := by
  refine ha.imp fun o ho => ⟨none, ?_, hQ⟩
  cases o with
  | ok e a => cases ho
  | fail e => exact .fail

/-- The rule for the parsers that read one character. -/
theorem symbol {Q : Option (Char × List Char) → Prop} {accept : Char → Bool}
    {reject : Act (Outcome Char)} {pos : Nat} (hreject : reject.Yields (·.state? = none))
    (hpos : env.source.textFrom? pos = some r)
    (hsome : ∀ c s, r = c :: s → accept c = true → Q (some (c, s)))
    (hnone : (∀ c ∈ r.head?, accept c = false) → Q none) :
    (symbolWhere env.source pos accept reject).Yields
      fun o => ∃ x, env.source.Leaves o x ∧ Q x := by
  rw [symbolWhere]
  cases r with
  | nil =>
    rw [Source.symbolAt?_nil hpos]
    refine failed hreject (hnone fun c hc => ?_)
    cases hc
  | cons c s =>
    rw [Source.symbolAt?_cons hpos]
    dsimp only
    split
    next hc => exact .pure ⟨_, .ok (Source.textFrom?_cons hpos), hsome c s rfl hc⟩
    next hc =>
      refine failed hreject (hnone fun c' hc' => ?_)
      rw [← Option.some.inj hc']
      exact Bool.of_not_eq_true hc

theorem el {Q : Option (Char × List Char) → Prop} {x : Char} (hm : 0 < m)
    (hsome : ∀ s, r = x :: s → Q (some (x, s))) (hnone : (∀ s, r ≠ x :: s) → Q none) :
    (Parser.el x : Parser Char τ Char).OnRest env m r Q := by
  refine of_run hm fun pos hpos k _ => ?_
  rw [run]
  refine symbol (.failWith _ pos) hpos (fun c s hr hc => ?_) fun hno => hnone fun s hr => ?_
  · obtain rfl := beq_iff_eq.mp hc
    exact hsome s hr
  · have hx := hno x (by rw [hr]; rfl)
    rw [beq_self_eq_true] at hx
    cases hx

theorem satisfy {Q : Option (Char × List Char) → Prop} {accept : Char → Bool} (hm : 0 < m)
    (hsome : ∀ c s, r = c :: s → accept c = true → Q (some (c, s)))
    (hnone : (∀ c ∈ r.head?, accept c = false) → Q none) :
    (Parser.satisfy accept : Parser Char τ Char).OnRest env m r Q := by
  refine of_run hm fun pos hpos k _ => ?_
  rw [run]
  exact symbol (.mismatch pos) hpos hsome hnone

theorem oneOf {Q : Option (Char × List Char) → Prop} {set : Pattern Char} (hm : 0 < m)
    (hsome : ∀ c s, r = c :: s → c ∈ set.toList → Q (some (c, s)))
    (hnone : (∀ c ∈ r.head?, c ∉ set.toList) → Q none) :
    (Parser.oneOf set : Parser Char τ Char).OnRest env m r Q := by
  refine of_run hm fun pos hpos k _ => ?_
  rw [run]
  refine symbol (.expectEach _ pos) hpos (fun c s hr hc => ?_) fun hno => hnone fun c hc => ?_
  · exact hsome c s hr (Pattern.contains_iff.mp hc)
  · rw [← Pattern.contains_iff, hno c hc]
    exact Bool.false_ne_true

theorem oneOf_refuses {set : Pattern Char} (hm : 0 < m) (hr : ∀ c ∈ r.head?, c ∉ set.toList) :
    (Parser.oneOf set : Parser Char τ Char).Refuses env m r :=
  oneOf hm (fun c s hs hc => (hr c (by rw [hs]; rfl) hc).elim) fun _ => rfl

theorem any {Q : Option (Char × List Char) → Prop} (hm : 0 < m)
    (hsome : ∀ c s, r = c :: s → Q (some (c, s))) (hnone : r = [] → Q none) :
    (Parser.any : Parser Char τ Char).OnRest env m r Q := by
  refine of_run hm fun pos hpos k _ => ?_
  rw [run]
  refine symbol (.mismatch pos) hpos (fun c s hr _ => hsome c s hr) fun hno => ?_
  cases r with
  | nil => exact hnone rfl
  | cons c s => cases hno c rfl

theorem noneOf {Q : Option (Char × List Char) → Prop} {set : Pattern Char} (hm : 0 < m)
    (hsome : ∀ c s, r = c :: s → c ∉ set.toList → Q (some (c, s)))
    (hnone : (∀ c ∈ r.head?, c ∈ set.toList) → Q none) :
    (Parser.noneOf set : Parser Char τ Char).OnRest env m r Q := by
  refine of_run hm fun pos hpos k _ => ?_
  rw [run]
  refine symbol (.mismatch pos) hpos (fun c s hr hc => ?_) fun hno => hnone fun c hc => ?_
  · rw [Bool.not_eq_true', ← Bool.not_eq_true, Pattern.contains_iff] at hc
    exact hsome c s hr hc
  · rw [← Pattern.contains_iff, ← Bool.not_eq_false']
    exact hno c hc

theorem el_refuses {x : Char} (hm : 0 < m) (hr : x ∉ r.head?) :
    (Parser.el x : Parser Char τ Char).Refuses env m r :=
  el hm (fun s hs => (hr (by rw [hs]; rfl)).elim) fun _ => rfl

theorem literal {Q : Option (Pattern Char × List Char) → Prop} {pattern : Pattern Char} (hm : 0 < m)
    (hsome : ∀ s, r = pattern.toList ++ s → Q (some (pattern, s)))
    (hnone : (∀ s, r ≠ pattern.toList ++ s) → Q none) :
    (Parser.literal pattern : Parser Char τ (Pattern Char)).OnRest env m r Q := by
  refine of_run hm fun pos hpos k _ => ?_
  obtain ⟨hmatch, hno⟩ := Source.matchSymbols?_of_textFrom? pattern.toList hpos
  rw [run]
  by_cases h : ∃ s, r = pattern.toList ++ s
  · obtain ⟨s, rfl⟩ := h
    rw [hmatch s rfl]
    exact .pure ⟨_, .ok (Source.textFrom?_move hpos), hsome s rfl⟩
  · have h' : ∀ s, r ≠ pattern.toList ++ s := fun s hs => h ⟨s, hs⟩
    rw [hno h']
    exact failed (.failWith _ pos) (hnone h')

theorem literal_takes {pattern : Pattern Char} {s : List Char} (hm : 0 < m) :
    (Parser.literal pattern : Parser Char τ _).Takes env m (pattern.toList ++ s) pattern s := by
  refine literal hm (fun t ht => ?_) fun hno => (hno s rfl).elim
  rw [List.append_cancel_left ht]

theorem literal_refuses {pattern : Pattern Char} (hm : 0 < m) (hr : ¬ pattern.toList <+: r) :
    (Parser.literal pattern : Parser Char τ _).Refuses env m r :=
  literal hm (fun s hs => (hr ⟨s, hs.symm⟩).elim) fun _ => rfl

theorem eoi {Q : Option (Unit × List Char) → Prop} (hm : 0 < m) (hsome : r = [] → Q (some ((), [])))
    (hnone : r ≠ [] → Q none) : (Parser.eoi : Parser Char τ Unit).OnRest env m r Q := by
  refine of_run hm fun pos hpos k _ => ?_
  have hlen : env.source.len ≤ pos ↔ r = [] := by
    rw [Source.len_of_textFrom? hpos, ← bytes_eq_zero]
    omega
  rw [run]
  split
  next h =>
    obtain rfl := hlen.mp h
    exact .pure ⟨_, .ok hpos, hsome rfl⟩
  next h => exact failed (.failWith _ pos) (hnone fun hr => h (hlen.mpr hr))

theorem charWith {Q : Option (Char × List Char) → Prop} {accept : Char → Bool} (hm : 0 < m)
    (hsome : ∀ c s, r = c :: s → accept c = true → Q (some (c, s)))
    (hnone : (∀ c ∈ r.head?, accept c = false) → Q none) :
    (Parser.charWith accept : Parser Char τ Char).OnRest env m r Q := by
  refine of_run hm fun pos hpos k _ => ?_
  rw [run, charWhere, hpos]
  cases r with
  | nil =>
    refine failed (.mismatch pos) (hnone fun c hc => ?_)
    cases hc
  | cons c s =>
    dsimp only
    split
    next hc => exact .pure ⟨_, .ok (Source.textFrom?_cons hpos), hsome c s rfl hc⟩
    next hc =>
      refine failed (.mismatch pos) (hnone fun c' hc' => ?_)
      rw [← Option.some.inj hc']
      exact Bool.of_not_eq_true hc

theorem charWith_refuses {accept : Char → Bool} (hm : 0 < m)
    (hr : ∀ c ∈ r.head?, accept c = false) :
    (Parser.charWith accept : Parser Char τ Char).Refuses env m r := by
  refine charWith hm (fun c s hs hc => ?_) fun _ => rfl
  rw [hr c (by rw [hs]; rfl)] at hc
  cases hc

theorem regexGroup {Q : Option (Option String × List Char) → Prop} {re : Regex} {i : Nat}
    (hm : 0 < m)
    (hsome : ∀ found front back, re.match? r = some found → r = front ++ back →
      found.stop = bytes front → Q (some (found.text? r i, back)))
    (hnone : re.match? r = none → Q none) :
    (Parser.regexGroup re i : Parser Char τ (Option String)).OnRest env m r Q := by
  refine of_run hm fun pos hpos k _ => ?_
  rw [run, regexWhere, hpos]
  dsimp only
  split
  next found hfound =>
    obtain ⟨front, back, rfl, hstop⟩ := Regex.match?_covers hfound
    refine .pure ⟨_, .ok (r := back) ?_, hsome found front back hfound rfl hstop⟩
    rw [hstop]
    exact Source.textFrom?_move hpos
  next hfound => exact failed (.mismatch pos) (hnone hfound)

/-! ### Combinators -/

theorem map {f : α → β} (hnm : n < m)
    (h : p.OnRest env n r fun x => P (x.map fun (a, s) => (f a, s))) :
    (Parser.map p f).OnRest env m r P := by
  refine of_run hnm fun pos hpos k hk => ?_
  rw [run]
  refine h.bind hpos hk (fun e a s hs hP => .pure ⟨_, .ok hs, hP⟩) fun e hP => ?_
  exact .pure ⟨_, .fail, hP⟩

theorem map_takes {f : α → β} {a : α} {s : List Char} (hnm : n < m) (h : p.Takes env n r a s) :
    (Parser.map p f).Takes env m r (f a) s :=
  map hnm (h.of_eq rfl)

theorem map_refuses {f : α → β} (hnm : n < m) (h : p.Refuses env n r) :
    (Parser.map p f).Refuses env m r :=
  map hnm (h.of_eq rfl)

theorem map_finds {E : β → List Char → Prop} {f : α → β} (hnm : n < m)
    (h : p.Finds env n r fun a s => E (f a) s) : (Parser.map p f).Finds env m r E := by
  refine map hnm (h.of_finds nofun fun a s hE b t hx => ?_)
  cases hx
  exact hE

/-- The rule for a match that is known. -/
theorem regex_takes {re : Regex} {w s : List Char} {captures : List (Nat × Nat × Nat)} (hm : 1 < m)
    (h : re.match? (w ++ s) = some ⟨bytes w, captures⟩) :
    (Parser.regex re : Parser Char τ String).Takes env m (w ++ s) (.ofList w) s := by
  refine map hm (regexGroup Nat.one_pos (fun found front back hfound happend hstop => ?_) ?_)
  · rw [h] at hfound
    cases hfound
    obtain ⟨rfl, rfl⟩ := append_inj_of_bytes happend hstop
    rw [Regex.Match.text?_zero hstop]
    rfl
  · rw [h]
    nofun

/-- The rule for a match that is not known. -/
theorem regex_finds {re : Regex.Program} (hm : 1 < m) :
    (Parser.regex re.regex : Parser Char τ String).Finds env m r fun a s =>
      ∃ w, r = w ++ s ∧ a = .ofList w ∧ re.node.Matches w := by
  refine map hm (regexGroup Nat.one_pos (fun found w s hfound happend hstop => ?_) fun _ => nofun)
  rintro a s' hx
  cases hx
  have hw : re.node.Matches w := Regex.Program.match?_matches (happend ▸ hfound) hstop
  refine ⟨w, happend, ?_, hw⟩
  rw [happend, Regex.Match.text?_zero hstop, Option.getD_some]

theorem andMap {R : Option (γ × List Char) → Prop} {f : α → β → γ} (hnm : n < m)
    (h : p.OnRest env n r fun
      | some (a, s) => q.OnRest env n s fun y => R (y.map fun (b, t) => (f a b, t))
      | none => R none) : (Parser.andMap p q f).OnRest env m r R := by
  refine of_run hnm fun pos hpos k hk => ?_
  rw [run]
  refine h.bind hpos hk (fun e a s hs hq => ?_) fun e hR => .pure ⟨_, .fail, hR⟩
  refine OnRest.bind hq hs hk (fun e' b t ht hR => .pure ⟨_, .ok ht, hR⟩) fun e' hR => ?_
  exact .pure ⟨_, .fail, hR⟩

theorem andThen {R : Option (β × List Char) → Prop} (hnm : n < m)
    (h : p.OnRest env n r fun
      | some (_, s) => q.OnRest env n s R
      | none => R none) : (p.andThen q).OnRest env m r R := by
  refine andMap hnm (h.imp fun x hx => ?_)
  cases x with
  | none => exact hx
  | some x =>
    refine hx.imp fun y hy => ?_
    cases y <;> exact hy

/-- The rule for the text of a parser that goes forward. -/
theorem covered {R : Option (String × List Char) → Prop} (hnm : n < m)
    (h : p.OnRest env n r fun
      | some (_, s) => ∃ w, r = w ++ s ∧ R (some (.ofList w, s))
      | none => R none) : (Parser.covered p).OnRest env m r R := by
  refine of_run hnm fun pos hpos k hk => ?_
  rw [run]
  refine (h pos hpos k hk).isolated.bind fun o ⟨x, ho, hx⟩ => ?_
  cases ho with
  | ok hs =>
    obtain ⟨w, rfl, hR⟩ := hx
    dsimp only
    rw [Source.textBetween?_of_textFrom? hpos hs]
    exact .pure ⟨_, .ok hs, hR⟩
  | fail => exact failed (.mismatch pos) hx

theorem andMap_takes {f : α → β → γ} {a : α} {b : β} {s t : List Char} (hnm : n < m)
    (hp : p.Takes env n r a s) (hq : q.Takes env n s b t) :
    (Parser.andMap p q f).Takes env m r (f a b) t :=
  andMap hnm (hp.of_eq (hq.of_eq rfl))

/-- Nothing is found if the second parser finds nothing where the first one may end. -/
theorem andMap_refuses_at {f : α → β → γ} {s : List Char} (hnm : n < m)
    (hp : p.Finds env n r fun _ t => t = s) (hq : q.Refuses env n s) :
    (Parser.andMap p q f).Refuses env m r := by
  refine andMap hnm (hp.of_finds rfl ?_)
  rintro a t rfl
  exact hq.of_eq rfl

/-- Nothing is found if the first parser finds nothing. -/
theorem andMap_refuses {f : α → β → γ} (hnm : n < m) (hp : p.Refuses env n r) :
    (Parser.andMap p q f).Refuses env m r :=
  andMap hnm (hp.of_eq rfl)

/-- Nor if the second one finds nothing where the first one ends. -/
theorem andMap_refuses_next {f : α → β → γ} {a : α} {s : List Char} (hnm : n < m)
    (hp : p.Takes env n r a s) (hq : q.Refuses env n s) :
    (Parser.andMap p q f).Refuses env m r :=
  andMap hnm (hp.of_eq (hq.of_eq rfl))

theorem andMap_finds {E : γ → List Char → Prop} {f : α → β → γ} (hnm : n < m)
    (h : p.Finds env n r fun a s => q.Finds env n s fun b t => E (f a b) t) :
    (Parser.andMap p q f).Finds env m r E := by
  refine andMap hnm (h.of_finds nofun fun a s hq => hq.of_finds nofun fun b t hE c u hx => ?_)
  cases hx
  exact hE

theorem between {pre : Parser Char τ β} {post : Parser Char τ γ} (hnm : n < m)
    (h : pre.OnRest env n r fun
      | some (_, s) => p.OnRest env n s fun
        | some (a, t) => post.OnRest env n t fun y => Q (y.map fun (_, u) => (a, u))
        | none => Q none
      | none => Q none) : (Parser.between p pre post).OnRest env m r Q := by
  refine of_run hnm fun pos hpos k hk => ?_
  rw [run]
  refine h.bind hpos hk (fun d b s hs hp => ?_) fun d hQ => .pure ⟨_, .fail, hQ⟩
  refine OnRest.bind hp hs hk (fun e a t ht hpost => ?_) fun e hQ => .pure ⟨_, .fail, hQ⟩
  refine OnRest.bind hpost ht hk (fun e' c u hu hQ => .pure ⟨_, .ok hu, hQ⟩) fun e' hQ => ?_
  exact .pure ⟨_, .fail, hQ⟩

theorem between_takes {pre : Parser Char τ β} {post : Parser Char τ γ} {a : α} {b : β} {c : γ}
    {s t u : List Char} (hnm : n < m) (hpre : pre.Takes env n r b s) (hp : p.Takes env n s a t)
    (hpost : post.Takes env n t c u) : (Parser.between p pre post).Takes env m r a u :=
  between hnm (hpre.of_eq (hp.of_eq (hpost.of_eq rfl)))

theorem between_refuses {pre : Parser Char τ β} {post : Parser Char τ γ} (hnm : n < m)
    (hpre : pre.Refuses env n r) : (Parser.between p pre post).Refuses env m r :=
  between hnm (hpre.of_eq rfl)

theorem between_finds {pre : Parser Char τ β} {post : Parser Char τ γ} (hnm : n < m)
    (h : pre.Finds env n r fun _ s => p.Finds env n s fun a t => post.Finds env n t fun _ u =>
      D a u) : (Parser.between p pre post).Finds env m r D := by
  refine between hnm (h.of_finds nofun fun b s hp => hp.of_finds nofun fun a t hpost => ?_)
  refine hpost.of_finds nofun fun c u hD a' u' hx => ?_
  cases hx
  exact hD

theorem flatMap {next : α → Parser Char τ β} {R : Option (β × List Char) → Prop} (hnm : n < m)
    (h : p.OnRest env n r fun
      | some (a, s) => (next a).OnRest env n s R
      | none => R none) : (Parser.flatMap p next).OnRest env m r R := by
  refine of_run hnm fun pos hpos k hk => ?_
  rw [run]
  refine h.bind hpos hk (fun e a s hs hnext => ?_) fun e hR => .pure ⟨_, .fail, hR⟩
  exact hnext e hs k hk

theorem either {p' : Parser Char τ α} (hnm : n < m)
    (h : p.OnRest env n r fun
      | some x => Q (some x)
      | none => p'.OnRest env n r Q) : (Parser.either p p').OnRest env m r Q := by
  refine of_run hnm fun pos hpos k hk => ?_
  rw [run]
  refine h.bind hpos hk (fun e a s hs hQ => .pure ⟨_, .ok hs, hQ⟩) fun e hp' => ?_
  refine OnRest.bind hp' hpos hk (fun e' a s hs hQ => .pure ⟨_, .ok hs, hQ⟩) fun e' hQ => ?_
  exact .pure ⟨_, .fail, hQ⟩

theorem either_refuses {p' : Parser Char τ α} (hnm : n < m) (hp : p.Refuses env n r)
    (hp' : p'.Refuses env n r) : (Parser.either p p').Refuses env m r :=
  either hnm (hp.of_eq hp')

theorem option {default : α} (hnm : n < m)
    (h : p.OnRest env n r fun
      | some x => Q (some x)
      | none => Q (some (default, r))) : (Parser.option p default).OnRest env m r Q := by
  refine of_run hnm fun pos hpos k hk => ?_
  rw [run]
  refine h.bind hpos hk (fun e a s hs hQ => .pure ⟨_, .ok hs, hQ⟩) fun e hQ => ?_
  exact .pure ⟨_, .ok hpos, hQ⟩

theorem opt {Q : Option (Option α × List Char) → Prop} (hnm : n < m)
    (h : p.OnRest env n r fun
      | some (a, s) => Q (some (some a, s))
      | none => Q (some (none, r))) : (Parser.opt p).OnRest env m r Q := by
  refine of_run hnm fun pos hpos k hk => ?_
  rw [run]
  refine h.bind hpos hk (fun e a s hs hQ => .pure ⟨_, .ok hs, hQ⟩) fun e hQ => ?_
  exact .pure ⟨_, .ok hpos, hQ⟩

theorem label {name : String} (hnm : n < m) (h : p.OnRest env n r Q) :
    (Parser.label p name).OnRest env m r Q := by
  refine of_run hnm fun pos hpos k hk => ?_
  rw [run]
  refine Yields.currentSink.bind fun _ _ => ?_
  refine h.bind hpos hk (fun e a s hs hQ => .pure ⟨_, .ok hs, hQ⟩) fun e hQ => ?_
  exact Yields.currentSink.bind fun _ _ => failed (.failWith _ _) hQ

theorem block {ν : Type} {init : ν} {body : Block Char τ ν α} (hm : n < m)
    (h : ∀ pos, env.source.textFrom? pos = some r → ∀ k ≥ n,
      (body.observe (fun p q => p.run env k q) env.source env.config k pos init).Yields fun
        | some (q, a) => ∃ s, env.source.textFrom? q = some s ∧ Q (some (a, s))
        | none => Q none) : (Parser.block init body).OnRest env m r Q := by
  refine of_run hm fun pos hpos k hk s => ?_
  obtain ⟨x, t, hrun, hx⟩ := h pos hpos k hk s
  rw [← state?_run_block, map_eq_pure_bind] at hrun
  obtain ⟨o, t', ho, hpure⟩ := bind_eq_some.mp hrun
  cases hpure
  refine ⟨o, _, ho, ?_⟩
  cases o with
  | ok q a =>
    obtain ⟨s, hs, hQ⟩ := hx
    exact ⟨_, .ok hs, hQ⟩
  | fail q => exact ⟨_, .fail, hx⟩

theorem rule {i : ι} {p : Parser Char τ (τ i)} {Q : Option (τ i × List Char) → Prop}
    (hi : env.rules i = some p) (hnm : n < m) (h : p.OnRest env n r Q) :
    (Parser.rule i).OnRest env m r Q := by
  refine of_run hnm fun pos hpos k hk => ?_
  rw [run, hi]
  exact h pos hpos k hk

theorem choice {ps : Parsers Char τ α} (hnm : n < m) (h : (Parsers.cons p ps).OnRest env n r Q) :
    (Parser.choice (.cons p ps)).OnRest env m r Q := by
  refine of_run hnm fun pos hpos k hk => ?_
  rw [run]
  exact h pos hpos k hk

end Parser.OnRest

theorem Parsers.OnRest.cons {n : Nat} {p : Parser Char τ α} {ps : Parsers Char τ α}
    {r : List Char} {Q : Option (α × List Char) → Prop}
    (h : p.OnRest env n r fun
      | some x => Q (some x)
      | none => ps.OnRest env n r Q) : (Parsers.cons p ps).OnRest env n r Q := by
  intro pos hpos k hk
  rw [firstOf]
  refine Parser.OnRest.bind h hpos hk (fun e a s hs hQ => .pure ⟨_, .ok hs, hQ⟩) fun e hps => ?_
  exact hps pos hpos k hk

theorem Parsers.OnRest.nil {n : Nat} {r : List Char} {Q : Option (α × List Char) → Prop}
    (h : Q none) : (Parsers.nil : Parsers Char τ α).OnRest env n r Q := by
  intro pos hpos k hk
  exact .pure ⟨none, .fail, h⟩

theorem Parsers.OnRest.imp {n : Nat} {ps : Parsers Char τ α} {r : List Char}
    {Q Q' : Option (α × List Char) → Prop} (h : ps.OnRest env n r Q) (hQ : ∀ x, Q x → Q' x) :
    ps.OnRest env n r Q' := by
  intro pos hpos k hk
  exact (h pos hpos k hk).imp fun o ⟨x, ho, hx⟩ => ⟨x, ho, hQ x hx⟩

/-- What all alternatives find is what the choice finds. -/
theorem Parsers.OnRest.finds {n : Nat} {ps : Parsers Char τ α} {r : List Char}
    {D : α → List Char → Prop} (h : ∀ p ∈ ps.toList, p.Finds env n r D) :
    ps.OnRest env n r fun x => ∀ a s, x = some (a, s) → D a s := by
  match ps with
  | .nil => exact .nil nofun
  | .cons p ps =>
    rw [Parsers.toList, List.forall_mem_cons] at h
    refine .cons (h.1.of_finds (finds h.2) fun a s hD b t hx => ?_)
    cases hx
    exact hD

/-- An alternative that fails is passed over. -/
theorem Parsers.OnRest.skip {n : Nat} {p : Parser Char τ α} {ps : Parsers Char τ α}
    {r : List Char} {Q : Option (α × List Char) → Prop} (hp : p.Refuses env n r)
    (h : ps.OnRest env n r Q) : (Parsers.cons p ps).OnRest env n r Q :=
  .cons (hp.of_eq h)

/-- An alternative that succeeds is taken. -/
theorem Parsers.OnRest.take {n : Nat} {p : Parser Char τ α} {ps : Parsers Char τ α}
    {r s : List Char} {a : α} (hp : p.Takes env n r a s) :
    (Parsers.cons p ps).OnRest env n r (· = some (a, s)) :=
  .cons (hp.of_eq rfl)

/-! ## Repetition -/

/-- A position is ahead of another one if less is left there. -/
theorem Source.lt_of_textFrom? {src : Source Char} {pos q : Nat} {r s : List Char}
    (hr : src.textFrom? pos = some r) (hs : src.textFrom? q = some s) :
    pos < q ↔ bytes s < bytes r := by
  have := len_of_textFrom? hr
  have := len_of_textFrom? hs
  omega

/-- Where `I` holds of the number of the values so far and of what is left, the next value keeps it
and goes forward, or there is none and `J` holds. -/
theorem foldLoop_yields {p : Parser Char τ α} {n m k count pos : Nat} {r : List Char} {acc : β}
    {f : β → α → β} {I J : Nat → List Char → Prop}
    (hstep : ∀ count s, bytes s ≤ bytes r → I count s → p.OnRest env n s fun
      | some (_, t) => I (count + 1) t ∧ bytes t < bytes s
      | none => J count s)
    (h : I count r) (hpos : env.source.textFrom? pos = some r) (hm : n ≤ m) (hk : bytes r < k) :
    (foldLoop (fun q => p.run env m q) f k none acc count pos).Yields
      fun x => ∃ s, env.source.textFrom? x.2.2 = some s ∧ J x.2.1 s := by
  induction k generalizing count acc pos r with
  | zero => omega
  | succ k ih =>
    rw [foldLoop, if_neg (by simp)]
    refine (hstep count r (Nat.le_refl _) h).bind hpos hm (fun e a s hs hI => ?_) fun e hJ => ?_
    · obtain ⟨hI, hlt⟩ := hI
      dsimp only
      rw [if_pos ((Source.lt_of_textFrom? hpos hs).mpr hlt)]
      exact ih (fun count t ht => hstep count t (by omega)) hI hs (by omega)
    · exact .pure ⟨r, hpos, hJ⟩

theorem Parser.OnRest.manyAccum {p : Parser Char τ α} {n m min : Nat} {r : List Char} {init : β}
    {f : β → α → β} {I J : Nat → List Char → Prop} {Q : Option (β × List Char) → Prop}
    (hnm : n < m) (hn : bytes r < n)
    (hstep : ∀ count s, bytes s ≤ bytes r → I count s → p.OnRest env n s fun
      | some (_, t) => I (count + 1) t ∧ bytes t < bytes s
      | none => J count s)
    (h : I 0 r) (hsome : ∀ count s b, J count s → min ≤ count → Q (some (b, s)))
    (hnone : ∀ count s, J count s → count < min → Q none) :
    (Parser.manyAccum p init f { min := min }).OnRest env m r Q := by
  refine of_run hnm fun pos hpos k hk => ?_
  rw [run]
  refine (foldLoop_yields hstep h hpos hk (by omega)).bind fun x hx => ?_
  obtain ⟨b, count, e⟩ := x
  obtain ⟨s, hs, hJ⟩ := hx
  dsimp only [atLeast]
  split
  next hcount =>
    refine failed ?_ (hnone count s hJ hcount)
    exact (Act.Yields.register _ _).bind fun _ _ => .pure rfl
  next hcount => exact .pure ⟨_, .ok hs, hsome count s b hJ (Nat.le_of_not_lt hcount)⟩

/-! ## Repetition with separators -/

/-- A separator and an item again and again, ahead each time. -/
inductive Steps (item : List Char → α → List Char → Prop) (sep : List Char → List Char → Prop) :
    List Char → List α → List Char → Prop where
  | nil {r : List Char} : Steps item sep r [] r
  | cons {r s t u : List Char} {a : α} {as : List α} (hsep : sep r s) (hitem : item s a t)
    (hahead : bytes t < bytes r) (h : Steps item sep t as u) : Steps item sep r (a :: as) u

section SepBy

variable {p : Parser Char τ α} {sep : Parser Char τ β} {n k m pos : Nat} {r s : List Char} {a : α}
  {as : List α}

/-- Steps that the parsers are known to take, up to where there is no further separator. -/
theorem sepLoop_takes
    (h : Steps (p.Takes env n) (fun r s => ∃ b, sep.Takes env n r b s) r as s)
    (hend : sep.Refuses env n s) (hpos : env.source.textFrom? pos = some r) (hm : n ≤ m)
    (hk : bytes r < k) :
    (sepLoop (fun q => p.run env m q) (fun q => sep.run env m q) k none pos).Yields
      fun x => x.1 = as ∧ env.source.textFrom? x.2 = some s := by
  induction h generalizing k pos with
  | nil =>
    obtain ⟨k, rfl⟩ := Nat.exists_eq_add_of_le' (Nat.lt_of_le_of_lt (Nat.zero_le _) hk)
    rw [sepLoop, if_neg (by simp)]
    exact hend.bind_refuses hpos hm fun e => .pure ⟨rfl, hpos⟩
  | @cons r s t u a as hsep hitem hahead _ ih =>
    obtain ⟨k, rfl⟩ := Nat.exists_eq_add_of_le' (Nat.lt_of_le_of_lt (Nat.zero_le _) hk)
    obtain ⟨b, hsep⟩ := hsep
    rw [sepLoop, if_neg (by simp)]
    refine hsep.bind_takes hpos hm fun d hs => hitem.bind_takes hs hm fun e ht => ?_
    dsimp only
    rw [if_pos ((Source.lt_of_textFrom? hpos ht).mpr hahead)]
    refine (ih hend ht (by omega)).bind fun x hx => .pure ?_
    rw [hx.1]
    exact ⟨rfl, hx.2⟩

/-- Without a separator in between. -/
theorem manyLoop_takes (h : Steps (p.Takes env n) (fun r s => r = s) r as s)
    (hend : p.Refuses env n s) (hpos : env.source.textFrom? pos = some r) (hm : n ≤ m)
    (hk : bytes r < k) :
    (manyLoop (fun q => p.run env m q) k none pos).Yields
      fun x => x.1 = as ∧ env.source.textFrom? x.2 = some s := by
  induction h generalizing k pos with
  | nil =>
    obtain ⟨k, rfl⟩ := Nat.exists_eq_add_of_le' (Nat.lt_of_le_of_lt (Nat.zero_le _) hk)
    rw [manyLoop, if_neg (by simp)]
    exact hend.bind_refuses hpos hm fun e => .pure ⟨rfl, hpos⟩
  | @cons r s t u a as hsep hitem hahead _ ih =>
    obtain ⟨k, rfl⟩ := Nat.exists_eq_add_of_le' (Nat.lt_of_le_of_lt (Nat.zero_le _) hk)
    subst hsep
    rw [manyLoop, if_neg (by simp)]
    refine hitem.bind_takes hpos hm fun e ht => ?_
    dsimp only
    rw [if_pos ((Source.lt_of_textFrom? hpos ht).mpr hahead)]
    refine (ih hend ht (by omega)).bind fun x hx => .pure ?_
    rw [hx.1]
    exact ⟨rfl, hx.2⟩

/-- What is known of the parsers on all that is shorter than `b` is known of the steps. -/
theorem sepLoop_yields {item : List Char → α → List Char → Prop}
    {between : List Char → List Char → Prop} {b : Nat}
    (hp : ∀ r, bytes r < b → p.Finds env n r (item r))
    (hsep : ∀ r, bytes r < b → sep.Finds env n r fun _ s => between r s ∧ bytes s ≤ bytes r)
    (hpos : env.source.textFrom? pos = some r) (hr : bytes r < b) (hm : n ≤ m) (hk : bytes r < k) :
    (sepLoop (fun q => p.run env m q) (fun q => sep.run env m q) k none pos).Yields
      fun x => ∃ s, env.source.textFrom? x.2 = some s ∧ Steps item between r x.1 s := by
  induction k generalizing pos r with
  | zero => omega
  | succ k ih =>
    have hstop : env.source.textFrom? pos = some r ∧ Steps item between r [] r := ⟨hpos, .nil⟩
    rw [sepLoop, if_neg (by simp)]
    refine (hsep r hr).bind hpos hm (fun d c s hs hc => ?_) fun d _ => .pure ⟨r, hstop⟩
    obtain ⟨hbetween, hle⟩ := hc c s rfl
    refine (hp s (by omega)).bind hs hm (fun e a t ht ha => ?_) fun e _ => .pure ⟨r, hstop⟩
    dsimp only
    split
    next hq =>
      have hahead := (Source.lt_of_textFrom? hpos ht).mp hq
      refine (ih ht (by omega) (by omega)).bind fun x hx => .pure ?_
      obtain ⟨u, hu, hsteps⟩ := hx
      exact ⟨u, hu, .cons hbetween (ha a t rfl) hahead hsteps⟩
    next => exact .pure ⟨r, hstop⟩

/-- Without bounds on the number, repetition always succeeds. -/
theorem atLeast_none (count pos : Nat) (x : α) : atLeast 0 count pos x = return .ok pos x :=
  if_neg (Nat.not_lt_zero count)

namespace Parser.OnRest

/-- Values that the parser is known to take, up to where it takes no other. -/
theorem many_takes (hnm : n < m) (hb : bytes r < n)
    (h : Steps (p.Takes env n) (fun r s => r = s) r as s) (hend : p.Refuses env n s) :
    (Parser.many p {}).Takes env m r as s := by
  refine of_run hnm fun pos hpos k hk => ?_
  rw [run]
  refine (manyLoop_takes h hend hpos hk (Nat.lt_of_lt_of_le hb hk)).bind fun x hx => ?_
  obtain ⟨as', q⟩ := x
  obtain ⟨rfl, hq⟩ := hx
  dsimp only
  rw [atLeast_none]
  exact .pure ⟨_, .ok hq, rfl⟩

theorem sepBy_takes {t : List Char} (hnm : n < m) (hb : bytes s < n)
    (hp : p.Takes env n r a s)
    (h : Steps (p.Takes env n) (fun r s => ∃ b, sep.Takes env n r b s) s as t)
    (hend : sep.Refuses env n t) :
    (Parser.sepBy p sep {}).Takes env m r (a :: as) t := by
  refine of_run hnm fun pos hpos k hk => ?_
  rw [run, if_neg (by simp)]
  refine hp.bind_takes hpos hk fun e hs => ?_
  refine (sepLoop_takes h hend hs hk (Nat.lt_of_lt_of_le hb hk)).bind fun x hx => ?_
  obtain ⟨as', q⟩ := x
  obtain ⟨rfl, hq⟩ := hx
  dsimp only
  rw [atLeast_none]
  exact .pure ⟨_, .ok hq, rfl⟩

theorem sepBy_refuses (hnm : n < m) (hp : p.Refuses env n r) :
    (Parser.sepBy p sep {}).Takes env m r [] r := by
  refine of_run hnm fun pos hpos k hk => ?_
  rw [run, if_neg (by simp)]
  refine hp.bind_refuses hpos hk fun e => ?_
  rw [atLeast_none]
  exact .pure ⟨_, .ok hpos, rfl⟩

theorem sepBy_finds {item : List Char → α → List Char → Prop}
    {between : List Char → List Char → Prop} {b : Nat} (hnm : n < m) (hb : b ≤ n)
    (hr : bytes r < b)
    (hp : ∀ r, bytes r < b → p.Finds env n r (item r))
    (hsep : ∀ r, bytes r < b → sep.Finds env n r fun _ s => between r s ∧ bytes s ≤ bytes r)
    (hforward : ∀ r a s, item r a s → bytes s ≤ bytes r) :
    (Parser.sepBy p sep {}).Finds env m r fun as t =>
      as = [] ∧ t = r ∨ ∃ a as' s, as = a :: as' ∧ item r a s ∧ Steps item between s as' t := by
  refine of_run hnm fun pos hpos k hk => ?_
  rw [run, if_neg (by simp)]
  refine (hp r hr).bind hpos hk (fun e a s hs ha => ?_) fun e _ => ?_
  · have hle := hforward r a s (ha a s rfl)
    refine (sepLoop_yields hp hsep hs (by omega) hk (by omega)).bind fun x hx => ?_
    obtain ⟨as, q⟩ := x
    obtain ⟨t, ht, hsteps⟩ := hx
    dsimp only
    rw [atLeast_none]
    refine .pure ⟨_, .ok ht, ?_⟩
    rintro _ _ ⟨⟩
    exact .inr ⟨a, as, s, rfl, ha a s rfl, hsteps⟩
  · rw [atLeast_none]
    refine .pure ⟨_, .ok hpos, ?_⟩
    rintro _ _ ⟨⟩
    exact .inl ⟨rfl, rfl⟩

end Parser.OnRest

end SepBy

/-! ## Parsing -/

namespace Parser.OnRest

variable {p : Parser Char τ α} {n : Nat} {text : List Char}

/-- Parsing a text goes by what the parser does where all of it is left. -/
theorem parse?_eq {Q : Option (α × List Char) → Prop} (h : p.OnRest env n text Q)
    (hsource : env.source = .text text) :
    ∃ sink o x, p.parse? n env = some (.ofOutcome sink o) ∧ env.source.Leaves o x ∧ Q x := by
  have hstart : env.source.textFrom? 0 = some text := by
    rw [hsource]
    exact Source.textFrom?_zero text
  obtain ⟨o, t, hrun, x, hleaves, hx⟩ := h 0 hstart n (Nat.le_refl n) {}
  exact ⟨t.sink, o, x, by simp [parse?, parseFrom?, hrun], hleaves, hx⟩

theorem parse?_takes {a : α} {s : List Char} (h : p.Takes env n text a s)
    (hsource : env.source = .text text) :
    p.parse? n env = some (.success (bytes text - bytes s) a) := by
  obtain ⟨sink, o, x, hparse, hleaves, rfl⟩ := h.parse?_eq hsource
  rw [hparse]
  cases hleaves with
  | @ok q _ _ hs =>
    have hlen := Source.len_of_textFrom? hs
    have htext : env.source.len = bytes text := by rw [hsource]; rfl
    have hq : q = bytes text - bytes s := by omega
    rw [ParseResult.ofOutcome, hq]

theorem parse?_finds {D : α → List Char → Prop} (h : p.Finds env n text D)
    (hsource : env.source = .text text) :
    ∃ result, p.parse? n env = some result ∧ ∀ i a, result = .success i a → ∃ s, D a s := by
  obtain ⟨sink, o, x, hparse, hleaves, hx⟩ := h.parse?_eq hsource
  refine ⟨_, hparse, fun i a hresult => ?_⟩
  cases hleaves with
  | ok _ =>
    cases hresult
    exact ⟨_, hx _ _ rfl⟩
  | fail => cases hresult

theorem parse?_refuses (h : p.Refuses env n text) (hsource : env.source = .text text) :
    ∃ i es, p.parse? n env = some (.failure i es) := by
  have hfinds : p.Finds env n text fun _ _ => False := h.of_eq nofun
  obtain ⟨result, hparse, hresult⟩ := hfinds.parse?_finds hsource
  cases result with
  | success i a => exact (hresult i a rfl).elim fun _ => False.elim
  | failure i es => exact ⟨i, es, hparse⟩

end Parser.OnRest

end Runs

end Backtrack
