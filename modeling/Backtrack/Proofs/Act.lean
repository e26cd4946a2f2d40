import Backtrack.ParseResult
import Backtrack.Proofs.Sink.Merge

/-!
# Reasoning about parts of a run

Two kinds of statements about an `Act`, each with a rule for every way in which parts are put
together: sequencing, the loops behind repetition, and the lists of parsers.

`Act.Ensures ok s a Q` is about one run. If `a` returns from `s`, it has only added to the history
of the sink, at positions that satisfy `ok`, and the result and the state it left satisfy `Q`.

`Act.Simulates R a b` compares two runs. From states related by `R`, whatever `a` returns `b`
returns too, and the states they leave are related again.

A part that exceeds its bound satisfies every statement of the first kind, and is simulated by
every part.
-/

namespace Backtrack

variable {σ ι : Type} {τ : ι → Type} {α β γ ν : Type}

/-! ## What a run adds to a state -/

/-- The state `t` is `s` after further entries, each at a position that satisfies `ok`. -/
def State.Extends (ok : Nat → Prop) (s t : State) : Prop :=
  ∃ new, t.entries = new ++ s.entries ∧ t.sink = s.sink.merge (.ofEntries new) ∧
    ∀ e ∈ new, ok e.index

namespace State.Extends

variable {ok ok' : Nat → Prop} {s t u : State}

theorem refl (ok : Nat → Prop) (s : State) : s.Extends ok s := ⟨[], by simp⟩

theorem trans (hst : s.Extends ok t) (htu : t.Extends ok u) : s.Extends ok u := by
  obtain ⟨es, hes, hsink, hok⟩ := hst
  obtain ⟨es', hes', hsink', hok'⟩ := htu
  refine ⟨es' ++ es, ?_, ?_, ?_⟩
  · rw [hes', hes, List.append_assoc]
  · rw [hsink', hsink, Sink.merge_assoc, Sink.ofEntries_append]
  · intro e he
    rcases List.mem_append.mp he with he | he
    · exact hok' e he
    · exact hok e he

theorem mono (h : s.Extends ok t) (hok : ∀ i, ok i → ok' i) : s.Extends ok' t := by
  obtain ⟨es, hes, hsink, hall⟩ := h
  exact ⟨es, hes, hsink, fun e he => hok _ (hall e he)⟩

/-- How far the sink has come is not lost. -/
theorem reaches {i : Nat} (h : s.Extends ok t) (hs : s.sink.Reaches i) : t.sink.Reaches i := by
  obtain ⟨es, -, hsink, -⟩ := h
  rw [hsink]
  exact hs.merge _

end State.Extends

/-- The position `e` of a failure is `start` or beyond, it satisfies `ok`, and a failure was
registered there or beyond. -/
def State.Explains (ok : Nat → Prop) (start : Nat) (s : State) (e : Nat) : Prop :=
  start ≤ e ∧ ok e ∧ s.sink.Reaches e

theorem State.Explains.later {ok ok' : Nat → Prop} {start e : Nat} {s t : State}
    (h : s.Explains ok start e) (hst : s.Extends ok' t) : t.Explains ok start e :=
  ⟨h.1, h.2.1, hst.reaches h.2.2⟩

/-- Where an outcome of a parser lies that was run at `start`. A success ends at `start` or beyond,
at a position that satisfies `ok`. If failures are `explained`, the state explains a failure. -/
def Outcome.Lands (ok : Nat → Prop) (explained : Prop) (start : Nat) :
    Outcome α → State → Prop
  | .ok e _, _ => start ≤ e ∧ ok e
  | .fail e, t => explained → t.Explains ok start e

namespace Act

theorem bind_apply (a : Act α) (f : α → Act β) (s : State) :
    (a >>= f) s = (a s).bind fun (x, t) => f x t := rfl

/-- A sequence returns when its first part does and the rest does from there. -/
theorem bind_eq_some {a : Act α} {f : α → Act β} {s t : State} {y : β} :
    (a >>= f) s = some (y, t) ↔ ∃ x u, a s = some (x, u) ∧ f x u = some (y, t) := by
  rw [bind_apply, Option.bind_eq_some_iff]
  exact ⟨fun ⟨⟨x, u⟩, h⟩ => ⟨x, u, h⟩, fun ⟨x, u, h⟩ => ⟨(x, u), h⟩⟩

theorem map_apply (f : α → β) (a : Act α) (s : State) :
    (f <$> a) s = (a s).map fun (x, t) => (f x, t) := by
  change (a s).bind (fun (x, t) => some (f x, t)) = _
  cases a s <;> rfl

/-- A part with a sink of its own returns when it does from an empty sink. -/
theorem isolated_eq_some {a : Act α} {s t : State} {x : α} :
    isolated a s = some (x, t) ↔
      ∃ u, a { s with sink := .empty, entries := [] } = some (x, u) ∧
        t = { s with built := u.built } := by
  constructor
  · intro h
    obtain ⟨_, _, hget, h⟩ := bind_eq_some.mp h
    cases hget
    obtain ⟨_, _, hset, h⟩ := bind_eq_some.mp h
    cases hset
    obtain ⟨y, u, ha, h⟩ := bind_eq_some.mp h
    obtain ⟨_, _, hmodify, h⟩ := bind_eq_some.mp h
    cases hmodify
    cases h
    exact ⟨u, ha, rfl⟩
  · rintro ⟨u, ha, rfl⟩
    refine bind_eq_some.mpr ⟨s, s, rfl, bind_eq_some.mpr ⟨(), _, rfl, ?_⟩⟩
    exact bind_eq_some.mpr ⟨x, u, ha, bind_eq_some.mpr ⟨(), _, rfl, rfl⟩⟩

/-! ## One run -/

/-- From `s`, the part adds entries at positions that satisfy `ok`, and comes to a result and a
state that satisfy `Q`. -/
def Ensures (ok : Nat → Prop) (s : State) (a : Act α) (Q : α → State → Prop) : Prop :=
  ∀ x t, a s = some (x, t) → s.Extends ok t ∧ Q x t

namespace Ensures

variable {ok ok' : Nat → Prop} {s : State} {a : Act α} {Q Q' : α → State → Prop}

theorem pure {x : α} (h : Q x s) : Ensures ok s (Pure.pure x) Q := by
  intro _ _ hrun
  cases hrun
  exact ⟨.refl ok s, h⟩

theorem exceeded : Ensures ok s (Act.exceeded : Act α) Q := by
  intro _ _ hrun
  cases hrun

theorem bind {f : α → Act β} {P : β → State → Prop} (ha : Ensures ok s a Q)
    (hf : ∀ x t, s.Extends ok t → Q x t → Ensures ok t (f x) P) : Ensures ok s (a >>= f) P := by
  intro y u hrun
  obtain ⟨x, t, hx, hy⟩ := bind_eq_some.mp hrun
  obtain ⟨hst, hq⟩ := ha x t hx
  obtain ⟨htu, hp⟩ := hf x t hst hq y u hy
  exact ⟨hst.trans htu, hp⟩

theorem mono (h : Ensures ok s a Q) (hok : ∀ i, ok i → ok' i)
    (hQ : ∀ x t, s.Extends ok t → Q x t → Q' x t) : Ensures ok' s a Q' := by
  intro x t hrun
  obtain ⟨hst, hq⟩ := h x t hrun
  exact ⟨hst.mono hok, hQ x t hst hq⟩

theorem imp (h : Ensures ok s a Q) (hQ : ∀ x t, s.Extends ok t → Q x t → Q' x t) :
    Ensures ok s a Q' :=
  h.mono (fun _ => id) hQ

theorem register {i : Nat} {r : Option Expectation} (hi : ok i) :
    Ensures ok s (Act.register i r) fun _ t => t.sink.Reaches i := by
  intro _ t hrun
  cases hrun
  refine ⟨⟨[⟨i, r⟩], rfl, Sink.add_eq_merge i r s.sink, ?_⟩, Sink.reaches_add s.sink i r⟩
  intro e he
  rw [List.mem_singleton.mp he]
  exact hi

theorem build (id : Nat) : Ensures ok s (Act.build id) fun _ _ => True := by
  intro _ t hrun
  cases hrun
  exact ⟨⟨[], by simp⟩, trivial⟩

theorem currentSink : Ensures ok s Act.currentSink fun _ _ => True := by
  intro _ t hrun
  cases hrun
  exact ⟨.refl ok s, trivial⟩

/-- What a part does to a sink of its own is not seen outside. -/
theorem isolated (h : Ensures ok' { s with sink := .empty, entries := [] } a Q) :
    Ensures ok s (Act.isolated a) fun x _ => ∃ t, Q x t := by
  intro x t hrun
  obtain ⟨u, ha, rfl⟩ := isolated_eq_some.mp hrun
  exact ⟨⟨[], by simp⟩, u, (h x u ha).2⟩

section Loops

variable {explained : Prop} {item : Nat → Act (Outcome α)} {sep : Nat → Act (Outcome β)}

theorem manyLoop (hitem : ∀ q s, ok q → Ensures ok s (item q) (·.Lands ok explained q)) (n : Nat)
    (limit : Option Nat) {pos : Nat} (hpos : ok pos) (s : State) :
    Ensures ok s (Backtrack.manyLoop item n limit pos) fun r _ => pos ≤ r.2 ∧ ok r.2 := by
  induction n generalizing limit pos s with
  | zero => exact exceeded
  | succ n ih =>
    rw [Backtrack.manyLoop]
    split
    · exact .pure ⟨Nat.le_refl pos, hpos⟩
    · refine (hitem pos s hpos).bind fun r t _ hr => ?_
      cases r with
      | fail q => exact .pure ⟨Nat.le_refl pos, hpos⟩
      | ok q a =>
        obtain ⟨hq, hok⟩ := hr
        dsimp only
        split
        · refine (ih _ hok t).bind fun r u _ hr => .pure ?_
          exact ⟨Nat.le_trans hq hr.1, hr.2⟩
        · exact .pure ⟨Nat.le_refl pos, hpos⟩

theorem foldLoop (hitem : ∀ q s, ok q → Ensures ok s (item q) (·.Lands ok explained q))
    (f : β → α → β) (n : Nat) (limit : Option Nat) (acc : β) (count : Nat) {pos : Nat}
    (hpos : ok pos) (s : State) :
    Ensures ok s (Backtrack.foldLoop item f n limit acc count pos) fun r _ =>
      pos ≤ r.2.2 ∧ ok r.2.2 := by
  induction n generalizing limit acc count pos s with
  | zero => exact exceeded
  | succ n ih =>
    rw [Backtrack.foldLoop]
    split
    · exact .pure ⟨Nat.le_refl pos, hpos⟩
    · refine (hitem pos s hpos).bind fun r t _ hr => ?_
      cases r with
      | fail q => exact .pure ⟨Nat.le_refl pos, hpos⟩
      | ok q a =>
        obtain ⟨hq, hok⟩ := hr
        dsimp only
        split
        · refine (ih _ _ _ hok t).imp fun r u _ hr => ?_
          exact ⟨Nat.le_trans hq hr.1, hr.2⟩
        · exact .pure ⟨Nat.le_refl pos, hpos⟩

theorem sepLoop (hitem : ∀ q s, ok q → Ensures ok s (item q) (·.Lands ok explained q))
    (hsep : ∀ q s, ok q → Ensures ok s (sep q) (·.Lands ok explained q)) (n : Nat)
    (limit : Option Nat) {pos : Nat} (hpos : ok pos) (s : State) :
    Ensures ok s (Backtrack.sepLoop item sep n limit pos) fun r _ => pos ≤ r.2 ∧ ok r.2 := by
  induction n generalizing limit pos s with
  | zero => exact exceeded
  | succ n ih =>
    rw [Backtrack.sepLoop]
    split
    · exact .pure ⟨Nat.le_refl pos, hpos⟩
    · refine (hsep pos s hpos).bind fun r t _ hr => ?_
      cases r with
      | fail q => exact .pure ⟨Nat.le_refl pos, hpos⟩
      | ok q b =>
        refine (hitem q t hr.2).bind fun r u _ hr' => ?_
        cases r with
        | fail e => exact .pure ⟨Nat.le_refl pos, hpos⟩
        | ok e a =>
          dsimp only
          split
          · refine (ih _ hr'.2 u).bind fun r u _ hr'' => .pure ?_
            exact ⟨Nat.le_trans (Nat.le_trans hr.1 hr'.1) hr''.1, hr''.2⟩
          · exact .pure ⟨Nat.le_refl pos, hpos⟩

/-- What each pass keeps of the position and the variables of a block, all passes together keep. -/
theorem passLoop {pass : Nat → ν → Act (Except Abort Unit × Nat × ν)} {P : Nat → Prop}
    {V : ν → State → Prop}
    (hpass : ∀ q v s, P q → V v s → Ensures ok s (pass q v) fun r t => P r.2.1 ∧ V r.2.2 t)
    (n : Nat) {pos : Nat} (hpos : P pos) {v : ν} {s : State} (hv : V v s) :
    Ensures ok s (Backtrack.passLoop pass n pos v) fun r t => P r.1 ∧ V r.2 t := by
  induction n generalizing pos v s with
  | zero => exact exceeded
  | succ n ih =>
    rw [Backtrack.passLoop]
    refine (hpass pos v s hpos hv).bind fun r t _ hr => ?_
    obtain ⟨r, q, w⟩ := r
    obtain ⟨hq, hw⟩ := hr
    cases r with
    | error e =>
      refine .pure ⟨?_, hw⟩
      dsimp only
      split
      · exact hq
      · exact hpos
    | ok _ =>
      dsimp only
      split
      · exact ih hq hw
      · exact .pure ⟨hq, hw⟩

end Loops

section Lists

variable {explained : Prop} {call : Call σ τ} {ps : Parsers σ τ α}

/-- The first success, or the failure of the last parser at least. -/
theorem firstOf : ∀ (ps : Parsers σ τ α),
    (∀ p ∈ ps.toList, ∀ q s, ok q → Ensures ok s (call p q) (·.Lands ok explained q)) →
    ∀ {pos : Nat} (_ : ok pos) {s : State} (_ : ps = .nil → explained → s.sink.Reaches pos),
    Ensures ok s (ps.firstOf call pos) (·.Lands ok explained pos)
  | .nil, _, pos, hpos, s, hs => by
    rw [Parsers.firstOf]
    exact .pure fun he => ⟨Nat.le_refl pos, hpos, hs rfl he⟩
  | .cons p ps, hps, pos, hpos, s, _ => by
    rw [Parsers.firstOf]
    have hp := hps p (by simp [Parsers.toList]) pos s hpos
    refine hp.bind fun r t _ hr => ?_
    cases r with
    | ok q a => exact .pure hr
    | fail q =>
      refine firstOf ps (fun p' hp' => hps p' (by simp [Parsers.toList, hp'])) hpos fun _ he => ?_
      obtain ⟨hq, -, hreach⟩ := hr he
      exact hreach.mono hq

theorem inOrder (allowPartial : Bool) : ∀ (ps : Parsers σ τ α),
    (∀ p ∈ ps.toList, ∀ q s, ok q → Ensures ok s (call p q) (·.Lands ok explained q)) →
    ∀ {pos : Nat} (_ : ok pos) (s : State),
    Ensures ok s (ps.inOrder call allowPartial pos) (·.Lands ok explained pos)
  | .nil, _, pos, hpos, s => by
    rw [Parsers.inOrder]
    exact .pure ⟨Nat.le_refl pos, hpos⟩
  | .cons p ps, hps, pos, hpos, s => by
    rw [Parsers.inOrder]
    have hp := hps p (by simp [Parsers.toList]) pos s hpos
    refine hp.bind fun r t _ hr => ?_
    cases r with
    | fail q =>
      cases allowPartial with
      | true => exact .pure ⟨Nat.le_refl pos, hpos⟩
      | false => exact .pure hr
    | ok q a =>
      obtain ⟨hq, hok⟩ := hr
      have hrest := inOrder allowPartial ps
        (fun p' hp' => hps p' (by simp [Parsers.toList, hp'])) hok t
      refine hrest.bind fun r u _ hr => ?_
      cases r with
      | ok e as => exact .pure ⟨Nat.le_trans hq hr.1, hr.2⟩
      | fail e =>
        refine .pure fun he => ?_
        obtain ⟨hle, hrest⟩ := hr he
        exact ⟨Nat.le_trans hq hle, hrest⟩

end Lists

end Ensures

/-! ## Two runs -/

/-- From related states, what the first part returns the second returns too, and the states left
are related. -/
def Simulates (R : State → State → Prop) (a b : Act α) : Prop :=
  ∀ s t, R s t → ∀ x s', a s = some (x, s') → ∃ t', b t = some (x, t') ∧ R s' t'

namespace Simulates

variable {R : State → State → Prop} {a b : Act α}

theorem pure (x : α) : Simulates R (Pure.pure x) (Pure.pure x) := by
  intro s t hst y s' hrun
  cases hrun
  exact ⟨t, rfl, hst⟩

theorem exceeded : Simulates R Act.exceeded b := by
  intro s t _ y s' hrun
  cases hrun

theorem bind {f g : α → Act β} (hab : Simulates R a b) (hfg : ∀ x, Simulates R (f x) (g x)) :
    Simulates R (a >>= f) (b >>= g) := by
  intro s t hst y s' hrun
  obtain ⟨x, s₁, hx, hy⟩ := bind_eq_some.mp hrun
  obtain ⟨t₁, hx', h₁⟩ := hab s t hst x s₁ hx
  obtain ⟨t', hy', h'⟩ := hfg x s₁ t₁ h₁ y s' hy
  exact ⟨t', bind_eq_some.mpr ⟨x, t₁, hx', hy'⟩, h'⟩

section Leaves

/-- The relation is kept where both runs register the same failure, if its record is for the place
of the failure and is no label. -/
def Plainly (R : State → State → Prop) : Prop :=
  ∀ i r, (∀ e, r = some e → e.index = i) → (∀ e, r = some e → e.isLabel = false) →
    Simulates R (Act.register i r) (Act.register i r)

variable (hR : Plainly R) {pos : Nat}

include hR

/-- A failure without a record. -/
theorem registerNone (i : Nat) : Simulates R (Act.register i none) (Act.register i none) := by
  refine hR i none ?_ ?_
  · intro e h
    cases h
  · intro e h
    cases h

theorem failWith {e : Expectation} (he : e.isLabel = false) (pos : Nat) :
    Simulates R (Act.failWith e pos : Act (Outcome α)) (Act.failWith e pos) :=
  (hR _ _ (fun _ h => Option.some.inj h ▸ rfl) fun _ h => Option.some.inj h ▸ he).bind
    fun _ => .pure _

theorem mismatch (pos : Nat) :
    Simulates R (Act.mismatch pos : Act (Outcome α)) (Act.mismatch pos) :=
  failWith hR rfl pos

theorem atLeast (min count pos : Nat) (x : α) :
    Simulates R (Backtrack.atLeast min count pos x) (Backtrack.atLeast min count pos x) := by
  rw [Backtrack.atLeast]
  split
  · exact (registerNone hR pos).bind fun _ => .pure _
  · exact .pure _

omit hR in
theorem symbolWhere {src : Source σ} {accept : σ → Bool} {reject : Act (Outcome σ)}
    (h : Simulates R reject reject) (pos : Nat) :
    Simulates R (Backtrack.symbolWhere src pos accept reject)
      (Backtrack.symbolWhere src pos accept reject) := by
  rw [Backtrack.symbolWhere]
  split
  · split
    · exact .pure _
    · exact h
  · exact h

theorem forM_register [Describe σ] (xs : List σ) (pos : Nat) :
    Simulates R (xs.forM fun x => Act.register pos (some (.expected pos (describe x))))
      (xs.forM fun x => Act.register pos (some (.expected pos (describe x)))) := by
  induction xs with
  | nil => exact .pure _
  | cons x xs ih =>
    have hx := hR pos (some (.expected pos (describe x))) (fun _ h => Option.some.inj h ▸ rfl)
      fun _ h => Option.some.inj h ▸ rfl
    exact hx.bind fun _ => ih

theorem expectEach [Describe σ] (xs : List σ) (pos : Nat) :
    Simulates R (Backtrack.expectEach xs pos : Act (Outcome α)) (Backtrack.expectEach xs pos) := by
  rw [Backtrack.expectEach]
  cases xs with
  | nil => exact (registerNone hR pos).bind fun _ => (forM_register hR [] pos).bind fun _ => .pure _
  | cons x xs => exact (forM_register hR (x :: xs) pos).bind fun _ => .pure _

theorem charWhere (src : Source σ) (pos : Nat) (accept : Char → Bool) :
    Simulates R (Backtrack.charWhere src pos accept) (Backtrack.charWhere src pos accept) := by
  rw [Backtrack.charWhere]
  split
  · split
    · exact .pure _
    · exact mismatch hR pos
  · exact mismatch hR pos

theorem regexWhere (src : Source σ) (re : Regex) (pos : Nat)
    (value : Regex.Match → List Char → α) :
    Simulates R (Backtrack.regexWhere src re pos value)
      (Backtrack.regexWhere src re pos value) := by
  rw [Backtrack.regexWhere]
  split
  · split
    · exact .pure _
    · exact mismatch hR pos
  · exact mismatch hR pos

end Leaves

section Loops

variable {item item' : Nat → Act (Outcome α)} {sep sep' : Nat → Act (Outcome β)} {m n : Nat}

theorem manyLoop (hitem : ∀ q, Simulates R (item q) (item' q)) (hmn : m ≤ n) (limit : Option Nat)
    (pos : Nat) :
    Simulates R (Backtrack.manyLoop item m limit pos) (Backtrack.manyLoop item' n limit pos) := by
  induction m generalizing n limit pos with
  | zero => exact exceeded
  | succ m ih =>
    obtain ⟨n, rfl⟩ := Nat.exists_eq_add_of_le' (Nat.lt_of_lt_of_le m.succ_pos hmn)
    rw [Backtrack.manyLoop, Backtrack.manyLoop]
    split
    · exact pure _
    · refine (hitem pos).bind fun r => ?_
      cases r with
      | fail q => exact pure _
      | ok q a =>
        dsimp only
        split
        · exact (ih (by omega) _ q).bind fun r => pure _
        · exact pure _

theorem foldLoop (hitem : ∀ q, Simulates R (item q) (item' q)) (f : β → α → β) (hmn : m ≤ n)
    (limit : Option Nat) (acc : β) (count pos : Nat) :
    Simulates R (Backtrack.foldLoop item f m limit acc count pos)
      (Backtrack.foldLoop item' f n limit acc count pos) := by
  induction m generalizing n limit acc count pos with
  | zero => exact exceeded
  | succ m ih =>
    obtain ⟨n, rfl⟩ := Nat.exists_eq_add_of_le' (Nat.lt_of_lt_of_le m.succ_pos hmn)
    rw [Backtrack.foldLoop, Backtrack.foldLoop]
    split
    · exact pure _
    · refine (hitem pos).bind fun r => ?_
      cases r with
      | fail q => exact pure _
      | ok q a =>
        dsimp only
        split
        · exact ih (by omega) _ _ _ q
        · exact pure _

theorem sepLoop (hitem : ∀ q, Simulates R (item q) (item' q))
    (hsep : ∀ q, Simulates R (sep q) (sep' q)) (hmn : m ≤ n) (limit : Option Nat) (pos : Nat) :
    Simulates R (Backtrack.sepLoop item sep m limit pos)
      (Backtrack.sepLoop item' sep' n limit pos) := by
  induction m generalizing n limit pos with
  | zero => exact exceeded
  | succ m ih =>
    obtain ⟨n, rfl⟩ := Nat.exists_eq_add_of_le' (Nat.lt_of_lt_of_le m.succ_pos hmn)
    rw [Backtrack.sepLoop, Backtrack.sepLoop]
    split
    · exact pure _
    · refine (hsep pos).bind fun r => ?_
      cases r with
      | fail q => exact pure _
      | ok q b =>
        refine (hitem q).bind fun r => ?_
        cases r with
        | fail e => exact pure _
        | ok e a =>
          dsimp only
          split
          · exact (ih (by omega) _ e).bind fun r => pure _
          · exact pure _

theorem passLoop {pass pass' : Nat → ν → Act (Except Abort Unit × Nat × ν)}
    (hpass : ∀ q v, Simulates R (pass q v) (pass' q v)) (hmn : m ≤ n) (pos : Nat) (v : ν) :
    Simulates R (Backtrack.passLoop pass m pos v) (Backtrack.passLoop pass' n pos v) := by
  induction m generalizing n pos v with
  | zero => exact exceeded
  | succ m ih =>
    obtain ⟨n, rfl⟩ := Nat.exists_eq_add_of_le' (Nat.lt_of_lt_of_le m.succ_pos hmn)
    rw [Backtrack.passLoop, Backtrack.passLoop]
    refine (hpass pos v).bind fun r => ?_
    obtain ⟨r, q, w⟩ := r
    cases r with
    | error e => exact pure _
    | ok _ =>
      dsimp only
      split
      · exact ih (by omega) q w
      · exact pure _

end Loops

section Lists

variable {call call' : Call σ τ}

theorem firstOf : ∀ (ps : Parsers σ τ α),
    (∀ p ∈ ps.toList, ∀ q, Simulates R (call p q) (call' p q)) →
    ∀ pos, Simulates R (ps.firstOf call pos) (ps.firstOf call' pos)
  | .nil, _, pos => pure _
  | .cons p ps, hps, pos => by
    rw [Parsers.firstOf, Parsers.firstOf]
    refine (hps p (by simp [Parsers.toList]) pos).bind fun r => ?_
    cases r with
    | ok q a => exact pure _
    | fail q => exact firstOf ps (fun p' hp' => hps p' (by simp [Parsers.toList, hp'])) pos

theorem inOrder (allowPartial : Bool) : ∀ (ps : Parsers σ τ α),
    (∀ p ∈ ps.toList, ∀ q, Simulates R (call p q) (call' p q)) →
    ∀ pos, Simulates R (ps.inOrder call allowPartial pos) (ps.inOrder call' allowPartial pos)
  | .nil, _, pos => pure _
  | .cons p ps, hps, pos => by
    rw [Parsers.inOrder, Parsers.inOrder]
    refine (hps p (by simp [Parsers.toList]) pos).bind fun r => ?_
    cases r with
    | fail q => exact pure _
    | ok q a =>
      have hrest := inOrder allowPartial ps fun p' hp' => hps p' (by simp [Parsers.toList, hp'])
      refine (hrest q).bind fun r => ?_
      cases r with
      | ok e as => exact pure _
      | fail e => exact pure _

end Lists

end Simulates

end Act

end Backtrack
