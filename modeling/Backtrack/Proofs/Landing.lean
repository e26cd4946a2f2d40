import Backtrack.Proofs.Act
import Backtrack.Proofs.LibraryBuilt

/-!
# Where runs end

Let `ok` hold of the good positions of a source, such that reading leads from good positions to
good ones (`Source.ReadsWithin`). Then a library-built parser that starts at a good position ends at
a good one, not before its start, and registers failures at good positions only. If the blocks in it
raise only signals of their own, its failure is explained as well: the position it names is good,
and a failure was registered there or beyond.

This is proved once for all, with `ok` and the law of blocks as parameters (`Parser.run_lands`). Of
every library-built parser it says that runs go forward (`Parser.run_forward`), and of one whose
blocks raise signals of their own that a failure has been registered
(`Parser.Oblivious.reaches_of_fail`).
-/

namespace Backtrack

variable {σ ι : Type} {τ : ι → Type} {α β ν : Type}

open Act

/-- What exists under a condition can be named without it. -/
theorem exists_of_imp {P : Prop} {X : Type} [Nonempty X] {p : X → Prop} (h : P → ∃ x, p x) :
    ∃ x, P → p x := by
  by_cases hP : P
  · obtain ⟨x, hx⟩ := h hP
    exact ⟨x, fun _ => hx⟩
  · exact ⟨Classical.arbitrary X, fun h => absurd h hP⟩

/-! ## Blocks -/

/-- Every signal of a set is explained. -/
def State.ExplainsAll (ok : Nat → Prop) (start : Nat) (s : State) (es : Set Abort) : Prop :=
  ∀ e ∈ es, s.Explains ok start e.position

namespace State.ExplainsAll

variable {ok : Nat → Prop} {start : Nat} {s t : State} {es es' : Set Abort}

theorem union (h : s.ExplainsAll ok start es) (h' : s.ExplainsAll ok start es') :
    s.ExplainsAll ok start (es ∪ es') := fun e he => he.elim (h e) (h' e)

theorem later (h : s.ExplainsAll ok start es) (hst : s.Extends ok t) :
    t.ExplainsAll ok start es := fun e he => (h e he).later hst

end State.ExplainsAll

namespace Block

/-- Where the steps of a block stand: the position, and if failures are explained, so are the
signals that are known by now and those in the variables. -/
structure Stands (ok : Nat → Prop) (explained : Prop) (start : Nat) (known held : Set Abort)
    (pos : Nat) (s : State) : Prop where
  le : start ≤ pos
  inside : ok pos
  known : explained → s.ExplainsAll ok start known
  held : explained → s.ExplainsAll ok start held

/-- The signals of a result of a block. -/
def signals (kept : α → Set Abort) : Except Abort α → Set Abort
  | .ok a => kept a
  | .error e => {e}

namespace Stands

variable {ok : Nat → Prop} {explained : Prop} {start pos q : Nat}
  {known known' held held' : Set Abort} {s t : State}

theorem later (h : Stands ok explained start known held pos s) (hst : s.Extends ok t) :
    Stands ok explained start known held pos t :=
  ⟨h.le, h.inside, fun he => (h.known he).later hst, fun he => (h.held he).later hst⟩

theorem moveTo (h : Stands ok explained start known held pos s) (hle : start ≤ q) (hq : ok q) :
    Stands ok explained start known held q s :=
  ⟨hle, hq, h.known, h.held⟩

theorem learn (h : Stands ok explained start known held pos s)
    (hes : explained → s.ExplainsAll ok start known') :
    Stands ok explained start (known ∪ known') held pos s :=
  ⟨h.le, h.inside, fun he => (h.known he).union (hes he), h.held⟩

theorem hold (h : Stands ok explained start known held pos s)
    (hes : explained → s.ExplainsAll ok start held') :
    Stands ok explained start known held' pos s :=
  ⟨h.le, h.inside, h.known, hes⟩

end Stands

section Blocks

variable {ok : Nat → Prop} {explained : Prop} {law : BlockLaw σ τ}
  {reports : Nat → Option Expectation → Prop} {call : Call σ τ} {start : Nat}

/-- If the parsers of a block end at good positions and explain their failures, so does the block.
The induction is on the steps. -/
theorem exec_lands (src : Source σ) (cfg : Config) (n : Nat)
    (hreports : ∀ i r, reports i r → ok i)
    (hcall : ∀ {β : Type} (p : Parser σ τ β), p.Oblivious law reports → ∀ q s, ok q →
      Ensures ok s (call p q) (·.Lands ok explained q)) :
    ∀ {ν α : Type} (body : Block σ τ ν α) {held : ν → Set Abort} {known : Set Abort}
      {kept : α → Set Abort} {pos : Nat} {v : ν} {s : State}, body.Oblivious law reports →
      (explained → body.Raises held known kept) →
      Stands ok explained start known (held v) pos s →
      Ensures ok s (body.exec call src cfg n pos v) fun r t =>
        Stands ok explained start (signals kept r.1) (held r.2.2) r.2.1 t
  | _, _, .ret a, held, known, kept, pos, v, s, _, hr, hs => by
    rw [exec]
    exact .pure ⟨hs.le, hs.inside, fun he e hmem => hs.known he e (hr he hmem), hs.held⟩
  | _, _, .abort e, held, known, kept, pos, v, s, _, hr, hs => by
    rw [exec]
    refine .pure ⟨hs.le, hs.inside, fun he e' hmem => ?_, hs.held⟩
    rw [Set.mem_singleton_iff.mp hmem]
    exact hs.known he e (hr he)
  | _, _, .perform p allowPartial next, held, known, kept, pos, v, s, hb, hr, hs => by
    rw [exec]
    refine (hcall p hb.1 pos s hs.inside).bind fun r t hst hrun => ?_
    cases r with
    | ok q a =>
      exact exec_lands src cfg n hreports hcall (next (.ok a)) (hb.2 _) (fun he => (hr he).1 a)
        ((hs.later hst).moveTo (Nat.le_trans hs.le hrun.1) hrun.2)
    | fail q =>
      refine exec_lands src cfg n hreports hcall (next (.error ⟨pos, allowPartial⟩)) (hb.2 _)
        (fun he => (hr he).2 pos) ((hs.later hst).learn fun he e hmem => ?_)
      rw [Set.mem_singleton_iff.mp hmem]
      obtain ⟨hq, -, hreach⟩ := hrun he
      exact ⟨hs.le, hs.inside, hreach.mono hq⟩
  | _, _, .many p next, held, known, kept, pos, v, s, hb, hr, hs => by
    rw [exec]
    refine (Ensures.manyLoop (hcall p hb.1) n none hs.inside s).bind fun r t hst hrun => ?_
    exact exec_lands src cfg n hreports hcall (next r.1) (hb.2 _) (fun he => hr he r.1)
      ((hs.later hst).moveTo (Nat.le_trans hs.le hrun.1) hrun.2)
  | _, _, .attempt body next, held, known, kept, pos, v, s, hb, hr, hs => by
    rw [exec]
    obtain ⟨kept', hkept⟩ := exists_of_imp hr
    have hbody := exec_lands src cfg n hreports hcall body hb.1 (fun he => (hkept he).1) hs
    refine hbody.bind fun r t hst hrun => ?_
    obtain ⟨r, q, w⟩ := r
    have hs' := (hs.later hst).hold hrun.held
    cases r with
    | ok a =>
      exact exec_lands src cfg n hreports hcall (next (some a)) (hb.2 _)
        (fun he => (hkept he).2.1 a) ((hs'.moveTo hrun.le hrun.inside).learn hrun.known)
    | error e =>
      refine exec_lands src cfg n hreports hcall (next none) (hb.2 _) (fun he => (hkept he).2.2) ?_
      split
      · exact hs'.moveTo hrun.le hrun.inside
      · exact hs'
  | _, _, .loop body next, held, known, kept, pos, v, s, hb, hr, hs => by
    rw [exec]
    have hpass : ∀ q w t, start ≤ q ∧ ok q → (explained → t.ExplainsAll ok start known ∧
        t.ExplainsAll ok start (held w)) → Ensures ok t (body.exec call src cfg n q w) fun r u =>
          (start ≤ r.2.1 ∧ ok r.2.1) ∧ (explained → u.ExplainsAll ok start known ∧
            u.ExplainsAll ok start (held r.2.2)) := by
      intro q w t hq hw
      have hs : Stands ok explained start known (held w) q t :=
        ⟨hq.1, hq.2, fun he => (hw he).1, fun he => (hw he).2⟩
      have hbody := exec_lands src cfg n hreports hcall body hb.1 (fun he => (hr he).1) hs
      refine hbody.imp fun r u htu hu => ⟨⟨hu.le, hu.inside⟩, fun he => ?_⟩
      exact ⟨(hw he).1.later htu, hu.held he⟩
    refine (Ensures.passLoop hpass n ⟨hs.le, hs.inside⟩ fun he => ⟨hs.known he, hs.held he⟩).bind
      fun r t _ hrun => ?_
    exact exec_lands src cfg n hreports hcall next hb.2 (fun he => (hr he).2)
      ⟨hrun.1.1, hrun.1.2, fun he => (hrun.2 he).1, fun he => (hrun.2 he).2⟩
  | _, _, .position next, held, known, kept, pos, v, s, hb, hr, hs => by
    rw [exec]
    exact exec_lands src cfg n hreports hcall (next pos) (hb _) (fun he => hr he pos) hs
  | _, _, .ask next, held, known, kept, pos, v, s, hb, hr, hs => by
    rw [exec]
    exact exec_lands src cfg n hreports hcall (next src cfg) (hb _ _) (fun he => hr he src cfg) hs
  | _, _, .get next, held, known, kept, pos, v, s, hb, hr, hs => by
    rw [exec]
    exact exec_lands src cfg n hreports hcall (next v) (hb _) (fun he => hr he v) (hs.learn hs.held)
  | _, _, .set w next, held, known, kept, pos, v, s, hb, hr, hs => by
    rw [exec]
    exact exec_lands src cfg n hreports hcall next hb (fun he => (hr he).2)
      (hs.hold fun he e hmem => hs.known he e ((hr he).1 hmem))
  | _, _, .register index record _ next, held, known, kept, pos, v, s, hb, hr, hs => by
    rw [exec]
    refine (Ensures.register (hreports _ _ hb.1)).bind fun _ t hst _ => ?_
    exact exec_lands src cfg n hreports hcall next hb.2 hr (hs.later hst)
  | _, _, .inspect _, _, _, _, _, _, _, hb, _, _ => hb.elim

end Blocks

end Block

/-! ## Leaves -/

/-- Reading at a position that satisfies `ok` leads to such a position again. -/
structure Source.ReadsWithin (src : Source σ) (ok : Nat → Prop) : Prop where
  symbol {pos w : Nat} {x : σ} : ok pos → src.symbolAt? pos = some (x, w) → ok (pos + w)
  char {pos : Nat} {c : Char} {rest : List Char} :
    ok pos → src.textFrom? pos = some (c :: rest) → ok (pos + c.utf8Size)
  regex {pos : Nat} {re : Regex} {rest : List Char} {m : Regex.Match} :
    ok pos → src.textFrom? pos = some rest → re.match? rest = some m → ok (pos + m.stop)

namespace Outcome.Lands

variable {ok : Nat → Prop} {explained : Prop} {start q : Nat} {s t : State}

theorem map {r : Outcome α} (h : r.Lands ok explained start s) (f : α → β) :
    (r.map f).Lands ok explained start s := by
  cases r with
  | ok e a => exact h
  | fail e => exact h

/-- What lands beyond a later start lands beyond an earlier one. -/
theorem from_le {r : Outcome α} (h : r.Lands ok explained q s) (hq : start ≤ q) :
    r.Lands ok explained start s := by
  cases r with
  | ok e a => exact ⟨Nat.le_trans hq h.1, h.2⟩
  | fail e => exact fun he => ⟨Nat.le_trans hq (h he).1, (h he).2⟩

end Outcome.Lands

section Leaves

variable {ok : Nat → Prop} {explained : Prop} {src : Source σ} {pos : Nat}

/-- From every state, the part adds to the sink at good positions only, and its outcome lands. -/
def Act.Lands (ok : Nat → Prop) (explained : Prop) (pos : Nat) (a : Act (Outcome α)) : Prop :=
  ∀ s, Ensures ok s a (·.Lands ok explained pos)

theorem Act.Lands.failWith {e : Expectation} (he : e.index = pos) (hpos : ok pos) :
    (failWith e pos : Act (Outcome α)).Lands ok explained pos := by
  intro s
  rw [Act.failWith]
  refine (Ensures.register (he ▸ hpos)).bind fun _ t _ hreach => .pure fun _ => ?_
  exact ⟨Nat.le_refl pos, hpos, he ▸ hreach⟩

theorem Act.Lands.mismatch (hpos : ok pos) :
    (mismatch pos : Act (Outcome α)).Lands ok explained pos :=
  failWith rfl hpos

theorem symbolWhere_lands (hread : src.ReadsWithin ok) (hpos : ok pos) {accept : σ → Bool}
    {reject : Act (Outcome σ)} (hreject : reject.Lands ok explained pos) :
    (symbolWhere src pos accept reject).Lands ok explained pos := by
  intro s
  rw [symbolWhere]
  split
  · next x w hx =>
    split
    · exact .pure ⟨Nat.le_add_right pos w, hread.symbol hpos hx⟩
    · exact hreject s
  · exact hreject s

/-- A record for each of a list of symbols is a failure, if there is a symbol. -/
theorem Act.Ensures.forM_register [Describe σ] {xs : List σ} {s : State} (hpos : ok pos)
    (h : xs ≠ [] ∨ s.sink.Reaches pos) :
    Ensures ok s (xs.forM fun x => Act.register pos (some (.expected pos (describe x)))) fun _ t =>
      t.sink.Reaches pos := by
  induction xs generalizing s with
  | nil => exact .pure (h.resolve_left (absurd rfl))
  | cons x xs ih => exact (Ensures.register hpos).bind fun _ t _ ht => ih (.inr ht)

theorem expectEach_lands [Describe σ] (xs : List σ) (hpos : ok pos) :
    (expectEach xs pos : Act (Outcome α)).Lands ok explained pos := by
  intro s
  rw [expectEach]
  cases xs with
  | nil =>
    refine (Ensures.register hpos).bind fun _ t _ ht => ?_
    refine (Ensures.forM_register hpos (.inr ht)).bind fun _ u _ hu => ?_
    exact .pure fun _ => ⟨Nat.le_refl pos, hpos, hu⟩
  | cons x xs =>
    refine (Ensures.forM_register hpos (.inl (List.cons_ne_nil x xs))).bind fun _ t _ ht => ?_
    exact .pure fun _ => ⟨Nat.le_refl pos, hpos, ht⟩

theorem charWhere_lands (hread : src.ReadsWithin ok) (hpos : ok pos) (accept : Char → Bool) :
    (charWhere src pos accept).Lands ok explained pos := by
  intro s
  rw [charWhere]
  split
  · next c rest hc =>
    split
    · exact .pure ⟨Nat.le_add_right pos _, hread.char hpos hc⟩
    · exact Act.Lands.mismatch hpos s
  · exact Act.Lands.mismatch hpos s

theorem regexWhere_lands (hread : src.ReadsWithin ok) (hpos : ok pos) (re : Regex)
    (value : Regex.Match → List Char → α) :
    (regexWhere src re pos value).Lands ok explained pos := by
  intro s
  rw [regexWhere]
  split
  · next rest hrest =>
    split
    · next m hm => exact .pure ⟨Nat.le_add_right pos _, hread.regex hpos hrest hm⟩
    · exact Act.Lands.mismatch hpos s
  · exact Act.Lands.mismatch hpos s

theorem matchSymbols?_within [BEq σ] (hread : src.ReadsWithin ok) {xs : List σ} {q : Nat}
    (hpos : ok pos) (h : src.matchSymbols? xs pos = some q) : pos ≤ q ∧ ok q := by
  induction xs generalizing pos with
  | nil =>
    cases h
    exact ⟨Nat.le_refl _, hpos⟩
  | cons x xs ih =>
    rw [Source.matchSymbols?] at h
    split at h
    · next y w hy =>
      split at h
      · obtain ⟨hle, hq⟩ := ih (hread.symbol hpos hy) h
        exact ⟨Nat.le_trans (Nat.le_add_right pos w) hle, hq⟩
      · cases h
    · cases h

theorem atLeast_lands {start q min count : Nat} (hle : start ≤ q) (hq : ok q) (a : α) :
    (atLeast min count q a).Lands ok explained start := by
  intro s
  rw [atLeast]
  split
  · exact (Ensures.register hq).bind fun _ t _ hreach => .pure fun _ => ⟨hle, hq, hreach⟩
  · exact .pure ⟨hle, hq⟩

end Leaves

/-! ## Parsers -/

section Parsers

variable [BEq σ] [Describe σ] {env : Env σ τ} {ok : Nat → Prop} {law : BlockLaw σ τ}
  {reports : Nat → Option Expectation → Prop}

/-- One case for each kind of parser, by induction on the bound. Failures that blocks register by
hand have to be at good positions. -/
theorem Parser.Oblivious.run_lands (explained : Prop) (hread : env.source.ReadsWithin ok)
    (henv : env.Oblivious law reports) (hreports : ∀ i r, reports i r → ok i)
    (hown : explained → ∀ {ν β : Type} (init : ν) (body : Block σ τ ν β), law init body →
      body.OwnAborts init) (n : Nat) (p : Parser σ τ α) (hp : p.Oblivious law reports) {pos : Nat}
    (hpos : ok pos) : (p.run env n pos).Lands ok explained pos := by
  induction n generalizing α p pos with
  | zero => exact fun s => .exceeded
  | succ n ih =>
    intro s
    cases p with
    | pure a => exact .pure ⟨Nat.le_refl _, hpos⟩
    | fail what =>
      cases what with
      | none => exact Lands.mismatch hpos s
      | some what => exact Lands.failWith rfl hpos s
    | any => exact symbolWhere_lands hread hpos (Lands.mismatch hpos) s
    | eoi =>
      rw [run]
      split
      · exact .pure ⟨Nat.le_refl pos, hpos⟩
      · exact Lands.failWith rfl hpos s
    | el x => exact symbolWhere_lands hread hpos (Lands.failWith rfl hpos) s
    | oneOf set => exact symbolWhere_lands hread hpos (expectEach_lands _ hpos) s
    | noneOf set => exact symbolWhere_lands hread hpos (Lands.mismatch hpos) s
    | satisfy pred => exact symbolWhere_lands hread hpos (Lands.mismatch hpos) s
    | literal pattern =>
      rw [run]
      split
      · next q hq => exact .pure (matchSymbols?_within hread hpos hq)
      · exact Lands.failWith rfl hpos s
    | charWith pred => exact charWhere_lands hread hpos pred s
    | regexGroup re i => exact regexWhere_lands hread hpos re _ s
    | regexGroups re => exact regexWhere_lands hread hpos re _ s
    | covered p =>
      rw [run]
      refine (Ensures.isolated (ih p hp hpos _)).bind fun r t _ hr => ?_
      cases r with
      | fail q => exact Lands.mismatch hpos t
      | ok q a =>
        obtain ⟨_, hq⟩ := hr
        dsimp only
        split
        · exact .pure hq
        · exact Lands.mismatch hpos t
    | map p f =>
      rw [run]
      exact (ih p hp hpos s).bind fun r t _ hr => .pure (hr.map f)
    | flatMap p next =>
      rw [run]
      refine (ih p hp.1 hpos s).bind fun r t _ hr => ?_
      cases r with
      | fail q => exact .pure hr
      | ok q a => exact (ih (next a) (hp.2 a) hr.2 t).imp fun r u _ hr' => hr'.from_le hr.1
    | andMap p q f =>
      rw [run]
      refine (ih p hp.1 hpos s).bind fun r t _ hr => ?_
      cases r with
      | fail q => exact .pure hr
      | ok e a =>
        exact (ih q hp.2 hr.2 t).bind fun r u _ hr' => .pure ((hr'.from_le hr.1).map _)
    | between p pre post =>
      rw [run]
      refine (ih pre hp.2.1 hpos s).bind fun r t _ hr => ?_
      cases r with
      | fail q => exact .pure hr
      | ok e _ =>
        refine (ih p hp.1 hr.2 t).bind fun r u _ hr' => ?_
        cases r with
        | fail q => exact .pure (hr'.from_le hr.1)
        | ok e' a =>
          have hle := Nat.le_trans hr.1 hr'.1
          exact (ih post hp.2.2 hr'.2 u).bind fun r u _ hr'' => .pure ((hr''.from_le hle).map _)
    | either p q =>
      rw [run]
      refine (ih p hp.1 hpos s).bind fun r t _ hr => ?_
      cases r with
      | ok e a => exact .pure hr
      | fail _ =>
        refine (ih q hp.2 hpos t).bind fun r u _ hr' => ?_
        cases r with
        | ok e a => exact .pure hr'
        | fail e =>
          refine .pure fun he => ?_
          obtain ⟨hle, -, hreach⟩ := hr' he
          exact ⟨Nat.le_refl pos, hpos, hreach.mono hle⟩
    | choice ps =>
      cases ps with
      | nil =>
        rw [run]
        refine (Ensures.register hpos).bind fun _ t _ hreach => .pure fun _ => ?_
        exact ⟨Nat.le_refl pos, hpos, hreach⟩
      | cons p ps =>
        rw [run]
        have hsome : Parsers.cons p ps ≠ .nil := fun h => by cases h
        refine Ensures.firstOf (Parsers.cons p ps) (fun p' hp' q t hq => ?_) hpos
          fun h => absurd h hsome
        exact ih p' (Parsers.Oblivious.of_mem hp p' hp') hq t
    | option p default =>
      rw [run]
      refine (ih p hp hpos s).bind fun r t _ hr => ?_
      cases r with
      | ok e a => exact .pure hr
      | fail _ => exact .pure ⟨Nat.le_refl pos, hpos⟩
    | opt p =>
      rw [run]
      refine (ih p hp hpos s).bind fun r t _ hr => ?_
      cases r with
      | ok e a => exact .pure hr
      | fail _ => exact .pure ⟨Nat.le_refl pos, hpos⟩
    | seq ps allowPartial =>
      rw [run]
      refine Ensures.inOrder allowPartial ps (fun p' hp' q t hq => ?_) hpos s
      exact ih p' (Parsers.Oblivious.of_mem hp p' hp') hq t
    | many p bounds =>
      rw [run]
      have hloop := Ensures.manyLoop (fun q t hq => ih p hp hq t) n bounds.max hpos s
      exact hloop.bind fun r t _ hr => atLeast_lands hr.1 hr.2 _ t
    | manyAccum p init f bounds =>
      rw [run]
      have hloop := Ensures.foldLoop (fun q t hq => ih p hp hq t) f n bounds.max init 0 hpos s
      exact hloop.bind fun r t _ hr => atLeast_lands hr.1 hr.2 _ t
    | sepBy p sep bounds =>
      rw [run]
      split
      · exact atLeast_lands (Nat.le_refl pos) hpos _ s
      · refine (ih p hp.1 hpos s).bind fun r t _ hr => ?_
        cases r with
        | fail _ => exact atLeast_lands (Nat.le_refl pos) hpos _ t
        | ok q a =>
          have hloop := Ensures.sepLoop (fun q t hq => ih p hp.1 hq t)
            (fun q t hq => ih sep hp.2 hq t) n (bounds.max.map (· - 1)) hr.2 t
          exact hloop.bind fun r u _ hr' => atLeast_lands (Nat.le_trans hr.1 hr'.1) hr'.2 _ u
    | lookAhead p =>
      rw [run]
      refine (ih p hp hpos s).bind fun r t _ hr => ?_
      cases r with
      | ok e a => exact .pure ⟨Nat.le_refl pos, hpos⟩
      | fail q => exact .pure hr
    | notFollowedBy p =>
      rw [run]
      refine (ih p hp hpos s).bind fun r t _ hr => ?_
      cases r with
      | ok e a => exact Lands.mismatch hpos t
      | fail q => exact .pure ⟨Nat.le_refl pos, hpos⟩
    | label p name =>
      rw [run]
      refine Ensures.currentSink.bind fun s₀ t _ _ => ?_
      refine (ih p hp hpos t).bind fun r u _ hr => ?_
      cases r with
      | ok e a => exact .pure hr
      | fail q =>
        refine Ensures.currentSink.bind fun s₁ u' hu _ => ?_
        rw [failWith]
        refine (Ensures.register hpos).bind fun _ w hw _ => .pure fun he => ?_
        exact ((hr he).later hu).later hw
    | recognize p =>
      rw [run]
      refine (ih p hp hpos s).bind fun r t _ hr => ?_
      cases r with
      | ok e a => exact .pure hr
      | fail q => exact .pure hr
    | lazy id p =>
      rw [run]
      exact (Ensures.build id).bind fun _ t _ _ => ih p hp hpos t
    | rule i =>
      rw [run]
      split
      · next p hrule => exact ih p (henv i p hrule) hpos s
      · exact Lands.mismatch hpos s
    | block init body =>
      rw [run]
      obtain ⟨held, hheld⟩ := exists_of_imp fun he => hown he init body hp.2
      have hs : Block.Stands ok explained pos ∅ (held init) pos s := by
        refine ⟨Nat.le_refl pos, hpos, fun _ _ he => he.elim, fun he => ?_⟩
        rw [(hheld he).1]
        exact fun _ he => he.elim
      have hbody := Block.exec_lands env.source env.config n hreports
        (fun p hp q t hq => ih p hp hq t) body hp.1 (fun he => (hheld he).2) hs
      refine hbody.bind fun r t _ hr => ?_
      obtain ⟨r, q, w⟩ := r
      cases r with
      | ok a => exact .pure ⟨hr.le, hr.inside⟩
      | error e => exact .pure fun he => hr.known he e rfl
    | function body => exact hp.elim

/-- A parser that fails has registered a failure where it started or beyond, if its blocks raise
only signals of their own. -/
theorem Parser.Oblivious.reaches_of_fail
    (hown : ∀ {ν β : Type} (init : ν) (body : Block σ τ ν β), law init body → body.OwnAborts init)
    (henv : env.Oblivious law reports) {p : Parser σ τ α} (hp : p.Oblivious law reports)
    {n pos q : Nat} {s t : State} (hrun : p.run env n pos s = some (.fail q, t)) :
    t.sink.Reaches pos := by
  have hread : env.source.ReadsWithin fun _ => True :=
    ⟨fun _ _ => trivial, fun _ _ => trivial, fun _ _ _ => trivial⟩
  obtain ⟨-, hlands⟩ := hp.run_lands True hread henv (fun _ _ _ => trivial)
    (fun _ => hown) n p trivial s _ t hrun
  obtain ⟨hq, -, hreach⟩ := hlands trivial
  exact hreach.mono hq

/-- A parser whose blocks leave the sink alone registers failures at good positions only. -/
theorem Parser.run_lands (explained : Prop) (hread : env.source.ReadsWithin ok)
    (henv : env.BuiltFrom law)
    (hown : explained → ∀ {ν β : Type} (init : ν) (body : Block σ τ ν β), law init body →
      body.OwnAborts init) (n : Nat) (p : Parser σ τ α) (hp : p.BuiltFrom law) {pos : Nat}
    (hpos : ok pos) : (p.run env n pos).Lands ok explained pos := by
  have henv' : env.Oblivious law fun _ _ => False := fun i q hq => (henv i q hq).oblivious
  exact Oblivious.run_lands explained hread henv' (fun _ _ => False.elim) hown n p hp.oblivious hpos

/-- A library-built parser does not fall behind its start, neither with a success nor with what it
registers. -/
theorem Parser.run_forward (henv : env.LibraryBuilt) {p : Parser σ τ α} (hp : p.LibraryBuilt)
    {n pos : Nat} {s t : State} {r : Outcome α} (hrun : p.run env n pos s = some (r, t)) :
    s.Extends (pos ≤ ·) t ∧ r.Lands (pos ≤ ·) False pos t := by
  have hread : env.source.ReadsWithin (pos ≤ ·) :=
    ⟨fun h _ => Nat.le_add_right_of_le h, fun h _ => Nat.le_add_right_of_le h,
      fun h _ _ => Nat.le_add_right_of_le h⟩
  exact run_lands False hread henv nofun n p hp (Nat.le_refl pos) s r t hrun

end Parsers

end Backtrack
