import Backtrack.Proofs.Act

/-!
# Bounds on the depth of a run, and what every run keeps

A bound cuts off runs that go deeper, and has no other influence. So whatever a parser comes to
within a bound, it comes to within every larger one, with the same state (`Parser.run_of_le`). And
whatever holds of a state is kept by a run, if registering a failure in place keeps it, and building
a lazy parser (`Parser.run_keeps`). So a run only adds to the history (`Parser.run_extends`). This
holds of every parser, also of one that looks at the sink, and is proved by one induction: `Both I`
relates a state that satisfies `I` to itself.
-/

namespace Backtrack

variable {σ ι : Type} {τ : ι → Type} {α β ν : Type}

open Act

/-- What is kept by everything that a run does to a state: it registers failures, each with a record
for its own place or with none, and it notes which lazy parsers have been built. What a part does to
a sink of its own is not seen. -/
structure State.Stable (I : State → Prop) : Prop where
  register (i : Nat) (r : Option Expectation) (inPlace : ∀ e, r = some e → e.index = i)
    (s : State) :
    I s → I { s with sink := s.sink.add i r, entries := ⟨i, r⟩ :: s.entries }
  build (built : List Nat) (s : State) : I s → I { s with built := built }

theorem State.Stable.trivial : State.Stable fun _ => True :=
  ⟨fun _ _ _ _ => id, fun _ _ => id⟩

/-- A state is further on than `s`, whatever is registered next. -/
theorem State.stable_extends (s : State) : State.Stable (s.Extends fun _ => True) where
  register i r _ t ht :=
    ht.trans ⟨[⟨i, r⟩], rfl, Sink.add_eq_merge i r t.sink, fun _ _ => trivial⟩
  build _ _ ht := ht

/-- Two runs in one state, which satisfies `I`. -/
def Both (I : State → Prop) (s t : State) : Prop := s = t ∧ I s

variable {I : State → Prop}

namespace Act.Simulates

/-- Where nothing is asked of states, the second run returns what the first one does. -/
theorem eq_some {a b : Act α} {s : State} {x : α × State}
    (h : Simulates (Both fun _ => True) a b) (hx : a s = some x) : b s = some x := by
  obtain ⟨t, ht, rfl, -⟩ := h s s ⟨rfl, trivial⟩ x.1 x.2 hx
  exact ht

theorem plainly_both (hI : State.Stable I) : Plainly (Both I) := by
  rintro i r hr - s _ ⟨rfl, hs⟩ _ s' hrun
  cases hrun
  exact ⟨_, rfl, rfl, hI.register i r hr _ hs⟩

/-- A failure in place, also a label. -/
theorem register_both (hI : State.Stable I) {i : Nat} {r : Option Expectation}
    (hr : ∀ e, r = some e → e.index = i) :
    Simulates (Both I) (Act.register i r) (Act.register i r) := by
  rintro s _ ⟨rfl, hs⟩ _ s' hrun
  cases hrun
  exact ⟨_, rfl, rfl, hI.register i r hr _ hs⟩

theorem failWith_both (hI : State.Stable I) (e : Expectation) (pos : Nat) :
    Simulates (Both I) (Act.failWith e pos : Act (Outcome α)) (Act.failWith e pos) :=
  (register_both hI fun _ h => Option.some.inj h ▸ rfl).bind fun _ => .pure _

theorem currentSink_both : Simulates (Both I) Act.currentSink Act.currentSink := by
  rintro s _ ⟨rfl, hs⟩ _ s' hrun
  cases hrun
  exact ⟨_, rfl, rfl, hs⟩

theorem build_both (hI : State.Stable I) (id : Nat) :
    Simulates (Both I) (Act.build id) (Act.build id) := by
  rintro s _ ⟨rfl, hs⟩ _ s' hrun
  cases hrun
  exact ⟨_, rfl, rfl, hI.build _ _ hs⟩

theorem isolated_both (hI : State.Stable I) {a b : Act α}
    (h : Simulates (Both fun _ => True) a b) :
    Simulates (Both I) (Act.isolated a) (Act.isolated b) := by
  rintro s _ ⟨rfl, hs⟩ x s' hrun
  obtain ⟨u, ha, rfl⟩ := isolated_eq_some.mp hrun
  exact ⟨_, isolated_eq_some.mpr ⟨u, h.eq_some ha, rfl⟩, rfl, hI.build _ _ hs⟩

end Act.Simulates

section Bodies

variable {call call' : Call σ τ} {m n : Nat}

theorem Block.exec_of_le (hI : State.Stable I) (src : Source σ) (cfg : Config) (hmn : m ≤ n)
    (hcall : ∀ {β : Type} (p : Parser σ τ β) q, Simulates (Both I) (call p q) (call' p q)) :
    ∀ {ν α : Type} (body : Block σ τ ν α) (pos : Nat) (v : ν),
      Simulates (Both I) (body.exec call src cfg m pos v) (body.exec call' src cfg n pos v)
  | _, _, .ret a, pos, v => by
    rw [exec, exec]
    exact .pure _
  | _, _, .abort e, pos, v => by
    rw [exec, exec]
    exact .pure _
  | _, _, .perform p allowPartial next, pos, v => by
    rw [exec, exec]
    refine (hcall p pos).bind fun r => ?_
    cases r with
    | ok q a => exact exec_of_le hI src cfg hmn hcall (next (.ok a)) q v
    | fail q => exact exec_of_le hI src cfg hmn hcall (next (.error _)) pos v
  | _, _, .many p next, pos, v => by
    rw [exec, exec]
    refine (Simulates.manyLoop (hcall p) hmn none pos).bind fun r => ?_
    exact exec_of_le hI src cfg hmn hcall (next r.1) r.2 v
  | _, _, .attempt body next, pos, v => by
    rw [exec, exec]
    refine (exec_of_le hI src cfg hmn hcall body pos v).bind fun r => ?_
    obtain ⟨r, q, w⟩ := r
    cases r with
    | ok a => exact exec_of_le hI src cfg hmn hcall (next (some a)) q w
    | error e => exact exec_of_le hI src cfg hmn hcall (next none) _ w
  | _, _, .loop body next, pos, v => by
    rw [exec, exec]
    have hpass := fun q w => exec_of_le hI src cfg hmn hcall body q w
    refine (Simulates.passLoop hpass hmn pos v).bind fun r => ?_
    exact exec_of_le hI src cfg hmn hcall next r.1 r.2
  | _, _, .position next, pos, v => by
    rw [exec, exec]
    exact exec_of_le hI src cfg hmn hcall (next pos) pos v
  | _, _, .ask next, pos, v => by
    rw [exec, exec]
    exact exec_of_le hI src cfg hmn hcall (next src cfg) pos v
  | _, _, .inspect next, pos, v => by
    rw [exec, exec]
    exact Simulates.currentSink_both.bind fun s => exec_of_le hI src cfg hmn hcall (next s) pos v
  | _, _, .register index record inPlace next, pos, v => by
    rw [exec, exec]
    refine (Simulates.register_both hI inPlace).bind fun _ => ?_
    exact exec_of_le hI src cfg hmn hcall next pos v
  | _, _, .get next, pos, v => by
    rw [exec, exec]
    exact exec_of_le hI src cfg hmn hcall (next v) pos v
  | _, _, .set w next, pos, v => by
    rw [exec, exec]
    exact exec_of_le hI src cfg hmn hcall next pos w

theorem Routine.exec_of_le (hI : State.Stable I) (src : Source σ) (cfg : Config)
    (hcall : ∀ {β : Type} (p : Parser σ τ β) q, Simulates (Both I) (call p q) (call' p q)) :
    ∀ {α : Type} (body : Routine σ τ α),
      Simulates (Both I) (body.exec call src cfg) (body.exec call' src cfg)
  | _, .ret a => by
    rw [exec, exec]
    exact .pure _
  | _, .ask next => by
    rw [exec, exec]
    exact exec_of_le hI src cfg hcall (next src cfg)
  | _, .inspect next => by
    rw [exec, exec]
    exact Simulates.currentSink_both.bind fun s => exec_of_le hI src cfg hcall (next s)
  | _, .register index record inPlace next => by
    rw [exec, exec]
    exact (Simulates.register_both hI inPlace).bind fun _ => exec_of_le hI src cfg hcall next
  | _, .call p pos next => by
    rw [exec, exec]
    exact (hcall p pos).bind fun r => exec_of_le hI src cfg hcall (next r)

end Bodies

section Parsers

variable [BEq σ] [Describe σ] {env : Env σ τ}

/-- One case for each kind of parser, by induction on the smaller bound. What is kept may be another
thing for the parts, as nothing is asked of a part with a sink of its own. -/
theorem Parser.run_simulates_of_le (hI : State.Stable I) {m n : Nat} (hmn : m ≤ n)
    (p : Parser σ τ α) (pos : Nat) :
    Simulates (Both I) (p.run env m pos) (p.run env n pos) := by
  induction m generalizing I α n p pos with
  | zero => exact .exceeded
  | succ m ih =>
    have hplain : Simulates.Plainly (Both I) := .plainly_both hI
    obtain ⟨n, rfl⟩ := Nat.exists_eq_add_of_le' (Nat.lt_of_lt_of_le m.succ_pos hmn)
    have hmn : m ≤ n := Nat.le_of_succ_le_succ hmn
    cases p with
    | pure a => exact .pure _
    | fail what =>
      cases what with
      | none => exact .mismatch hplain pos
      | some what => exact .failWith hplain rfl pos
    | any => exact .symbolWhere (.mismatch hplain pos) pos
    | eoi =>
      rw [run, run]
      split
      · exact .pure _
      · exact .failWith hplain rfl pos
    | el x => exact .symbolWhere (.failWith hplain rfl pos) pos
    | oneOf set => exact .symbolWhere (.expectEach hplain _ pos) pos
    | noneOf set => exact .symbolWhere (.mismatch hplain pos) pos
    | satisfy pred => exact .symbolWhere (.mismatch hplain pos) pos
    | literal pattern =>
      rw [run, run]
      split
      · exact .pure _
      · exact .failWith hplain rfl pos
    | charWith pred => exact .charWhere hplain _ pos pred
    | regexGroup re i => exact .regexWhere hplain _ re pos _
    | regexGroups re => exact .regexWhere hplain _ re pos _
    | covered p =>
      rw [run, run]
      refine (Simulates.isolated_both hI (ih .trivial hmn p pos)).bind fun r => ?_
      cases r with
      | fail q => exact .mismatch hplain pos
      | ok q a =>
        dsimp only
        split
        · exact .pure _
        · exact .mismatch hplain pos
    | map p f =>
      rw [run, run]
      exact (ih hI hmn p pos).bind fun r => .pure _
    | flatMap p next =>
      rw [run, run]
      refine (ih hI hmn p pos).bind fun r => ?_
      cases r with
      | fail q => exact .pure _
      | ok q a => exact ih hI hmn (next a) q
    | andMap p q f =>
      rw [run, run]
      refine (ih hI hmn p pos).bind fun r => ?_
      cases r with
      | fail q => exact .pure _
      | ok e a => exact (ih hI hmn q e).bind fun r => .pure _
    | between p pre post =>
      rw [run, run]
      refine (ih hI hmn pre pos).bind fun r => ?_
      cases r with
      | fail q => exact .pure _
      | ok e _ =>
        refine (ih hI hmn p e).bind fun r => ?_
        cases r with
        | fail q => exact .pure _
        | ok e a => exact (ih hI hmn post e).bind fun r => .pure _
    | either p q =>
      rw [run, run]
      refine (ih hI hmn p pos).bind fun r => ?_
      cases r with
      | ok e a => exact .pure _
      | fail _ =>
        refine (ih hI hmn q pos).bind fun r => ?_
        cases r with
        | ok e a => exact .pure _
        | fail e => exact .pure _
    | choice ps =>
      cases ps with
      | nil =>
        rw [run, run]
        exact (Simulates.registerNone hplain pos).bind fun _ => .pure _
      | cons p ps =>
        rw [run, run]
        exact .firstOf _ (fun p' _ q => ih hI hmn p' q) pos
    | option p d | opt p =>
      rw [run, run]
      refine (ih hI hmn p pos).bind fun r => ?_
      cases r with
      | ok e a => exact .pure _
      | fail _ => exact .pure _
    | seq ps allowPartial =>
      rw [run, run]
      exact .inOrder _ _ (fun p' _ q => ih hI hmn p' q) pos
    | many p bounds =>
      rw [run, run]
      have hloop := Simulates.manyLoop (ih hI hmn p) hmn bounds.max pos
      exact hloop.bind fun r => .atLeast hplain _ _ _ _
    | manyAccum p init f bounds =>
      rw [run, run]
      have hloop := Simulates.foldLoop (ih hI hmn p) f hmn bounds.max init 0 pos
      exact hloop.bind fun r => .atLeast hplain _ _ _ _
    | sepBy p sep bounds =>
      rw [run, run]
      split
      · exact .atLeast hplain _ _ _ _
      · refine (ih hI hmn p pos).bind fun r => ?_
        cases r with
        | fail _ => exact .atLeast hplain _ _ _ _
        | ok q a =>
          have hloop :=
            Simulates.sepLoop (ih hI hmn p) (ih hI hmn sep) hmn (bounds.max.map (· - 1)) q
          exact hloop.bind fun r => .atLeast hplain _ _ _ _
    | lookAhead p | recognize p =>
      rw [run, run]
      refine (ih hI hmn p pos).bind fun r => ?_
      cases r with
      | ok e a => exact .pure _
      | fail q => exact .pure _
    | notFollowedBy p =>
      rw [run, run]
      refine (ih hI hmn p pos).bind fun r => ?_
      cases r with
      | ok e a => exact .mismatch hplain pos
      | fail q => exact .pure _
    | label p name =>
      rw [run, run]
      refine Simulates.currentSink_both.bind fun s => (ih hI hmn p pos).bind fun r => ?_
      cases r with
      | ok q a => exact .pure _
      | fail q => exact Simulates.currentSink_both.bind fun t => .failWith_both hI _ q
    | lazy id p =>
      rw [run, run]
      exact (Simulates.build_both hI id).bind fun _ => ih hI hmn p pos
    | rule i =>
      rw [run, run]
      split
      · exact ih hI hmn _ pos
      · exact .mismatch hplain pos
    | block init body =>
      rw [run, run]
      have hbody := Block.exec_of_le hI env.source env.config hmn (ih hI hmn) body pos init
      refine hbody.bind fun r => ?_
      obtain ⟨r, q, w⟩ := r
      cases r with
      | ok a => exact .pure _
      | error e => exact .pure _
    | function body =>
      rw [run, run]
      exact Routine.exec_of_le hI env.source env.config (ih hI hmn) (body pos)

/-- A larger bound does not change what a run comes to. -/
theorem Parser.run_of_le {m n pos : Nat} (hmn : m ≤ n) {p : Parser σ τ α} {s : State}
    {x : Outcome α × State} (hrun : p.run env m pos s = some x) : p.run env n pos s = some x := by
  exact (run_simulates_of_le .trivial hmn p pos).eq_some hrun

/-- What is stable is kept by every run. -/
theorem Parser.run_keeps (hI : State.Stable I) {n pos : Nat} {p : Parser σ τ α} {s t : State}
    {r : Outcome α} (hrun : p.run env n pos s = some (r, t)) (hs : I s) : I t := by
  obtain ⟨_, -, -, ht⟩ := run_simulates_of_le hI (Nat.le_refl n) p pos s s ⟨rfl, hs⟩ r t hrun
  exact ht

/-- A run only adds to the history of the sink. -/
theorem Parser.run_extends {n pos : Nat} {p : Parser σ τ α} {s t : State} {r : Outcome α}
    (hrun : p.run env n pos s = some (r, t)) : s.Extends (fun _ => True) t :=
  run_keeps (State.stable_extends s) hrun (.refl _ s)

end Parsers

end Backtrack
